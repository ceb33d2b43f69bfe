import Mathlib
import Lox.Proofs.Execution.Faults
import Lox.Proofs.Session.Steady

/-!
# Distances lead to frames

Whenever a name with a recorded distance is read in the course of a session, so many links lead from
the current frame to the frame that was made for the scope in which the name was found, and the name
is there. A name that is written is there as well, unless it is the name of the local variable in
whose initializer the write stands: its frame is the right one, but it holds the name only after the
initializer.
-/

namespace Lox

open Lexical

/-- The frames from the current one outwards were made for the scopes, one for one, and hold the
names that the scopes declare; the global frame lies around them. -/
def Aligned (rs : List Attempt) (m : Machine NodeId) (scopes : Scopes NodeId) : Prop :=
  (∀ i sc, scopes[i]? = some sc → ∃ f, m.store.frames.ancestor? i m.env = some f ∧
    Opened rs f sc.site ∧ ∀ x ∈ sc.names, m.store.frames.contains f x = true) ∧
  m.store.frames.ancestor? scopes.length m.env = some globalFrame

/-- A name of the scopes is found in the frame made for the scope that declares it. -/
structure FoundAt (rs : List Attempt) (m : Machine NodeId) (scopes : Scopes NodeId) (x : String)
    (distance : Nat) : Prop where
  declared : scopes.distance? x = some distance
  frame : ∃ sc f, scopes[distance]? = some sc ∧ x ∈ sc.names ∧
    m.store.frames.ancestor? distance m.env = some f ∧ Opened rs f sc.site ∧
    m.store.frames.contains f x = true
  value : ∃ v, m.store.frames.getAt m.env distance x = .ok v

/-- A read at a distance finds its name, from a place that stands where the machine does. -/
structure ReadAt (rs : List Attempt) (d : Distances NodeId) (m : Machine NodeId) (e : Expr NodeId)
    (k : NodeId) (x : String) (distance : Nat) (p : Place NodeId) : Prop where
  known : Known rs p
  node : p.node = e
  aligned : Aligned rs m p.scopes
  found : FoundAt rs m p.scopes x distance
  /-- The frame of `this` is one link nearer than the frame of `super`. -/
  receiver : ∀ kw y, e = .superRef k kw y →
    ∃ i, distance = i + 1 ∧ FoundAt rs m p.scopes "this" i
  resolves : ∀ n err m', Exec.eval d n e m = .failed err m' → err.cause.isLost = false

/-- A write at a distance comes to the right frame. The name is there, and the write succeeds, if the
write does not stand in the initializer of the local variable it is to. -/
structure WriteAt (rs : List Attempt) (m : Machine NodeId) (e : Expr NodeId) (x : Token) (v : Value)
    (distance : Nat) (p : Place NodeId) : Prop where
  known : Known rs p
  node : p.node = e
  aligned : Aligned rs m p.scopes
  frame : ∃ f, m.store.frames.ancestor? distance m.env = some f ∧
    (m.store.frames.contains f x.lexeme = true ↔ p.pending ≠ some x.lexeme)
  found : p.pending ≠ some x.lexeme → FoundAt rs m p.scopes x.lexeme distance ∧
    ∃ m', Exec.assignName (some distance) x v m = .done () m'
  lost : p.pending = some x.lexeme →
    Exec.assignName (some distance) x v m = .failed ⟨x, .unresolvedVariable x.lexeme 0⟩ m

section
variable {rs : List Attempt} {s : Session} {source : String} {m m' : Machine NodeId} {st : State NodeId}
  {σ : Slots} {scs : Scopes NodeId} {pend : Option String}

theorem aligned_of_chain {O : FrameId → Site NodeId → Prop} {fr : Frames} {f : FrameId} {ps : Names}
    (h : Chain O σ fr f scs ps) :
    (∀ i sc, scs[i]? = some sc → ∃ g, fr.ancestor? i f = some g ∧ O g sc.site ∧
      ∀ x ∈ sc.names, fr.contains g x = true) ∧
    fr.ancestor? scs.length f = some globalFrame := by
  induction h with
  | global => exact ⟨by simp, rfl⟩
  | @scope f g sc scs seg ps he ho hn hseg _ ih =>
    refine ⟨?_, by simp [Frames.ancestor?, he, ih.2]⟩
    intro i sc' hi
    cases i with
    | zero =>
      obtain rfl : sc = sc' := by simpa using hi
      refine ⟨f, rfl, ho, ?_⟩
      intro x hx
      rw [← hn] at hx
      obtain ⟨p, hp, rfl⟩ := List.mem_map.1 hx
      exact (hseg p hp).2
    | succ i =>
      obtain ⟨g', ha, ho', hx⟩ := ih.1 i sc' (by simpa using hi)
      exact ⟨g', by simp [Frames.ancestor?, he, ha], ho', hx⟩

theorem aligned_of_here (hh : Here (Opened rs) σ scs pend m st) : Aligned rs m scs := by
  obtain ⟨ps, hc⟩ := hh.sees.chain
  exact aligned_of_chain hc

theorem foundAt_of_here (hh : Here (Opened rs) σ scs pend m st) {x : String} {j : Nat}
    (hp : pend ≠ some x) (hj : scs.distance? x = some j) : FoundAt rs m scs x j := by
  obtain ⟨f, sc, c, ha, hsc, hx, ho, _, hb, _⟩ := hh.sees.find hp hj
  obtain ⟨v, hv⟩ := Option.isSome_iff_exists.1 hb
  exact ⟨hj, ⟨sc, f, hsc, hx, ha, ho, hb⟩, v, Frames.getAt_eq_ok ha hv⟩

/-- A node that reads a name reads it from the frame of its scope. -/
theorem found_of_scoped {d : Distances NodeId} {N : Place NodeId → Prop}
    (hN : ∀ p, N p → p.Resolved d) (hh : Here (Opened rs) σ scs pend m st) {e : Expr NodeId}
    (hs : e.Scoped N scs pend) {k : NodeId} {x : String} (hr : e.reads? = some (k, x)) {j : Nat}
    (hd : d k = some j) :
    N ⟨scs, pend, e⟩ ∧ FoundAt rs m scs x j ∧
      ∀ kw y, e = .superRef k kw y → ∃ i, j = i + 1 ∧ FoundAt rs m scs "this" i := by
  cases e with
  | superRef k' kw y =>
    obtain ⟨rfl, rfl⟩ : k' = k ∧ kw.lexeme = x := by simpa [Expr.reads?] using hr
    obtain ⟨⟨hp, hdist⟩, hthis, hsuper⟩ := hN _ hs
    rw [hd] at hdist
    obtain ⟨i, hi, hdist'⟩ := hsuper j hd
    exact ⟨hs, foundAt_of_here hh hp hdist.symm, fun _ _ _ => ⟨i, hi, foundAt_of_here hh hthis hdist'⟩⟩
  | thisRef k' kw =>
    obtain ⟨rfl, rfl⟩ : k' = k ∧ kw.lexeme = x := by simpa [Expr.reads?] using hr
    obtain ⟨hp, hdist⟩ := hN _ hs
    rw [hd] at hdist
    exact ⟨hs, foundAt_of_here hh hp hdist.symm, fun _ _ he => nomatch he⟩
  | «variable» k' y =>
    obtain ⟨rfl, rfl⟩ : k' = k ∧ y.lexeme = x := by simpa [Expr.reads?] using hr
    obtain ⟨hp, hdist⟩ := hN _ hs
    rw [hd] at hdist
    exact ⟨hs, foundAt_of_here hh hp hdist.symm, fun _ _ he => nomatch he⟩
  | _ => cases hr

/-- The object of an initializer is still in its frame when the body is done. -/
theorem this_of_initializer {d : Distances NodeId} {N : Place NodeId → Prop}
    {O : FrameId → Site NodeId → Prop} (hN : ∀ p, N p → p.Resolved d) {f : Lox.Function NodeId}
    {args : List Value} (hM : Matched N O (.applyFunction f args, m))
    (hw : Within d O (.applyFunction f args, m)) (hi : f.isInitializer = true) {flow : Flow}
    (hy : Exec.Yields (Exec.execAll d · f.decl.body) (m.enter f.closure (f.locals args)) flow m') :
    ∃ v, m'.store.frames.getAt f.closure 0 "this" = .ok v := by
  obtain ⟨σ, st, hm, g, ⟨scs, ⟨_, _, hchain⟩, hs, hthis⟩, hargs⟩ := hM
  obtain ⟨outer, rfl⟩ := hthis hi
  obtain ⟨hnd, hnames⟩ := params_zip hs hargs
  obtain ⟨σ₁, hm₁, hg₁, hh₁⟩ := Here.enter (.function f.decl) hm _ hnd hchain
    (hw.opens .function)
  rw [hnames] at hh₁
  obtain ⟨n, hn⟩ := hy
  simp only at hn
  have hrun := (lockstep hN n).execAll f.decl.body hm₁ hh₁ (scopedAll_of_scopedFun hs)
    (hw.calls .functionBody)
  generalize Run.execAll n f.decl.body _ = R at hrun
  have hexec : Exec.execAll d n f.decl.body
      (m.enter f.closure (Table.empty.insertAll ((f.decl.params.map Token.lexeme).zip args))) =
      .done flow m' := hn
  rw [hexec] at hrun
  cases hrun with
  | done hmove =>
    obtain ⟨σ₂, hmove⟩ := hmove
    have hdist : Scopes.distance? (.ofReceiver f.decl :: outer) "this" = some 0 := by
      simp [Scopes.distance?_cons, LexicalScope.ofReceiver]
    obtain ⟨frame, _, c, ha, _, _, _, _, hb, _⟩ := ((hchain.mono hg₁).mono hmove.grows).find hdist
    obtain ⟨v, hv⟩ := Option.isSome_iff_exists.1 hb
    exact ⟨v, Frames.getAt_eq_ok ha hv⟩

/-- A node that finds its names does not fail for want of them. -/
theorem eval_resolved {d : Distances NodeId} {e : Expr NodeId} {k : NodeId} {x : String} {j : Nat}
    (hr : e.reads? = some (k, x)) (hd : d k = some j) (hf : FoundAt rs m scs x j)
    (hsuper : ∀ kw y, e = .superRef k kw y → ∃ i, j = i + 1 ∧ FoundAt rs m scs "this" i) {n : Nat}
    {err : RuntimeError} (he : Exec.eval d n e m = .failed err m') : err.cause.isLost = false := by
  obtain ⟨v, hv⟩ := hf.value
  cases n with
  | zero =>
    rw [Exec.eval] at he
    cases he
  | succ n =>
    cases e with
    | superRef k' kw z =>
      obtain ⟨rfl, rfl⟩ : k' = k ∧ kw.lexeme = x := by simpa [Expr.reads?] using hr
      obtain ⟨i', rfl, hthis⟩ := hsuper kw z rfl
      obtain ⟨u, hu⟩ := hthis.value
      rw [Exec.eval, hd] at he
      simp only [Exec.superMethod, Exec.bind_apply, Exec.read, hv, Exec.liftAt, Exec.pure_apply] at he
      cases v with
      | classRef parent =>
        simp only [Exec.bind_apply, Nat.add_sub_cancel, hu, Exec.pure_apply] at he
        cases u with
        | objectRef object =>
          simp only [Exec.bind_apply, Exec.read] at he
          cases hm : m.store.method? parent z.lexeme with
          | some f =>
            rw [hm] at he
            cases he
          | none =>
            rw [hm] at he
            cases he
            rfl
        | _ =>
          cases he
          rfl
      | _ =>
        cases he
        rfl
    | thisRef k' kw =>
      obtain ⟨rfl, rfl⟩ : k' = k ∧ kw.lexeme = x := by simpa [Expr.reads?] using hr
      rw [Exec.eval, hd, Exec.readName] at he
      simp only [Exec.bind_apply, Exec.read, hv, Exec.liftAt, Exec.pure_apply] at he
      cases he
    | «variable» k' z =>
      obtain ⟨rfl, rfl⟩ : k' = k ∧ z.lexeme = x := by simpa [Expr.reads?] using hr
      rw [Exec.eval, hd, Exec.readName] at he
      simp only [Exec.bind_apply, Exec.read, hv, Exec.liftAt, Exec.pure_apply] at he
      cases he
    | _ => cases hr

end

/-! ## Every moment of a session -/

section
variable {rs : List Attempt} {r : Attempt} {m m' : Machine NodeId} {e : Expr NodeId} {k : NodeId}
  {j : Nat}

theorem readAt_of_visits (h : Steady rs r.session) {x : String} (hv : r.Visits (.eval e, m))
    (hr : e.reads? = some (k, x)) (hd : r.distances k = some j) :
    ∃ p, ReadAt (r :: rs) r.distances m e k x j p := by
  have hN := fun p hp => (h.known_resolved (p := p) hv.1.parsed hp).1
  obtain ⟨⟨σ, st, _, scs, pend, hh, hs⟩, _⟩ := matched_of_visits h hv
  obtain ⟨hp, hf, hsuper⟩ := found_of_scoped hN hh hs hr hd
  exact ⟨⟨scs, pend, e⟩, hp, rfl, aligned_of_here hh, hf, hsuper,
    fun n err m' he => eval_resolved hr hd hf hsuper he⟩

theorem object_of_visits (h : Steady rs r.session) {f : Lox.Function NodeId} {args : List Value}
    {flow : Flow} (hv : r.Visits (.applyFunction f args, m)) (hi : f.isInitializer = true)
    (hy : Exec.Yields (Exec.execAll r.distances · f.decl.body)
      (m.enter f.closure (f.locals args)) flow m') :
    ∃ v, m'.store.frames.getAt f.closure 0 "this" = .ok v := by
  have hN := fun p hp => (h.known_resolved (p := p) hv.1.parsed hp).1
  obtain ⟨hM, hw⟩ := matched_of_visits h hv
  exact this_of_initializer hN hM hw hi hy

theorem writeAt_of_visits (h : Steady rs r.session) {x : Token} {v : Value}
    (hv : r.Visits (.eval (.assign k x e), m)) (hd : r.distances k = some j)
    (hy : Exec.Yields (Exec.eval r.distances · e) m v m') :
    ∃ p, WriteAt (r :: rs) m' (.assign k x e) x v j p := by
  have hN := fun p hp => (h.known_resolved (p := p) hv.1.parsed hp).1
  obtain ⟨⟨σ, st, hm, scs, pend, hh, hs⟩, hw⟩ := matched_of_visits h hv
  rw [Expr.Scoped] at hs
  -- the value leaves both sides where they stood
  obtain ⟨σ', st', ho⟩ := onward_of_eval hN hm hh hs.1 (hw.calls .assignValue) hy
  have hh' := ho.here hm hh
  have hres : r.distances k = if pend = some x.lexeme then some 0 else scs.distance? x.lexeme :=
    hN _ hs.2
  rw [hd] at hres
  by_cases hp : pend = some x.lexeme
  · rw [if_pos hp, Option.some.injEq] at hres
    subst hres hp
    have hnone := hh'.sees.waiting_lookup
    refine ⟨⟨scs, some x.lexeme, .assign k x e⟩, hs.2, rfl, aligned_of_here hh',
      ⟨m'.env, rfl, by simp [Frames.contains, hnone]⟩, fun hne => absurd rfl hne, ?_⟩
    intro _
    have hloc := Frames.locateAt_eq_error (f := m'.env) (k := 0) rfl hnone
    simp only [Exec.assignName, Exec.bind_apply, Exec.read, Exec.assignIn, hloc]
  · rw [if_neg hp] at hres
    have hfound := foundAt_of_here hh' hp hres.symm
    obtain ⟨sc, f, _, _, ha, _, hc⟩ := hfound.frame
    have hloc := Frames.locateAt_eq_ok ha hc
    refine ⟨⟨scs, pend, .assign k x e⟩, hs.2, rfl, aligned_of_here hh',
      ⟨f, ha, by simp [hc, hp]⟩, ?_, fun he => absurd he hp⟩
    intro _
    refine ⟨hfound, ⟨{ m' with store := { m'.store with
      frames := m'.store.frames.define f x.lexeme v } }, ?_⟩⟩
    simp only [Exec.assignName, Exec.bind_apply, Exec.read, Exec.assignIn, hloc]

/-- If a run loses a name, it loses it in a write. -/
theorem write_of_lost (h : Steady rs r.session) (ha : r.Accepted) {fuel : Nat} {err : RuntimeError}
    (hrun : Exec.interpret r.distances fuel r.tree r.session.machine = .failed err m')
    (hl : err.cause.isLost = true) :
    ∃ k x e j m v m₁ m₂, r.Visits (.eval (.assign k x e), m) ∧ r.distances k = some j ∧
      Exec.Yields (Exec.eval r.distances · e) m v m₁ ∧
      Exec.assignName (some j) x v m₁ = .failed err m₂ := by
  obtain ⟨S, M, hS, hM, hlost⟩ := Exec.loses_of_interpret hrun hl
  have hv : r.Visits M := ⟨ha, S, hS, hM⟩
  cases hlost with
  | read hr hd he =>
    obtain ⟨p, hread⟩ := readAt_of_visits h hv hr hd
    rw [hread.resolves _ _ _ he] at hl
    cases hl
  | write hd hy he => exact ⟨_, _, _, _, _, _, _, _, hv, hd, hy, he⟩
  | object hi hy hg =>
    obtain ⟨v, hok⟩ := object_of_visits h hv hi hy
    rw [hg] at hok
    cases hok

/-- A write with a recorded distance loses its name exactly if it stands in the initializer of the
local variable it is to; and a run of a session loses a name in no other way. -/
theorem writes_fail_only_in_own_initializer {clock : Clock} {limit : Option Nat}
    (hist : Session.History clock limit rs r.session) :
    (∀ k x e j m v m', r.Visits (.eval (.assign k x e), m) → r.distances k = some j →
      Exec.Yields (Exec.eval r.distances · e) m v m' →
      ∃ p, WriteAt (r :: rs) m' (.assign k x e) x v j p) ∧
    ∀ fuel err m', r.Accepted →
      Exec.interpret r.distances fuel r.tree r.session.machine = .failed err m' →
      err.cause.isLost = true →
      ∃ p k x e m, r.Visits (.eval (.assign k x e), m) ∧ Known (r :: rs) p ∧ p.node = .assign k x e ∧
        p.pending = some x.lexeme ∧ err = ⟨x, .unresolvedVariable x.lexeme 0⟩ := by
  have h := steady_of_history hist
  refine ⟨fun _ _ _ _ _ _ _ => writeAt_of_visits h, fun fuel err m' ha hrun hl => ?_⟩
  obtain ⟨k, x, e, j, m, v, m₁, m₂, hv, hd, hy, hfail⟩ := write_of_lost h ha hrun hl
  obtain ⟨p, hw⟩ := writeAt_of_visits h hv hd hy
  by_cases hp : p.pending = some x.lexeme
  · rw [hw.lost hp] at hfail
    cases hfail
    exact ⟨p, k, x, e, m, hv, hw.known, hw.node, hp, rfl⟩
  · obtain ⟨_, m'', hdone⟩ := hw.found hp
    rw [hdone] at hfail
    cases hfail

/-- A local variable that is assigned in its own initializer. -/
def earlyWrite : Attempt := ⟨.fresh ⟨fun _ => 0, 0⟩, "{ var a = a = nil; }"⟩

theorem earlyWrite_is_lost :
    earlyWrite.Accepted ∧
    (∃ m', Exec.interpret earlyWrite.distances 5 earlyWrite.tree earlyWrite.session.machine =
      .failed ⟨.ident "a" 1, .unresolvedVariable "a" 0⟩ m') ∧
    (∃ m p, WriteAt [earlyWrite] m (.assign 1 (.ident "a" 1) (.literal .nil)) (.ident "a" 1) .nil 0 p) ∧
    ∃ p, Known [earlyWrite] p ∧ p.pending = some "a" := by
  have ha : earlyWrite.Accepted := ⟨by decide +kernel, by decide +kernel, by decide +kernel⟩
  have ht : earlyWrite.tree =
      [.block [.varDecl (.ident "a" 1) (some (.assign 1 (.ident "a" 1) (.literal .nil)))]] := by cbv
  have hd : earlyWrite.distances 1 = some 0 := by decide +kernel
  have hs : Starts earlyWrite.distances earlyWrite.tree earlyWrite.session.machine
      (.exec (.block [.varDecl (.ident "a" 1) (some (.assign 1 (.ident "a" 1) (.literal .nil)))]),
        earlyWrite.session.machine) := by
    rw [ht]
    exact .first
  have hv : earlyWrite.Visits (.eval (.assign 1 (.ident "a" 1) (.literal .nil)), _) :=
    ⟨ha, _, hs, .head .blockBody (.head .firstStatement (.single .variableValue))⟩
  obtain ⟨m', hrun⟩ : ∃ m', Exec.interpret earlyWrite.distances 5 earlyWrite.tree
      earlyWrite.session.machine = .failed ⟨.ident "a" 1, .unresolvedVariable "a" 0⟩ m' := by
    rw [ht]
    simp only [Exec.interpret, Exec.exec, Exec.execAll, Exec.eval, Exec.assignName, hd]
    exact ⟨_, rfl⟩
  obtain ⟨hwrite, hlost⟩ := writes_fail_only_in_own_initializer (r := earlyWrite) .fresh
  obtain ⟨p, k, x, e, _, _, hk, _, hp, hx⟩ := hlost 5 _ _ ha hrun rfl
  cases hx
  exact ⟨ha, ⟨m', hrun⟩, ⟨_, hwrite _ _ _ _ _ _ _ hv hd ⟨1, rfl⟩⟩, p, hk, hp⟩

end

end Lox
