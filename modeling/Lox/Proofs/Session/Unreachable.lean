import Lox.Proofs.Execution.Initializers
import Lox.Proofs.Scoping.Returns
import Lox.Proofs.Session.Distances
import Lox.Proofs.Session.Restoration

/-!
# What the checks exclude

A source that is run has passed the grammar and the rules of scope, and the store of a session was
made by such sources only. So no moment of a run raises an error by a branch that stands there for
defence, and no statement at the top level returns. Main statement: `checks_exclude_defenses`.
-/

namespace Lox

section
variable {clock : Clock} {limit : Option Nat} {rs : List Attempt} {r : Attempt} {s : Session}

/-- The code of an accepted program is formed. -/
theorem Attempt.Accepted.formed (ha : r.Accepted) : ∀ t ∈ r.tree, (Code.formed NodeId).stmt t :=
  fun _ ht => (Attempt.formed ha.parsed).of_mem ht

/-- The store of a session holds formed code only, and in its frames `this` is an object and `super`
a class. -/
theorem Session.History.slotted (h : Session.History clock limit rs s) :
    s.machine.store.Holds (.formed NodeId) ∧ s.machine.store.Slotted := by
  refine ⟨h.holds fun _ _ ha => ha.formed, ?_⟩
  induction h with
  | fresh =>
    have hempty : Store.Slotted ({} : Store NodeId) :=
      ⟨by simp [Frames.lookup?], by simp [Frames.lookup?]⟩
    exact hempty.addFrame (by simp [Machine.firstFrame, Native.name]) (by simp [Machine.firstFrame, Native.name])
  | run hist hrun ih =>
    have hleads := Session.leads_of_run (hist.holds fun _ _ ha => ha.formed) (·.formed) hrun
    exact hleads.store.slotted (fun _ h => h) ih

/-- So it is at every moment of a run. -/
theorem slotted_of_visits (hist : Session.History clock limit rs r.session) {M : Moment NodeId}
    (hv : r.Visits M) : (Code.formed NodeId).task M.1 ∧ M.2.store.Holds (.formed NodeId) ∧ M.2.store.Slotted := by
  obtain ⟨hholds, hslots⟩ := hist.slotted
  obtain ⟨htask, hsince⟩ := hv.runsCode (·.formed) hholds
  exact ⟨htask, hsince.holds hholds, hsince.slotted (fun _ h => h) hslots⟩

/-- The distances of a run are those of every program so far, and every `super` and `this` has one. -/
theorem settled_of_known (hist : Session.History clock limit rs r.session) {p : Place NodeId}
    (hp : Known (r :: rs) p) (ha : r.Accepted) : p.Settled r.distances := by
  have hres := ((steady_of_history hist).known_resolved ha.parsed hp).1
  obtain ⟨r', hr', ha', hplace, hres'⟩ := hp
  obtain ⟨_, hist'⟩ := hist.of_mem_cons hr'
  obtain ⟨_, hsuper, hthis⟩ := Stmt.holdsAll_of_scoped [] _
    (Attempt.settled ha' (steady_of_history hist').unbound) p hplace
  refine ⟨hres, fun k kw x hnode => ?_, fun k kw hnode => ?_⟩
  · have hsome := hsuper k kw x hnode
    simp only [Place.Resolved, hnode] at hres hres'
    rwa [hres'.1.2, ← hres.1.2] at hsome
  · have hsome := hthis k kw hnode
    simp only [Place.Resolved, hnode] at hres hres'
    rwa [hres'.2, ← hres.2] at hsome

/-- Where a `super` is evaluated, its frame holds a class, and the frame one link nearer holds the object of
`this`. -/
theorem super_reads (hist : Session.History clock limit rs r.session) {m : Machine NodeId} {k : NodeId}
    {kw x : Token} (hv : r.Visits (.eval (.superRef k kw x), m)) :
    ∃ j c i, r.distances k = some (j + 1) ∧
      m.store.frames.getAt m.env (j + 1) kw.lexeme = .ok (.classRef c) ∧
      m.store.frames.getAt m.env j "this" = .ok (.objectRef i) := by
  have h := steady_of_history hist
  obtain ⟨hkw, _, hslots⟩ := slotted_of_visits hist hv
  have hkw : kw.lexeme = "super" := hkw
  obtain ⟨⟨σ, st, _, scs, pend, _, hknown⟩, _⟩ := matched_of_visits h hv
  obtain ⟨j, hj⟩ := Option.isSome_iff_exists.1 ((settled_of_known hist hknown hv.1).2.1 k kw x rfl)
  obtain ⟨p, hread⟩ := readAt_of_visits h hv rfl hj
  obtain ⟨i, rfl, hthis⟩ := hread.receiver kw x rfl
  obtain ⟨_, f, _, _, hf, _, hcontains⟩ := hread.found.frame
  obtain ⟨v, hv'⟩ := Option.isSome_iff_exists.1 hcontains
  obtain ⟨c, rfl⟩ := hslots.super f v (by rw [← hkw]; exact hv')
  obtain ⟨_, g, _, _, hg, _, hcontains'⟩ := hthis.frame
  obtain ⟨u, hu⟩ := Option.isSome_iff_exists.1 hcontains'
  obtain ⟨o, rfl⟩ := hslots.this g u hu
  exact ⟨i, c, o, hj, Frames.getAt_eq_ok hf hv', Frames.getAt_eq_ok hg hu⟩

/-- A `super` that is evaluated comes to a class and an object; only the method may be missing. -/
theorem super_of_visits (hist : Session.History clock limit rs r.session) {m m' : Machine NodeId}
    {k : NodeId} {kw x : Token} {err : RuntimeError} (hv : r.Visits (.eval (.superRef k kw x), m))
    (he : Exec.superMethod (r.distances k) kw x m = .failed err m') :
    err = ⟨x, .undefinedProperty x.lexeme⟩ := by
  obtain ⟨j, c, i, hj, hsuper, hthis⟩ := super_reads hist hv
  rw [hj, Exec.superMethod_eq hsuper hthis] at he
  cases hm : m.store.method? c x.lexeme with
  | some f =>
    rw [hm] at he
    cases he
  | none =>
    rw [hm] at he
    cases he
    rfl

/-- At every moment the current frame is a frame of the store. -/
theorem env_lt_of_visits (hist : Session.History clock limit rs r.session) {m : Machine NodeId}
    {t : Stmt NodeId} (hv : r.Visits (.exec t, m)) : m.env < m.store.frames.cells.size := by
  obtain ⟨⟨σ, st, hm, scs, hh, _⟩, _⟩ := matched_of_visits (steady_of_history hist) hv
  exact hh.env_lt hm

/-- No moment of a run raises an error by a branch that stands there for defence. -/
theorem not_defensive (hist : Session.History clock limit rs r.session) {M : Moment NodeId}
    (hv : r.Visits M) (err : RuntimeError) : ¬ Raises r.distances .defensive err M := by
  obtain ⟨htask, hholds, _⟩ := slotted_of_visits hist hv
  intro h
  cases h with
  | binaryOperator _ _ he =>
    obtain ⟨⟨level, hop⟩, _⟩ := htask
    exact Exec.applyBinary_ne hop _ _ he
  | unaryOperator _ he => exact Exec.applyUnary_ne htask.1 _ he
  | superFault he hne => exact hne (super_of_visits hist hv he)
  | receiver hi hy hg =>
    obtain ⟨v, hok⟩ := object_of_visits (steady_of_history hist) hv hi hy
    rw [hg] at hok
    cases hok
  | declared he =>
    obtain ⟨m', hdone⟩ := Exec.declareClass_done (env_lt_of_visits hist hv) _ none _
    rw [he] at hdone
    cases hdone
  | @derived e m p m' x methods _ _ hy he =>
    -- the superclass is evaluated in between and leaves the current frame in place
    have hparent := ((Code.formed NodeId).classDecl htask).2.1 e rfl
    have hleads := leads_of_eval hparent hholds hy
    have henv : m'.env < m'.store.frames.cells.size := by
      rw [hleads.env]
      exact Nat.lt_of_lt_of_le (env_lt_of_visits hist hv) hleads.store.grows.frames
    obtain ⟨m'', hdone⟩ := Exec.declareClass_done henv x (some p) methods
    rw [he] at hdone
    cases hdone

/-- In no run of a session is an error raised by a branch that stands there for defence: every error
that ends a run is raised by an ordinary one. And a statement at the top level that finishes falls off
its end, so nothing it returns is dropped. -/
theorem checks_exclude_defenses (hist : Session.History clock limit rs r.session) :
    (∀ M err, r.Visits M → ¬ Raises r.distances .defensive err M) ∧
    (∀ fuel s', r.session.run fuel r.source = some (.runtimeError, s') →
      ∃ M err, r.Visits M ∧ Raises r.distances .ordinary err M ∧
        s'.reports = Reports.empty.addRuntimeError err.blamed err.cause.message) ∧
    ∀ t m n flow m', r.Accepted → Starts r.distances r.tree r.session.machine (.exec t, m) →
      Exec.exec r.distances n t m = .done flow m' → flow = .normal := by
  refine ⟨fun M err hv => not_defensive hist hv err, ?_, ?_⟩
  · intro fuel s' hrun
    have ha : r.Accepted := Session.accepted_of_run hrun (by decide)
    rw [Session.run_of_accepted ha] at hrun
    split at hrun
    · cases hrun
    · rename_i err m' hfailed
      cases hrun
      obtain ⟨S, b, M, hS, hM, hraises⟩ := Exec.raises_of_interpret hfailed
      have hv : r.Visits M := ⟨ha, S, hS, hM⟩
      cases b with
      | ordinary => exact ⟨M, err, hv, hraises, rfl⟩
      | defensive => exact absurd hraises (not_defensive hist hv err)
    · cases hrun
  · intro t m n flow m' ha hS hdone
    have hfalls := falls_of_resolve ha.resolved
    exact (Exec.exec_falls r.distances n).1 t (hfalls.of_mem (hS.mem rfl)) m flow m' hdone

/-- A `super` whose method is missing. -/
def missingSuper : Attempt :=
  ⟨.fresh ⟨fun _ => 0, 0⟩, "class A {} class B < A { f() { super.g(); } } B().f();"⟩

theorem missingSuper_raises :
    (missingSuper.session.run 20 missingSuper.source).map Prod.fst = some .runtimeError ∧
      ∃ M err, missingSuper.Visits M ∧ Raises missingSuper.distances .ordinary err M := by
  have hrun : (missingSuper.session.run 20 missingSuper.source).map Prod.fst = some .runtimeError := by
    decide +kernel
  obtain ⟨⟨outcome, s'⟩, hs, rfl⟩ := Option.map_eq_some_iff.1 hrun
  obtain ⟨M, err, hv, hraises, _⟩ := (checks_exclude_defenses (r := missingSuper) .fresh).2.1 20 s' hs
  exact ⟨hrun, M, err, hv, hraises⟩

end

end Lox
