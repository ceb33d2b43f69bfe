import Lox.Proofs.Lexical.Moments
import Lox.Proofs.Scoping.Coverage

/-!
# Whole programs

A machine at rest and a state at rest go through the statements of a program together. What is known
of places and frames may grow from one program to the next, and a mirror stays a mirror.
-/

namespace Lox.Lexical

/-! ## More places and more frames -/

section
variable {N N' : Place ν → Prop} {O O' : FrameId → Site ν → Prop} {σ : Slots} {fr : Frames}
  {m : Machine ν} {s : State ν}

theorem Chain.widen {f : FrameId} {scs : Scopes ν} {ps : Names} (h : Chain O σ fr f scs ps)
    (hO : ∀ f site, O f site → O' f site) : Chain O' σ fr f scs ps := by
  induction h with
  | global => exact .global
  | scope he ho hn hseg _ ih => exact .scope he (hO _ _ ho) hn hseg ih

theorem MethodRel.widen {f : Lox.Function ν} {g : Function ν} (h : MethodRel N O σ fr f g)
    (hN : ∀ p, N p → N' p) (hO : ∀ f site, O f site → O' f site) : MethodRel N' O' σ fr f g := by
  obtain ⟨scs, ⟨hdecl, hinit, hc⟩, hs⟩ := h
  exact ⟨scs, ⟨hdecl, hinit, hc.widen hO⟩,
    Stmt.scopedFun_of_places _ f.decl hs fun p _ hp => hN p hp⟩

theorem FunctionRel.widen {f : Lox.Function ν} {g : Function ν} (h : FunctionRel N O σ fr f g)
    (hN : ∀ p, N p → N' p) (hO : ∀ f site, O f site → O' f site) : FunctionRel N' O' σ fr f g := by
  obtain ⟨scs, ⟨hdecl, hinit, hc⟩, hs, hthis⟩ := h
  exact ⟨scs, ⟨hdecl, hinit, hc.widen hO⟩,
    Stmt.scopedFun_of_places _ f.decl hs fun p _ hp => hN p hp, hthis⟩

theorem Mirrors.widen (h : Mirrors N O σ m s) (hN : ∀ p, N p → N' p)
    (hO : ∀ f site, O f site → O' f site) : Mirrors N' O' σ m s :=
  { h with
    functions := fun i => rel_mono (fun _ _ hf => hf.widen hN hO) (h.functions i)
    classes := fun i => rel_mono (fun _ _ hc => { hc with
      methods := fun x => rel_mono (fun _ _ hm => hm.widen hN hO) (hc.methods x) }) (h.classes i) }

/-! ## At rest -/

/-- A machine and a state that have not run anything. -/
theorem Mirrors.initial (clock : Clock) (limit : Option Nat) :
    Mirrors N O (fun _ _ => none) (Machine.initial clock limit) (State.initial clock limit) where
  nonempty := Nat.zero_lt_one
  outermost := rfl
  globals _ := rfl
  slot_lt _ _ _ h := nomatch h
  slot_value _ _ _ h := nomatch h
  slot_inj _ _ _ _ _ h := nomatch h
  slot_local _ _ h := nomatch h
  named f x hf hx := by
    have hnone : (Machine.initial clock limit : Machine ν).store.frames.lookup? f x = none := by
      have hsize : (#[Machine.firstFrame] : Array Frame)[f]? = none := by
        rw [Array.getElem?_eq_none_iff]
        exact Nat.pos_of_ne_zero hf
      simp [Machine.initial, Frames.lookup?, hsize]
    rw [hnone] at hx
    cases hx
  functions_size := rfl
  functions _ := .none
  classes_size := rfl
  classes _ := .none
  objects := rfl
  depth := rfl
  output := rfl
  clock := rfl

end

/-! ## One statement after another -/

section
variable {N : Place ν → Prop} {O : FrameId → Site ν → Prop} {d : Distances ν} {σ : Slots}
  {m : Machine ν} {s : State ν} {n : Nat}

/-- A program at rest: both sides finish and are at rest again, or stop at the same error. -/
theorem interpret_agrees (hN : ∀ p, N p → p.Resolved d) (tree : List (Stmt ν))
    (h : Mirrors N O σ m s) (hh : Here O σ [] none m s) (hs : Stmt.ScopedAll N [] tree)
    (hw : ∀ S, Starts d tree m S → Within d O S) :
    Agree (fun _ m' s' => m'.env = m.env ∧ ∃ σ', Mirrors N O σ' m' s') (Halted N O m)
      (Exec.interpret d n tree m) (Run.interpret n tree s) := by
  induction tree generalizing σ m s with
  | nil => exact .done ⟨rfl, σ, h⟩
  | cons t ts ih =>
    rw [Stmt.ScopedAll, Stmt.after_nil] at hs
    rw [Exec.interpret, Run.interpret]
    refine Agree.bind ((lockstep hN n).exec t h hh hs.1 (hw _ .first)) ?_ (fun _ _ hF => hF)
    rintro flow m' s' hx ⟨σ', hmove, hhere⟩
    rw [Stmt.after_nil] at hhere
    have hrest := ih hmove.mirrors hhere hs.2 fun S hS => hw S (.next ⟨n, hx⟩ hS)
    refine hrest.mono ?_ ?_
    · rintro _ m₂ s₂ ⟨he, hm⟩
      exact ⟨he.trans hmove.env, hm⟩
    · rintro m₂ s₂ ⟨he, hm⟩
      exact ⟨he.trans hmove.env, hm⟩

/-- Every statement of a program is started at a place. -/
theorem matched_of_starts (hN : ∀ p, N p → p.Resolved d) {tree : List (Stmt ν)} {S : Moment ν}
    (hS : Starts d tree m S) (h : Mirrors N O σ m s) (hh : Here O σ [] none m s)
    (hs : Stmt.ScopedAll N [] tree) (hw : ∀ S, Starts d tree m S → Within d O S) : Matched N O S := by
  induction hS generalizing σ s with
  | first =>
    rw [Stmt.ScopedAll] at hs
    exact ⟨σ, s, h, [], hh, hs.1⟩
  | next hy _ ih =>
    rw [Stmt.ScopedAll, Stmt.after_nil] at hs
    obtain ⟨σ', s', h', hh'⟩ := here_of_exec hN h hh hs.1 (hw _ .first) hy
    rw [Stmt.after_nil] at hh'
    exact ih h' hh' hs.2 fun S hS => hw S (.next hy hS)

end

end Lox.Lexical
