import Lox.Proofs.Execution.Links
import Lox.Proofs.Session.Restoration

/-!
# The store of one interpreter

One interpreter executes statements one after another, each with distances of its own, and goes on after a
statement that failed. Its store is linked all along, and from one change to the next nothing is altered that
was fixed when it was made: `heap_stays_linked`. Runs of sources are such statements: `Session.reached_of_run`.
-/

namespace Lox

/-- One change between linked stores that leaves alone what was fixed. -/
structure Store.LinkedStep (s s' : Store ν) : Prop where
  change : Change (Code.all ν) s s'
  keeps : s.Keeps s'
  before : s.Linked
  after : s'.Linked

/-- From one store to a later one, one change after another. -/
structure Store.Unfolds (s s' : Store ν) : Prop where
  steps : Relation.ReflTransGen Store.LinkedStep s s'
  keeps : s.Keeps s'
  linked : s'.Linked

theorem Store.Evolves.unfolds {s s' : Store ν} (h : s.Evolves s') (hs : s.Sound) : s.Unfolds s' := by
  refine ⟨?_, h.keeps, (h.sound hs).linked⟩
  induction h with
  | refl => exact .refl
  | tail hpath hstep ih =>
    have hmid : Store.Sound _ := Evolves.sound hpath hs
    exact ih.tail ⟨hstep.1, hstep.1.keeps, hmid.linked, hstep.2.linked⟩

/-- A machine after some statements, one after another, each with distances of its own; some may have
failed. -/
inductive Machine.Reached (clock : Clock) (limit : Option Nat) : Machine ν → Prop
  | initial : Reached clock limit (.initial clock limit)
  | exec (d : Distances ν) (n : Nat) (t : Stmt ν) : Reached clock limit m →
      (Exec.exec d n t m).machine? = some m' → Reached clock limit m'

namespace Machine

theorem initial_sound (clock : Clock) (limit : Option Nat) : (initial clock limit : Machine ν).Sound := by
  have hglobal : globalFrame < #[firstFrame].size := by decide
  refine ⟨⟨hglobal, fun f frame hf => ?_, fun i f hf => ?_, fun i c hc => ?_, fun i o ho => ?_⟩, hglobal⟩
  · have hf : #[firstFrame][f]? = some frame := hf
    cases f with
    | zero =>
      cases hf
      have hclock : (Machine.initial clock limit : Machine ν).store.Has (.native .clock) := trivial
      exact ⟨Store.HasAll.empty.insert _ hclock, (fun _ he => nomatch he), by simp [firstFrame, globalFrame]⟩
    | succ f => simp at hf
  · simp [initial] at hf
  · simp [initial] at hc
  · simp [initial] at ho

namespace Reached

variable {clock : Clock} {limit : Option Nat} {m m' : Machine ν}

theorem advances (h : m.Reached clock limit) : Advances (.initial clock limit) m := by
  induction h with
  | initial => exact .refl
  | exec d n t _ hx ih =>
    have hM : Moment.Sound (.exec t, _) := ⟨trivial, ih.sound (initial_sound clock limit)⟩
    exact ih.trans (hM.advances (n := n) (d := d) hx)

/-- A program is statements one after another, up to the first that fails. -/
theorem interpret (h : m.Reached clock limit) (d : Distances ν) (n : Nat) {tree : List (Stmt ν)}
    (hx : (Exec.interpret d n tree m).machine? = some m') : m'.Reached clock limit := by
  induction tree generalizing m with
  | nil =>
    cases hx
    exact h
  | cons t ts ih =>
    rw [Exec.interpret, Exec.bind_apply] at hx
    cases ht : Exec.exec d n t m with
    | done flow m₁ =>
      rw [ht] at hx
      exact ih (h.exec d n t (by rw [ht]; rfl)) hx
    | failed e m₁ =>
      rw [ht] at hx
      exact h.exec d n t (by rw [ht]; exact hx)
    | outOfFuel =>
      rw [ht] at hx
      cases hx

end Reached

end Machine

/-- A run of a source executes its statements, or nothing. -/
theorem Session.reached_of_run {clock : Clock} {limit : Option Nat} {s s' : Session} {source : String}
    {fuel : Nat} {outcome : Outcome} (h : s.machine.Reached clock limit)
    (hrun : s.run fuel source = some (outcome, s')) : s'.machine.Reached clock limit := by
  by_cases ha : (Attempt.mk s source).Accepted
  · exact h.interpret _ fuel (machine_of_run ha hrun).1
  · rw [(run_of_not_accepted ha hrun).1]
    exact h

/-- Whatever one interpreter executes, from its first statement up to any moment of the statement at hand
and on to the end of what that moment started, the store goes through changes that each leave alone what was
fixed and keep the links leading back. -/
theorem heap_stays_linked {clock : Clock} {limit : Option Nat} {m : Machine ν} (hm : m.Reached clock limit)
    (d : Distances ν) (t : Stmt ν) {M : Moment ν} (hv : Visits d (.exec t, m) M) :
    (Machine.initial clock limit).store.Unfolds m.store ∧ m.store.Unfolds M.2.store ∧ M.2.Sound ∧
      ∀ n m', M.1.leaves d n M.2 = some m' → M.2.store.Unfolds m'.store ∧ m'.Sound := by
  have hinit := Machine.initial_sound (ν := ν) clock limit
  have hadv := hm.advances
  have hsound := hadv.sound hinit
  have hfollows := hv.follows ⟨trivial, hsound⟩
  refine ⟨hadv.store.unfolds hinit.store, hfollows.store.unfolds hsound.store, hfollows.sound.machine, ?_⟩
  intro n m' hl
  have hlast := hfollows.sound.advances hl
  exact ⟨hlast.store.unfolds hfollows.sound.machine.store, hlast.sound hfollows.sound.machine⟩

/-- A class that inherits from an older class of its own name, and an object that keeps a bound method. -/
def aliased : Option (Outcome × Session) :=
  (Session.fresh ⟨fun _ => 0, 0⟩).run 20
    "class A { f() { } } var B = A; class A < B { g() { } } var o = A(); o.h = o.f;"

/-- A property that the object does not have. -/
def absent : Expr NodeId := .get (.variable 0 (.ident "o" 1)) (.ident "missing" 1)

theorem aliased_stays_linked :
    ∃ s, aliased = some (.ok, s) ∧ s.machine.Reached ⟨fun _ => 0, 0⟩ none ∧
      (s.machine.store.classes.toList.map fun c => (c.name, c.superclass)) = [("A", none), ("A", some 0)] ∧
      (s.machine.store.objects.toList.map fun o => (o.classId, o.fields.names)) = [(1, ["h"])] ∧
      Visits (fun _ => none) (.exec (.expression absent), s.machine) (.eval absent, s.machine) ∧
      ∃ e m, Exec.eval (fun _ => none) 20 absent s.machine = .failed e m ∧
        s.machine.store.Unfolds m.store := by
  have hrun : (aliased.map fun p => (p.1, p.2.machine.store.classes.toList.map fun c => (c.name, c.superclass))) =
      some (.ok, [("A", none), ("A", some 0)]) := by
    decide +kernel
  have hlast : (aliased.map fun p => (p.2.machine.store.objects.toList.map fun o => (o.classId, o.fields.names),
      match Exec.eval (fun _ => none) 20 absent p.2.machine with
      | .failed _ _ => true
      | _ => false)) = some ([(1, ["h"])], true) := by
    decide +kernel
  obtain ⟨⟨outcome, s⟩, hs, heq⟩ := Option.map_eq_some_iff.1 hrun
  obtain ⟨rfl, hclasses⟩ := Prod.mk.inj heq
  rw [hs] at hlast
  obtain ⟨hobjects, hfails⟩ := Prod.mk.inj (Option.some.inj hlast)
  have hreached : s.machine.Reached ⟨fun _ => 0, 0⟩ none := Session.reached_of_run .initial hs
  have hvisits : Visits (fun _ => none) (.exec (.expression absent), s.machine) (.eval absent, s.machine) :=
    .single .expression
  refine ⟨s, hs, hreached, hclasses, hobjects, hvisits, ?_⟩
  split at hfails
  · next e m hm =>
    have hends := (heap_stays_linked hreached _ _ hvisits).2.2.2 20 m (congrArg Result.machine? hm)
    exact ⟨e, m, hm, hends.1⟩
  · cases hfails

end Lox
