import Lox.Proofs.Lexical.Programs
import Lox.Proofs.Session.History

/-!
# Distances implement lexical scope

An accepted source, run in a fresh session, does what the evaluator with names and cells does with
its tree. The evaluator knows neither the resolver nor a distance. With the same fuel either both are
still running, or both have finished and show the same.
-/

namespace Lox

open Lexical

/-- A run of a session and a run of the evaluator show the same: the outcome, the output, and the
error if there is one. Only the text of an error about an uninitialised variable may differ. -/
inductive SameEnd : Option (Outcome × Session) → Lexical.Result NodeId Unit → Prop
  | unfinished : SameEnd none .outOfFuel
  | ok {s : Session} {st : State NodeId} : s.machine.output = st.output → s.reports = .empty →
      SameEnd (some (.ok, s)) (.done () st)
  | error {s : Session} {st : State NodeId} {e : Error} {message : String} :
      s.machine.output = st.output → s.reports = Reports.empty.addRuntimeError e.blamed message →
      (message = e.cause.message ∨ ∃ x, e.cause = .uninitialised x) →
      SameEnd (some (.runtimeError, s)) (.failed e st)

theorem message_onMachine (cause : Lexical.Fault) :
    cause.onMachine.message = cause.message ∨ ∃ x, cause = .uninitialised x := by
  cases cause with
  | runtime cause => exact .inl rfl
  | uninitialised x => exact .inr ⟨x, rfl⟩

/-- A fresh session runs an accepted source as its text is scoped. -/
theorem fresh_run_is_lexical (clock : Clock) (limit : Option Nat) (source : String)
    (ha : (Attempt.mk (.fresh clock limit) source).Accepted) (fuel : Nat) :
    SameEnd ((Session.fresh clock limit).run fuel source)
      (Run.interpret fuel (Attempt.mk (.fresh clock limit) source).tree (.initial clock limit)) := by
  have hs := Attempt.keepsRules ha fun k _ => Bindings.find?_empty k
  have hm : Mirrors (·.Resolved (Attempt.mk (.fresh clock limit) source).distances) (fun _ _ => True)
      (fun _ _ => none) (Machine.initial clock limit) (State.initial clock limit) :=
    .initial clock limit
  have hagree := interpret_agrees (n := fuel) (fun _ hp => hp) _ hm (Here.top hm rfl rfl rfl) hs
    fun _ _ _ _ _ _ _ => trivial
  rw [Session.run_of_accepted ha]
  have hmachine : (Session.fresh clock limit).machine = Machine.initial clock limit := rfl
  rw [hmachine]
  generalize Exec.interpret (Attempt.mk (.fresh clock limit) source).distances fuel
    (Attempt.mk (.fresh clock limit) source).tree (Machine.initial clock limit) = x at hagree
  generalize Run.interpret fuel (Attempt.mk (.fresh clock limit) source).tree
    (State.initial clock limit) = y at hagree
  cases hagree with
  | done hend =>
    obtain ⟨_, σ', hm'⟩ := hend
    exact .ok hm'.output.symm rfl
  | failed e hend =>
    obtain ⟨_, σ', hm'⟩ := hend
    exact .error hm'.output.symm rfl (message_onMachine e.cause)
  | outOfFuel => exact .unfinished

/-- A closure that prints a variable of the block around it. -/
def closureRead : Attempt := ⟨.fresh ⟨fun _ => 0, 0⟩, "{ var a; fun f() { print a; } f(); }"⟩

theorem closureRead_is_lexical :
    (closureRead.session.run 20 closureRead.source).map Prod.fst = some .ok ∧
      SameEnd (closureRead.session.run 20 closureRead.source)
        (Run.interpret 20 closureRead.tree (.initial ⟨fun _ => 0, 0⟩)) := by
  have ha : closureRead.Accepted := ⟨by decide +kernel, by decide +kernel, by decide +kernel⟩
  exact ⟨by decide +kernel, fresh_run_is_lexical _ none _ ha 20⟩

end Lox
