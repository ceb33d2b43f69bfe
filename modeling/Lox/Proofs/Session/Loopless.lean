import Mathlib.Logic.ExistsUnique
import Lox.Proofs.Execution.Termination
import Lox.Proofs.Session.History
import Lox.Proofs.Token.Pieces

/-!
# Runs of programs without loops

A fresh machine holds no function, so the functions that a program can call are its own, and if it has
no loop then none of them has one. Whether it has one is seen from the words of its source. Main
statement: `loopless_programs_finish`.
-/

namespace Lox

theorem Machine.initial_holds (C : Code ν) (clock : Clock) (limit : Option Nat) :
    (Machine.initial clock limit : Machine ν).store.Holds C where
  functions i f h := by simp [Machine.initial] at h
  methods i c h := by simp [Machine.initial] at h

/-- The first machine a tree without loops is run on: some result is reached with enough fuel, and
there is only one. -/
theorem Exec.exists_unique_result (clock : Clock) (limit : Option Nat) (d : Distances ν)
    {tree : List (Stmt ν)} (h : Stmt.looplessAll tree = true) :
    ∃! r, r ≠ .outOfFuel ∧ ∃ n, ∀ fuel, n ≤ fuel → interpret d fuel tree (.initial clock limit) = r := by
  obtain ⟨r, hr, n, hn⟩ := interpret_finishes d h (Machine.initial_holds _ clock limit)
  refine ⟨r, ⟨hr, n, hn⟩, ?_⟩
  rintro r' ⟨_, n', hn'⟩
  exact (hn' _ (Nat.le_max_right n n')).symm.trans (hn _ (Nat.le_max_left n n'))

namespace Attempt

variable {r : Attempt}

/-- The words of a source show whether its program has a loop. -/
theorem loopless_iff (hscan : Scan.reports r.source = []) (hparse : r.parsed.reports = []) :
    Stmt.looplessAll r.tree = true ↔ ∀ t ∈ Scan.tokens r.source, t.opensLoop = false := by
  obtain ⟨body, last, htokens, hbody, _⟩ := Scan.tokens_pieces hscan
  have hup : Parser.upToEnd (Scan.tokens r.source) = body := by
    rw [htokens, Parser.upToEnd_closed hbody]
  have hend : (Token.endAt last).opensLoop = false := rfl
  have hprogram := (Parser.program_sound hparse).1
  rw [hup] at hprogram
  rw [tree, parsed, hprogram.loopless, htokens]
  simp [or_imp, forall_and, hend]

end Attempt

namespace Session

/-- A run without loops reaches its end: it falls off the last statement, or stops at an error. -/
theorem run_finishes {s : Session} {source : String} (ha : (Attempt.mk s source).Accepted)
    (h : Exec.Finishes (Exec.interpret (Attempt.mk s source).distances · (Attempt.mk s source).tree)
      s.machine) :
    ∃ outcome s', (outcome = .ok ∨ outcome = .runtimeError) ∧
      ∃ n, ∀ fuel, n ≤ fuel → s.run fuel source = some (outcome, s') := by
  obtain ⟨r, hr, n, hn⟩ := h
  cases r with
  | done u m =>
    refine ⟨.ok, { s.prepared source with machine := m }, .inl rfl, n, fun fuel hfuel => ?_⟩
    have hend := hn fuel hfuel
    simp only at hend
    rw [run_of_accepted ha, hend]
  | failed e m =>
    let reports := Reports.empty.addRuntimeError e.blamed e.cause.message
    refine ⟨.runtimeError, { s.prepared source with machine := m, reports }, .inr rfl, n, fun fuel hfuel => ?_⟩
    have hend := hn fuel hfuel
    simp only at hend
    rw [run_of_accepted ha, hend]
  | outOfFuel => exact absurd rfl hr

end Session

/-- Programs without loops always finish. On a fresh machine the evaluator is a total function of the
trees without loops, whatever their distances. A source that is accepted has such a tree exactly if
neither `while` nor `for` is among its tokens, and its run in a fresh session then ends with success or
with a runtime error. -/
theorem loopless_programs_finish (clock : Clock) (limit : Option Nat) :
    (∀ (d : Distances NodeId) (tree : List (Stmt NodeId)), Stmt.looplessAll tree = true →
      ∃! r, r ≠ .outOfFuel ∧
        ∃ n, ∀ fuel, n ≤ fuel → Exec.interpret d fuel tree (.initial clock limit) = r) ∧
    ∀ source, (Attempt.mk (.fresh clock limit) source).Accepted →
      (Stmt.looplessAll (Attempt.mk (.fresh clock limit) source).tree = true ↔
        ∀ t ∈ Scan.tokens source, t.is .whileKw = false ∧ t.is .forKw = false) ∧
      (Stmt.looplessAll (Attempt.mk (.fresh clock limit) source).tree = true →
        ∃ outcome s', (outcome = .ok ∨ outcome = .runtimeError) ∧
          ∃ n, ∀ fuel, n ≤ fuel → (Session.fresh clock limit).run fuel source = some (outcome, s')) := by
  refine ⟨fun d tree h => Exec.exists_unique_result clock limit d h, fun source ha => ⟨?_, fun h => ?_⟩⟩
  · rw [Attempt.loopless_iff ha.scanned ha.parsed]
    simp [Token.opensLoop]
  · exact Session.run_finishes ha (Exec.interpret_finishes _ h (Machine.initial_holds _ clock limit))

/-- A function, a method and the method it overrides call one another without end. -/
def callsWithoutEnd : String :=
  "class A{f(g){g(this);}} class B<A{f(g){super.f(g);}} fun h(b){b.f(h);} h(B());"

theorem callsWithoutEnd_finishes :
    (Attempt.mk (.fresh ⟨fun _ => 0, 0⟩) callsWithoutEnd).Accepted ∧
      (∀ t ∈ Scan.tokens callsWithoutEnd, t.is .whileKw = false ∧ t.is .forKw = false) ∧
      ∃ outcome s', (outcome = .ok ∨ outcome = .runtimeError) ∧
        ∃ n, ∀ fuel, n ≤ fuel →
          (Session.fresh ⟨fun _ => 0, 0⟩).run fuel callsWithoutEnd = some (outcome, s') := by
  have ha : (Attempt.mk (.fresh ⟨fun _ => 0, 0⟩) callsWithoutEnd).Accepted :=
    ⟨by decide +kernel, by decide +kernel, by decide +kernel⟩
  have hwords : ∀ t ∈ Scan.tokens callsWithoutEnd, t.is .whileKw = false ∧ t.is .forKw = false := by
    decide +kernel
  obtain ⟨hiff, hfinishes⟩ := (loopless_programs_finish ⟨fun _ => 0, 0⟩ none).2 callsWithoutEnd ha
  exact ⟨ha, hwords, hfinishes (hiff.2 hwords)⟩

end Lox
