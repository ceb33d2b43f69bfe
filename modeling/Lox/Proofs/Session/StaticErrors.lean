import Lox.Proofs.Session.Steps

/-!
# Static errors leave no trace

A source that ends with a static error has moved on the identities of nodes and may have recorded
distances, for its own nodes only. None of this shows afterwards: the machine is as it was, and without
the source the session would go on in the same way. Main statement: `static_errors_leave_no_trace`.
-/

namespace Lox

namespace Session

variable {clock : Clock} {limit : Option Nat} {rs : List Attempt} {s s' : Session} {x : Step}

/-- The machine after a static error is the one before, and so is the view. -/
theorem Takes.static (h : Takes id s x s') (hx : x.outcome = .staticError) (hs : History clock limit rs s) :
    s'.machine = s.machine ∧ s'.view id = s.view id := by
  obtain ⟨n, hn⟩ := h.run
  have ha := (outcome_eq_static hn).1 hx
  exact ⟨(run_of_not_accepted ha hn).1, hs.view_refused id ha hn⟩

/-- After a static error the session shows the steps that it would have shown before. -/
theorem Takes.shows_iff (h : Takes id s x s') (hx : x.outcome = .staticError)
    (hs : History clock limit rs s) (later : List Step) : s'.Shows id later ↔ s.Shows id later :=
  shows_congr (h.history hs) hs (h.static hx hs).2 later

end Session

open Session

/-- In a list of sources that is run in one session, a source that ends with a static error can be left
out: the steps before and after it are seen with it exactly as without it. It prints nothing and leaves
the machine as it was, and whatever it has recorded shows in no later run. -/
theorem static_errors_leave_no_trace (clock : Clock) (limit : Option Nat) (before : List Step) (failed : Step)
    (hfailed : failed.outcome = .staticError)
    (hshown : (Session.fresh clock limit).Shows id (before ++ [failed])) :
    (∀ after, (Session.fresh clock limit).Shows id (before ++ failed :: after) ↔
      (Session.fresh clock limit).Shows id (before ++ after)) ∧
    failed.printed = .empty ∧
    ∃ s s', Passes id (.fresh clock limit) before s ∧ Takes id s failed s' ∧ s'.machine = s.machine ∧
      ∀ later, s'.Shows id later ↔ s.Shows id later := by
  obtain ⟨s, hbefore, hone⟩ := shows_append.1 hshown
  obtain ⟨s', htakes, -⟩ := shows_cons.1 hone
  obtain ⟨rs, hs⟩ := hbefore.history .fresh
  have hmachine := (htakes.static hfailed hs).1
  have hlater := htakes.shows_iff hfailed hs
  refine ⟨fun after => ?_, ?_, s, s', hbefore, htakes, hmachine, hlater⟩
  · -- the session before the static error is the same in both lists
    have hfrom : ∀ xs, (Session.fresh clock limit).Shows id (before ++ xs) ↔ s.Shows id xs := by
      intro xs
      rw [shows_append]
      constructor
      · rintro ⟨t, ht, hxs⟩
        rwa [hbefore.unique ht]
      · exact fun hxs => ⟨s, hbefore, hxs⟩
    rw [hfrom, hfrom, shows_cons, ← hlater]
    constructor
    · rintro ⟨t, ht, hafter⟩
      rwa [htakes.unique ht]
    · exact fun hafter => ⟨s', htakes, hafter⟩
  · have hprinted : s.machine.output.written ++ failed.printed = s.machine.output.written ++ .empty := by
      rw [← htakes.printed, hmachine, ByteArray.append_empty]
    exact (ByteArray.append_right_inj _).1 hprinted

/-- A closure is made, which reads a local of the call that made it. -/
def closureMade : Step :=
  ⟨"fun f(a) { fun g() { print a; } return g; } var h = f(true);", .ok, .empty, {}⟩

/-- A local is read in its own initializer; distances are recorded all the same. -/
def ownInitializerRead : Step :=
  ⟨"{ var a = a; print a; }", .staticError, .empty,
    ⟨[.scoping ⟨.symbol .identifier, "a", 1⟩ "Can't read local variable in its own initializer."], false⟩⟩

/-- The closure still reads its own local. -/
def closureCalled : Step := ⟨"h();", .ok, "true\n".toUTF8, {}⟩

theorem closure_survives_static_error :
    ownInitializerRead.outcome = .staticError ∧
      (Session.fresh ⟨fun _ => 0, 0⟩).Shows id ([closureMade] ++ [ownInitializerRead]) ∧
      (Session.fresh ⟨fun _ => 0, 0⟩).Shows id ([closureMade] ++ ownInitializerRead :: [closureCalled]) := by
  have hfailed : (Session.fresh ⟨fun _ => 0, 0⟩).Shows id ([closureMade] ++ [ownInitializerRead]) :=
    shows_of_transcript 20 [closureMade.source, ownInitializerRead.source] (by decide +kernel)
  have hwithout : (Session.fresh ⟨fun _ => 0, 0⟩).Shows id ([closureMade] ++ [closureCalled]) :=
    shows_of_transcript 20 [closureMade.source, closureCalled.source] (by decide +kernel)
  exact ⟨rfl, hfailed, ((static_errors_leave_no_trace _ _ _ _ rfl hfailed).1 _).2 hwithout⟩

end Lox
