import Lox.Proofs.Execution.Failures
import Lox.Proofs.Session.History

/-!
# Frame and depth are put back

Whatever is run, and however it ends, the current frame and the call depth are afterwards what they
were before; in between the depth counts the open activations, and the run overflows exactly where they
reach the limit. Main statement: `runs_restore_frame_and_depth`, of any tree, any distances and any machine
within the limit of calls, with what follows for a session: between its runs it rests in the global frame at
depth 0.
-/

namespace Lox

/-- The second machine stands where the first one does. -/
def Machine.Restored (m m' : Machine ν) : Prop := m'.env = m.env ∧ m'.depth = m.depth

theorem Leads.restored {C : Code ν} {m m' : Machine ν} (h : Leads C m m') : m.Restored m' :=
  ⟨h.env, h.depth⟩

/-- A run of an accepted source leaves the session with the machine that its program leaves behind. -/
theorem Session.machine_of_run {s s' : Session} {source : String} {fuel : Nat} {outcome : Outcome}
    (ha : (Attempt.mk s source).Accepted) (hrun : s.run fuel source = some (outcome, s')) :
    (Exec.interpret (Attempt.mk s source).distances fuel (Attempt.mk s source).tree s.machine).machine?
        = some s'.machine ∧
      s' = { s.prepared source with machine := s'.machine, reports := s'.reports } := by
  rw [run_of_accepted ha] at hrun
  split at hrun <;> cases hrun <;> rename_i hr <;> exact ⟨congrArg Result.machine? hr, rfl⟩

/-- A run leads the machine on by the code of its program, whatever its outcome. -/
theorem Session.leads_of_run {C : Code NodeId} {s s' : Session} {source : String} {fuel : Nat}
    {outcome : Outcome} (hs : s.machine.store.Holds C)
    (ht : (Attempt.mk s source).Accepted → ∀ t ∈ (Attempt.mk s source).tree, C.stmt t)
    (hrun : s.run fuel source = some (outcome, s')) : Leads C s.machine s'.machine := by
  by_cases ha : (Attempt.mk s source).Accepted
  · have hkeeps := Exec.keeps_interpret C (Attempt.mk s source).distances fuel (ht ha) s.machine
    exact hkeeps hs _ (Session.machine_of_run ha hrun).1
  · rw [(Session.run_of_not_accepted ha hrun).1]
    exact .refl

/-- The store of a session is made of the code of its programs. -/
theorem Session.History.holds {C : Code NodeId} {clock : Clock} {limit : Option Nat} {rs : List Attempt}
    {s : Session} (h : Session.History clock limit rs s)
    (hC : ∀ r ∈ rs, r.Accepted → ∀ t ∈ r.tree, C.stmt t) : s.machine.store.Holds C := by
  induction h with
  | fresh => exact ⟨by simp [Session.fresh, Machine.initial], by simp [Session.fresh, Machine.initial]⟩
  | run _ hrun ih =>
    have hs := ih fun r hr => hC r (List.mem_cons_of_mem _ hr)
    exact (Session.leads_of_run hs (hC _ List.mem_cons_self) hrun).store.holds hs

/-- Every moment of a run runs code of the session, and finds the store that such code has led on. -/
theorem Attempt.Visits.runsCode {C : Code NodeId} {r : Attempt} {M : Moment NodeId} (hv : r.Visits M)
    (hC : r.Accepted → ∀ t ∈ r.tree, C.stmt t) (hs : r.session.machine.store.Holds C) :
    C.task M.1 ∧ Changes C r.session.machine.store M.2.store := by
  obtain ⟨ha, S, hS, hM⟩ := hv
  obtain ⟨htask, hstart⟩ := hS.runsCode (hC ha) hs
  obtain ⟨htask', hsince⟩ := hM.runsCode htask (hstart.holds hs)
  exact ⟨htask', hstart.trans hsince⟩

theorem Session.History.atRest {clock : Clock} {limit : Option Nat} {rs : List Attempt} {s : Session}
    (h : Session.History clock limit rs s) : s.machine.env = globalFrame ∧ s.machine.depth = 0 := by
  induction h with
  | fresh => exact ⟨rfl, rfl⟩
  | run _ hrun ih =>
    obtain ⟨henv, hdepth⟩ := (Session.leads_of_run (Store.holds_all _) (fun _ _ _ => trivial) hrun).restored
    exact ⟨henv.trans ih.1, hdepth.trans ih.2⟩

/-- What is started at a moment puts frame and depth back however it ends, alone or in a frame of its
own; the depth of every moment on the way counts the open activations and keeps the limit; a call
overflows exactly if only the limit forbids it; and a session is at rest between its runs.

The moments on the way are those of the run itself: it ends only when all of them have ended and put frame and
depth back, it fails exactly with the errors that one of them raises, and so it overflows exactly if one of
them is a call that the activations open there leave no room for. -/
theorem runs_restore_frame_and_depth (d : Distances ν) (M : Moment ν) (hM : M.2.depth ≤ maxCallDepth) :
    (∀ n m', M.1.leaves d n M.2 = some m' → M.2.Restored m') ∧
    (∀ n frame body m', (Exec.inFrame frame (Exec.execAll d n body) M.2).machine? = some m' →
      M.2.Restored m') ∧
    (∀ M', Visits d M M' ↔ ∃ k, Nested d M k M') ∧
    (∀ k M', Nested d M k M' → M'.2.depth = M.2.depth + k ∧ M'.2.depth ≤ maxCallDepth) ∧
    (∀ n paren callee args,
      Exec.invoke d (n + 1) paren callee args M.2 = .failed ⟨paren, .stackOverflow⟩ M.2 ↔
        ∃ f, Callable.of? M.2.store callee = some f ∧ args.length = f.arity ∧
          M.2.depth = maxCallDepth) ∧
    (∀ m', M.Ends d m' → ∀ k M', Nested d M k M' → ∃ m'', M'.Ends d m'' ∧ M'.2.Restored m'') ∧
    (∀ err, M.Fails d err ↔ ∃ k b M', Nested d M k M' ∧ Raises d b err M') ∧
    (∀ paren, M.Fails d ⟨paren, .stackOverflow⟩ ↔
      ∃ k callee args m f, Nested d M k (.invoke paren callee args, m) ∧
        Callable.of? m.store callee = some f ∧ args.length = f.arity ∧ M.2.depth + k = maxCallDepth) ∧
    ∀ clock limit rs s, Session.History clock limit rs s →
      s.machine.env = globalFrame ∧ s.machine.depth = 0 := by
  have hrestored : ∀ (M : Moment ν) m', M.Ends d m' → M.2.Restored m' := by
    rintro M m' ⟨n, h⟩
    exact (leads_of_leaves (Code.task_all M.1) (Store.holds_all _) h).restored
  refine ⟨?_, ?_, ?_, ?_, ?_, ?_, ?_, ?_, ?_⟩
  · exact fun n m' h => hrestored M m' ⟨n, h⟩
  · intro n frame body m' h
    have hbody := (Exec.keptRuns (.all ν) d n).execAll body { M.2 with env := frame } fun _ _ => trivial
    exact (hbody.inFrame (Store.holds_all _) m' h).restored
  · exact fun M' => visits_iff_nested
  · exact fun k M' h => h.depth hM
  · exact fun n paren callee args => Exec.invoke_overflows_iff hM paren callee args
  · intro m' hends k M' hk
    have hv : Visits d M M' := visits_iff_nested.2 ⟨k, hk⟩
    obtain ⟨m'', h, _⟩ := hv.ends (Code.task_all M.1) (Store.holds_all _) hends
    exact ⟨m'', h, hrestored M' m'' h⟩
  · exact fun err => fails_iff_nested
  · exact overflows_iff hM
  · exact fun clock limit rs s h => h.atRest

/-- A machine with as many open calls as there may be. -/
def fullMachine : Machine NodeId := { Machine.initial ⟨fun _ => 0, 0⟩ with depth := maxCallDepth }

theorem fullMachine_overflows :
    fullMachine.depth ≤ maxCallDepth ∧
      Exec.invoke (fun _ => none) 1 ⟨.symbol .rightParen, ")", 1⟩ (.native .clock) [] fullMachine =
        .failed ⟨⟨.symbol .rightParen, ")", 1⟩, .stackOverflow⟩ fullMachine ∧
      Moment.Fails (fun _ => none) (.invoke ⟨.symbol .rightParen, ")", 1⟩ (.native .clock) [], fullMachine)
        ⟨⟨.symbol .rightParen, ")", 1⟩, .stackOverflow⟩ := by
  have hlimit : fullMachine.depth ≤ maxCallDepth := Nat.le_refl _
  obtain ⟨-, -, -, -, hcall, -, -, hoverflows, -⟩ := runs_restore_frame_and_depth (fun _ => none)
    (.invoke ⟨.symbol .rightParen, ")", 1⟩ (.native .clock) [], fullMachine) hlimit
  exact ⟨hlimit, (hcall 0 _ _ _).2 ⟨.native .clock, rfl, rfl, rfl⟩,
    (hoverflows _).2 ⟨0, _, _, _, .native .clock, .here, rfl, rfl, rfl⟩⟩

end Lox
