import Lox.Proofs.Execution.Fuel
import Lox.Proofs.Execution.Renaming
import Lox.Proofs.Parser.Renaming
import Lox.Proofs.Scoping.Indexing
import Lox.Proofs.Scoping.Renaming
import Lox.Proofs.Session.Restoration
import Lox.Proofs.Session.Steady
import Lox.Proofs.Token.Pieces

/-!
# What shows of a session

The identities of nodes and the table of distances are the session's own affair. What its later runs
depend on is its view: the machine with every mark replaced by the distance recorded for it. A source
makes the same program in every session (`Attempt.code_eq`), recording distances leaves the view alone
(`Session.History.view_recorded`), and so two sessions with one view show the same runs
(`Session.shows_congr`). A view may look away from lines: `g` says what is left of them.
-/

namespace Lox

/-! ## A source in two sessions -/

namespace Attempt

variable (g : Nat → Nat) (s s' : Session) (source : String)

/-- Where the identities start shows in the marks only. -/
theorem parsed_eq : (Attempt.mk s source).parsed =
    ⟨Stmt.renameAll (.shift s.nextId id) (Parser.program 0 (Scan.tokens source)).tree,
      (Parser.program 0 (Scan.tokens source)).reports,
      s.nextId + (Parser.program 0 (Scan.tokens source)).nextId⟩ := by
  have h := Parser.program_renamed s.nextId id 0 (Scan.tokens_ne_nil source)
  simp only [Token.moved_id, Report.moved_id, List.map_id_fun'] at h
  exact h

theorem parsed_reports_eq : (Attempt.mk s source).parsed.reports = (Attempt.mk s' source).parsed.reports := by
  rw [parsed_eq, parsed_eq]

/-- The shape of the program depends on the source only. -/
theorem shape_eq : Stmt.renameAll (.shape g) (Attempt.mk s source).tree =
    Stmt.renameAll (.shape g) (Attempt.mk s' source).tree := by
  rw [tree, tree, parsed_eq, parsed_eq, Stmt.renameAll_renameAll, Stmt.renameAll_renameAll]
  rfl

theorem resolved_reports_eq : (Attempt.mk s source).resolved.2 = (Attempt.mk s' source).resolved.2 := by
  have h := resolve_reports_of_shape s.bindings s'.bindings (shape_eq id s s' source)
  simp only [Report.moved_id, List.map_id_fun'] at h
  exact h

variable {s} {source} in
/-- Whether a source is accepted does not depend on the session. -/
theorem Accepted.elsewhere (h : (Attempt.mk s source).Accepted) : (Attempt.mk s' source).Accepted :=
  ⟨h.scanned, (parsed_reports_eq s' s source).trans h.parsed, (resolved_reports_eq s' s source).trans h.resolved⟩

/-- The program with distances for marks. -/
def code (r : Attempt) : List (Stmt (Option Nat)) := Stmt.renameAll ⟨r.distances, g⟩ r.tree

end Attempt

/-! ## Views -/

namespace Session

variable {clock clock' : Clock} {limit limit' : Option Nat} {rs rs' : List Attempt} {s s' : Session}
  {source : String} {fuel : Nat} {outcome : Outcome} (g : Nat → Nat)

/-- The machine with distances for marks. -/
def view (s : Session) : Machine (Option Nat) := s.machine.rename ⟨s.bindings.find?, g⟩

/-- A run leaves the older distances alone, whatever its outcome. -/
theorem older_kept (hrun : s.run fuel source = some (outcome, s')) {k : NodeId} (hk : k < s.nextId) :
    s'.bindings.find? k = s.bindings.find? k := by
  rw [(run_records hrun).2]
  split
  · rename_i hnone
    exact Steady.distance_eq (List.append_eq_nil_iff.1 hnone).2 (.inl hk)
  · rfl

/-- The marks on the machine were all given out. -/
theorem History.marked (h : History clock limit rs s) :
    s.machine.store.Holds (.marked (· < s.nextId)) := by
  induction h with
  | fresh => exact ⟨by simp [Session.fresh, Machine.initial], by simp [Session.fresh, Machine.initial]⟩
  | @run rs s s' source fuel outcome hist hrun ih =>
    have hi := (run_records hrun).1
    have hle : s.nextId ≤ s'.nextId := by
      rw [hi]
      exact Parser.nextId_le_program _ _
    have hold := ih.weaken fun k hk => Nat.lt_of_lt_of_le hk hle
    refine (leads_of_run hold ?_ hrun).store.holds hold
    intro ha t ht k hk
    rw [hi]
    exact ((Attempt.fresh ha.parsed).range k (Stmt.mem_marksAll.2 ⟨t, ht, hk⟩)).2

/-- Distances that agree with those of the session give its view. -/
theorem History.view_eq (h : History clock limit rs s) {d : NodeId → Option Nat}
    (hd : ∀ k < s.nextId, d k = s.bindings.find? k) : s.machine.rename ⟨d, g⟩ = s.view g := by
  unfold view Machine.rename
  rw [Store.rename_congr g h.marked hd]

/-- Recording the distances of a program leaves the view alone. -/
theorem History.view_recorded (h : History clock limit rs s)
    (hp : (Attempt.mk s source).parsed.reports = []) :
    s.machine.rename ⟨(Attempt.mk s source).distances, g⟩ = s.view g :=
  h.view_eq g fun _ hk => Steady.distance_eq hp (.inl hk)

/-- A source that is not accepted leaves the view alone. -/
theorem History.view_refused (h : History clock limit rs s) (ha : ¬ (Attempt.mk s source).Accepted)
    (hrun : s.run fuel source = some (outcome, s')) : s'.view g = s.view g := by
  have hmachine := (run_of_not_accepted ha hrun).1
  rw [view, hmachine]
  exact h.view_eq g fun _ hk => older_kept hrun hk

/-- A source has one program, whatever the session. -/
theorem History.code_eq (h : History clock limit rs s) (h' : History clock' limit' rs' s')
    (ha : (Attempt.mk s source).Accepted) :
    (Attempt.mk s source).code g = (Attempt.mk s' source).code g :=
  Stmt.renameAll_eq_of_shape (Attempt.shape_eq g s s' source)
    (Attempt.keepsRules ha (steady_of_history h).unbound)
    (Attempt.keepsRules (ha.elsewhere s') (steady_of_history h').unbound)

/-! ## What shows of a run -/

/-- The outcome, the view and the reports after a run. -/
def shown (p : Outcome × Session) : Outcome × Machine (Option Nat) × Reports :=
  (p.1, p.2.view g, p.2.reports.moved g)

/-- A run of which the same shows as of another one. -/
theorem exists_of_shown {k : Nat} {source' : String} {t : Session}
    (h : (s.run fuel source).map (shown g) = (s'.run k source').map (shown g))
    (hrun : s.run fuel source = some (outcome, t)) :
    ∃ t', s'.run k source' = some (outcome, t') ∧ t'.view g = t.view g ∧
      t'.reports.moved g = t.reports.moved g := by
  rw [hrun, Option.map_some, eq_comm, Option.map_eq_some_iff] at h
  obtain ⟨⟨outcome', t'⟩, hrun', hshown⟩ := h
  simp only [shown, Prod.mk.injEq] at hshown
  obtain ⟨rfl, hview, hreports⟩ := hshown
  exact ⟨t', hrun', hview, hreports⟩

theorem written_of_view {g : Nat → Nat} (h : s.view g = s'.view g) :
    s.machine.output.written = s'.machine.output.written :=
  congrArg (·.output.written) h

/-- What shows of a run that ends so. -/
def concluded : Result (Option Nat) Unit → Option (Outcome × Machine (Option Nat) × Reports)
  | .done _ m => some (.ok, m, .empty)
  | .failed e m => some (.runtimeError, m, Reports.empty.addRuntimeError e.blamed e.cause.message)
  | .outOfFuel => none

/-- An accepted source shows what its program does to the view. -/
theorem History.run_shown (h : History clock limit rs s) (ha : (Attempt.mk s source).Accepted) (fuel : Nat) :
    (s.run fuel source).map (shown g) =
      concluded (Exec.interpret id fuel ((Attempt.mk s source).code g) (s.view g)) := by
  have hrun := Exec.interpret_distances (Attempt.mk s source).distances g fuel (Attempt.mk s source).tree s.machine
  rw [h.view_recorded g ha.parsed] at hrun
  rw [run_of_accepted ha, Attempt.code, hrun]
  cases Exec.interpret (Attempt.mk s source).distances fuel (Attempt.mk s source).tree s.machine with
  | done a m => rfl
  | failed e m => rfl
  | outOfFuel => rfl

/-- Two sessions with one view show the same of a run. -/
theorem History.run_congr (h : History clock limit rs s) (h' : History clock' limit' rs' s')
    (hview : s.view g = s'.view g) (fuel : Nat) (source : String) :
    (s.run fuel source).map (shown g) = (s'.run fuel source).map (shown g) := by
  by_cases ha : (Attempt.mk s source).Accepted
  · have ha' : (Attempt.mk s' source).Accepted := ha.elsewhere s'
    rw [h.run_shown g ha, h'.run_shown g ha', h.code_eq g h' ha, hview]
  · have ha' : ¬ (Attempt.mk s' source).Accepted := fun h => ha (h.elsewhere s)
    have hrun := run_of_refused ha fuel
    have hrun' := run_of_refused ha' fuel
    have hreports : (s.refused source).reports = (s'.refused source).reports := by
      unfold refused
      have hparsed : (Attempt.mk s source).parsed.reports = (Attempt.mk s' source).parsed.reports :=
        Attempt.parsed_reports_eq s s' source
      have hresolved : (Attempt.mk s source).resolved.2 = (Attempt.mk s' source).resolved.2 :=
        Attempt.resolved_reports_eq s s' source
      simp only [hparsed, hresolved]
      split <;> rfl
    simp only [hrun, hrun', Option.map_some, shown, h.view_refused g ha hrun, h'.view_refused g ha' hrun',
      hview, hreports]

/-- More fuel gives the same result. -/
theorem run_more {p : Outcome × Session} {k : Nat} (h : fuel ≤ k) (hp : s.run fuel source = some p) :
    s.run k source = some p := by
  by_cases ha : (Attempt.mk s source).Accepted
  · have hne : Exec.interpret (Attempt.mk s source).distances fuel (Attempt.mk s source).tree s.machine ≠
        .outOfFuel := by
      intro hdry
      rw [run_of_accepted ha, hdry] at hp
      cases hp
    rw [run_of_accepted ha, Exec.interpret_more h hne, ← run_of_accepted ha, hp]
  · rw [run_of_refused ha] at hp ⊢
    exact hp

/-- The result of a run does not depend on the fuel. -/
theorem run_unique {p q : Outcome × Session} {k : Nat} (hp : s.run fuel source = some p)
    (hq : s.run k source = some q) : p = q := by
  have hp' := run_more (Nat.le_max_left fuel k) hp
  rw [run_more (Nat.le_max_right fuel k) hq] at hp'
  exact (Option.some.inj hp').symm

end Session

end Lox
