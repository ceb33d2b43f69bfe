import Lox.Proofs.Execution.Calls
import Lox.Proofs.Parser.Exact
import Lox.Proofs.Scoping.Coverage
import Lox.Proofs.Scoping.Resolution
import Lox.Session

/-!
# The history of a session

A session is what its runs have made of it. A run of a source goes through moments, if the source is
accepted; a history lists the runs so far, and with them the places of all programs that were run and
the scopes that frames were made for.
-/

namespace Lox

/-- A source and the session that it is run in. -/
structure Attempt where
  session : Session
  source  : String

namespace Attempt

def parsed (r : Attempt) : Parser.Result (List (Stmt NodeId)) :=
  Parser.program r.session.nextId (Scan.tokens r.source)

def tree (r : Attempt) : List (Stmt NodeId) := r.parsed.tree

def resolved (r : Attempt) : Bindings × List Report := Resolve.program r.session.bindings r.tree

/-- The distances that the program is run with. -/
def distances (r : Attempt) : Distances NodeId := r.resolved.1.find?

/-- No stage before the run reports anything. -/
structure Accepted (r : Attempt) : Prop where
  scanned  : Scan.reports r.source = []
  parsed   : r.parsed.reports = []
  resolved : r.resolved.2 = []

/-- The program is run, and comes to a moment. -/
def Visits (r : Attempt) (M : Moment NodeId) : Prop :=
  r.Accepted ∧ ∃ S, Starts r.distances r.tree r.session.machine S ∧ Lox.Visits r.distances S M

/-! ## Before the run -/

variable {r : Attempt}

theorem formed (h : r.parsed.reports = []) : Stmt.FormedAll r.tree := by
  refine Grammar.formed_of_program (Parser.program_sound h).1 ?_
  intro t ht
  exact Scan.tokens_spelled r.source ((List.takeWhile_sublist _).subset ht)

theorem fresh (h : r.parsed.reports = []) :
    Fresh r.session.nextId r.parsed.nextId (Stmt.marksAll r.tree) :=
  (Parser.program_sound h).2

/-- The distances of the program are those of its text, if its nodes are new to the session. -/
theorem settled (h : r.Accepted) (hb : ∀ k, r.session.nextId ≤ k → r.session.bindings.find? k = none) :
    Stmt.ScopedAll (·.Settled r.distances) [] r.tree := by
  have hf := fresh h.parsed
  exact settled_of_resolve (formed h.parsed) hf.nodup (fun k hk => hb k (hf.range k hk).1) h.resolved

/-- The program keeps the rules of scope. -/
theorem keepsRules (h : r.Accepted) (hb : ∀ k, r.session.nextId ≤ k → r.session.bindings.find? k = none) :
    Stmt.ScopedAll (·.Resolved r.distances) [] r.tree :=
  Stmt.scopedAll_of_places [] _ (settled h hb) fun _ _ hp => hp.1

theorem scan_reports (source : String) : ∀ x ∈ Scan.reports source, x.isStatic = true := by
  intro x hx
  obtain ⟨item, _, hitem⟩ := List.mem_filterMap.1 hx
  cases item with
  | token t => cases hitem
  | fault line cause =>
    obtain rfl := Option.some.inj hitem
    rfl

end Attempt

/-! ## Running -/

namespace Session

variable {s s' : Session} {source : String} {fuel : Nat} {outcome : Outcome}

/-- The session after the stages before the run, when none of them reports anything. -/
def prepared (s : Session) (source : String) : Session :=
  { s with nextId := (Attempt.mk s source).parsed.nextId
           bindings := (Attempt.mk s source).resolved.1
           reports := {} }

/-- How a run of an accepted source ends. -/
theorem run_of_accepted (h : (Attempt.mk s source).Accepted) :
    s.run fuel source =
      match Exec.interpret (Attempt.mk s source).distances fuel (Attempt.mk s source).tree s.machine with
      | .done _ machine => some (.ok, { s.prepared source with machine })
      | .failed e machine => some (.runtimeError, { s.prepared source with
          machine, reports := (Reports.empty).addRuntimeError e.blamed e.cause.message })
      | .outOfFuel => none := by
  have hp : (Parser.program s.nextId (Scan.tokens source)).reports = [] := h.parsed
  have hr : (Resolve.program s.bindings (Parser.program s.nextId (Scan.tokens source)).tree).2 = [] :=
    h.resolved
  unfold run
  simp only [h.scanned, hp, hr]
  rfl

/-- The session after a source that is not accepted. The machine is as it was; distances are recorded
if the program was parsed, though it is not run. -/
def refused (s : Session) (source : String) : Session :=
  let r := Attempt.mk s source
  if Scan.reports source ++ r.parsed.reports = [] then
    { s with nextId := r.parsed.nextId, bindings := r.resolved.1, reports := ⟨r.resolved.2, false⟩ }
  else
    { s with nextId := r.parsed.nextId, reports := ⟨Scan.reports source ++ r.parsed.reports, false⟩ }

/-- What becomes of a source that is not accepted. -/
theorem run_of_refused (h : ¬ (Attempt.mk s source).Accepted) (fuel : Nat) :
    s.run fuel source = some (.staticError, s.refused source) := by
  have hstatic : ∀ x ∈ Scan.reports source ++ (Attempt.mk s source).parsed.reports, x.isStatic = true := by
    intro x hx
    rcases List.mem_append.1 hx with hx | hx
    · exact Attempt.scan_reports source x hx
    · exact Parser.program_reports _ _ x hx
  have hfirst := Reports.hadError_eq_false (r := ⟨_, false⟩) hstatic
  unfold run refused
  by_cases hnone : Scan.reports source ++ (Attempt.mk s source).parsed.reports = []
  · obtain ⟨hs, hp⟩ := List.append_eq_nil_iff.1 hnone
    have hscoping := resolve_reports s.bindings (Attempt.formed (r := ⟨s, source⟩) hp)
    have hsecond : (Reports.mk (Attempt.mk s source).resolved.2 false).hadError = true := by
      rw [← Bool.not_eq_false, Reports.hadError_eq_false hscoping]
      exact fun hr => h ⟨hs, hp, hr⟩
    have hp' : (Parser.program s.nextId (Scan.tokens source)).reports = [] := hp
    rw [if_pos hnone]
    simp only [hs, hp']
    exact (if_neg Bool.false_ne_true).trans (if_pos hsecond)
  · have hfirst : (Reports.mk (Scan.reports source ++ (Attempt.mk s source).parsed.reports) false).hadError
        = true := by
      rw [← Bool.not_eq_false, hfirst]
      exact hnone
    rw [if_neg hnone]
    exact if_pos hfirst

/-- A run ends with a static error exactly if the source is not accepted. -/
theorem outcome_eq_static (hrun : s.run fuel source = some (outcome, s')) :
    outcome = .staticError ↔ ¬ (Attempt.mk s source).Accepted := by
  by_cases h : (Attempt.mk s source).Accepted
  · rw [run_of_accepted h] at hrun
    split at hrun <;> cases hrun <;> simp [h]
  · rw [run_of_refused h] at hrun
    cases hrun
    simp [h]

theorem accepted_of_run (hrun : s.run fuel source = some (outcome, s')) (h : outcome ≠ .staticError) :
    (Attempt.mk s source).Accepted :=
  Classical.not_not.1 fun ha => h ((outcome_eq_static hrun).2 ha)

/-- A source that is not accepted leaves the machine alone. -/
theorem run_of_not_accepted (h : ¬ (Attempt.mk s source).Accepted)
    (hrun : s.run fuel source = some (outcome, s')) :
    s'.machine = s.machine ∧ s'.nextId = (Attempt.mk s source).parsed.nextId ∧
      (s'.bindings = s.bindings ∨ (Attempt.mk s source).parsed.reports = [] ∧
        s'.bindings = (Attempt.mk s source).resolved.1) := by
  rw [run_of_refused h] at hrun
  cases hrun
  unfold refused
  by_cases hnone : Scan.reports source ++ (Attempt.mk s source).parsed.reports = []
  · rw [if_pos hnone]
    exact ⟨rfl, rfl, .inr ⟨(List.append_eq_nil_iff.1 hnone).2, rfl⟩⟩
  · rw [if_neg hnone]
    exact ⟨rfl, rfl, .inl rfl⟩

/-- A run takes the identities of its program, and records its distances if the program was parsed,
whatever the outcome. -/
theorem run_records (hrun : s.run fuel source = some (outcome, s')) :
    s'.nextId = (Attempt.mk s source).parsed.nextId ∧
      s'.bindings = if Scan.reports source ++ (Attempt.mk s source).parsed.reports = [] then
        (Attempt.mk s source).resolved.1 else s.bindings := by
  by_cases ha : (Attempt.mk s source).Accepted
  · rw [if_pos (List.append_eq_nil_iff.2 ⟨ha.scanned, ha.parsed⟩)]
    rw [run_of_accepted ha] at hrun
    split at hrun <;> cases hrun <;> exact ⟨rfl, rfl⟩
  · rw [run_of_refused ha] at hrun
    cases hrun
    by_cases hnone : Scan.reports source ++ (Attempt.mk s source).parsed.reports = []
    · simp only [refused, if_pos hnone, and_self]
    · simp only [refused, if_neg hnone, and_self]

/-- The runs of a session, the newest first, and what they made of it. -/
inductive History (clock : Clock) (limit : Option Nat) : List Attempt → Session → Prop
  | fresh : History clock limit [] (.fresh clock limit)
  | run {rs : List Attempt} {s s' : Session} {source : String} {fuel : Nat} {outcome : Outcome} :
      History clock limit rs s → s.run fuel source = some (outcome, s') →
      History clock limit (⟨s, source⟩ :: rs) s'

/-- Every run started from a session with a history of its own. -/
theorem History.of_mem {clock : Clock} {limit : Option Nat} {rs : List Attempt} (h : History clock limit rs s)
    {r : Attempt} (hr : r ∈ rs) : ∃ rs', History clock limit rs' r.session := by
  induction h with
  | fresh => cases hr
  | run hist _ ih =>
    rcases List.mem_cons.1 hr with rfl | hr
    · exact ⟨_, hist⟩
    · exact ih hr

/-- So did the runs up to a run that goes on. -/
theorem History.of_mem_cons {clock : Clock} {limit : Option Nat} {rs : List Attempt} {r r' : Attempt}
    (h : History clock limit rs r.session) (hr : r' ∈ r :: rs) : ∃ rs', History clock limit rs' r'.session := by
  rcases List.mem_cons.1 hr with rfl | hr
  · exact ⟨rs, h⟩
  · exact h.of_mem hr

end Session

/-- A place of a program that was run, with the distance recorded for it. -/
def Known (rs : List Attempt) (p : Place NodeId) : Prop :=
  ∃ r ∈ rs, r.Accepted ∧ p ∈ Stmt.placesAll [] r.tree ∧ p.Resolved r.distances

/-- A frame was made for a scope, in the course of some run. -/
def Opened (rs : List Attempt) (f : FrameId) (site : Site NodeId) : Prop :=
  ∃ r ∈ rs, ∃ M, r.Visits M ∧ Opens r.distances M f site

end Lox
