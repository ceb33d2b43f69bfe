import Lox.Proofs.Parser.Identities
import Lox.Proofs.Session.Views

/-!
# Identities over a whole process

All parses of a process draw from one counter: those of the runs of a session, and any others. So no
two nodes of the trees that they return are the same, and the distances of a program are never written
over by a later one. Main statement: `identities_never_collide`.
-/

namespace Lox

namespace Session

/-- Something that parses, and the marks of the tree that it returns: a run of the session, or a parse
for other ends, which takes identities and leaves the session alone otherwise. -/
inductive Parses : Session → List NodeId → Session → Prop
  | run {s s' : Session} {source : String} {fuel : Nat} {outcome : Outcome} :
      s.run fuel source = some (outcome, s') → Parses s (Stmt.marksAll (Attempt.mk s source).tree) s'
  | program (s : Session) (tokens : List Token) :
      Parses s (Stmt.marksAll (Parser.program s.nextId tokens).tree)
        { s with nextId := (Parser.program s.nextId tokens).nextId }
  | single (s : Session) (tokens : List Token) :
      Parses s (Expr.marksOpt (Parser.single s.nextId tokens).tree)
        { s with nextId := (Parser.single s.nextId tokens).nextId }

/-- One parse after another, with the marks of each. -/
inductive Process : Session → List (List NodeId) → Session → Prop
  | done {s : Session} : Process s [] s
  | parse {s s' s'' : Session} {marks : List NodeId} {lists : List (List NodeId)} :
      Parses s marks s' → Process s' lists s'' → Process s (marks :: lists) s''

variable {s s' : Session} {marks : List NodeId} {lists : List (List NodeId)}

theorem Parses.fresh (h : Parses s marks s') : Fresh s.nextId s'.nextId marks := by
  cases h with
  | run hrun =>
    rw [(run_records hrun).1]
    exact Parser.program_fresh _ _
  | program tokens => exact Parser.program_fresh _ tokens
  | single tokens => exact Parser.single_fresh _ tokens

theorem Parses.kept (h : Parses s marks s') {k : NodeId} (hk : k < s.nextId) :
    s'.bindings.find? k = s.bindings.find? k := by
  cases h with
  | run hrun => exact older_kept hrun hk
  | program tokens => rfl
  | single tokens => rfl

theorem Process.fresh (h : Process s lists s') : Fresh s.nextId s'.nextId lists.flatten := by
  induction h with
  | done => exact .nil (Nat.le_refl _)
  | parse hparse _ ih => exact hparse.fresh.append ih

theorem Process.kept (h : Process s lists s') {k : NodeId} (hk : k < s.nextId) :
    s'.bindings.find? k = s.bindings.find? k := by
  induction h with
  | done => rfl
  | parse hparse _ ih => rw [ih (Nat.lt_of_lt_of_le hk hparse.fresh.le), hparse.kept hk]

end Session

open Session

/-- Identities never collide. In whatever state a process is, the nodes of all trees that its parses
return from there on, with faults or without, have identities that differ from one another and from all
that were given out before. So when a source has been resolved by a run, the distances of its nodes are
still the recorded ones after any later runs and parses, and they are the ones that any later program
is run with. -/
theorem identities_never_collide (s : Session) :
    (∀ lists s', Process s lists s' →
      lists.flatten.Nodup ∧ ∀ k ∈ lists.flatten, s.nextId ≤ k ∧ k < s'.nextId) ∧
    ∀ fuel source outcome s₁ lists s₂, s.run fuel source = some (outcome, s₁) → Process s₁ lists s₂ →
      Scan.reports source = [] → (Attempt.mk s source).parsed.reports = [] →
      ∀ k ∈ Stmt.marksAll (Attempt.mk s source).tree,
        s₂.bindings.find? k = (Attempt.mk s source).distances k ∧
        ∀ later, (Attempt.mk s₂ later).parsed.reports = [] →
          (Attempt.mk s₂ later).distances k = (Attempt.mk s source).distances k := by
  refine ⟨fun lists s' h => ⟨h.fresh.nodup, h.fresh.range⟩, ?_⟩
  intro fuel source outcome s₁ lists s₂ hrun hprocess hscan hparse k hk
  obtain ⟨hid, hbindings⟩ := run_records hrun
  rw [if_pos (List.append_eq_nil_iff.2 ⟨hscan, hparse⟩)] at hbindings
  have hlt : k < s₁.nextId := by
    rw [hid]
    exact ((Attempt.fresh hparse).range k hk).2
  have hafter : s₂.bindings.find? k = (Attempt.mk s source).distances k := by
    rw [hprocess.kept hlt, hbindings]
    rfl
  refine ⟨hafter, fun later hlater => ?_⟩
  have hlt' : k < s₂.nextId := Nat.lt_of_lt_of_le hlt hprocess.fresh.le
  rw [← hafter]
  exact Steady.distance_eq hlater (.inl hlt')

/-- A function that reads a local of the function around it. -/
def localRead : String := "fun f(a) { fun g() { print a; } }"

/-- A source with two faults: of the identities that are drawn, two are returned. -/
def brokenAssignments : String := "(x) = y; z = ; { print c; }"

theorem localRead_outlives_faults :
    ∃ s₁ s₂, (Session.fresh ⟨fun _ => 0, 0⟩).run 20 localRead = some (.ok, s₁) ∧
      Process s₁ [[1, 4], [5, 6]] s₂ ∧ [[1, 4], [5, 6]].flatten.Nodup ∧ s₂.bindings.find? 0 = some 1 := by
  have hfirst : ((Session.fresh ⟨fun _ => 0, 0⟩).run 20 localRead).map (fun p => (p.1, p.2.nextId)) =
      some (.ok, 1) := by
    decide +kernel
  obtain ⟨⟨outcome, s₁⟩, hrun, hp⟩ := Option.map_eq_some_iff.1 hfirst
  obtain ⟨rfl, hid⟩ : outcome = .ok ∧ s₁.nextId = 1 := Prod.mk.inj hp
  have hbroken : (Parser.program 1 (Scan.tokens brokenAssignments)).reports ≠ [] ∧
      Stmt.marksAll (Parser.program 1 (Scan.tokens brokenAssignments)).tree = [1, 4] ∧
      (Parser.program 1 (Scan.tokens brokenAssignments)).nextId = 5 := by
    decide +kernel
  have hsingle : Expr.marksOpt (Parser.single 5 (Scan.tokens "a + b")).tree = [5, 6] := by decide +kernel
  have hrefused : ¬ (Attempt.mk s₁ brokenAssignments).Accepted := by
    intro ha
    have hreports := ha.parsed
    rw [Attempt.parsed, hid] at hreports
    exact hbroken.1 hreports
  have hsecond := run_of_refused hrefused 20
  have hid' : (s₁.refused brokenAssignments).nextId = 5 := by
    rw [(run_records hsecond).1, Attempt.parsed, hid]
    exact hbroken.2.2
  have hmarks : Stmt.marksAll (Attempt.mk s₁ brokenAssignments).tree = [1, 4] := by
    rw [Attempt.tree, Attempt.parsed, hid]
    exact hbroken.2.1
  have hforeign := Parses.single (s₁.refused brokenAssignments) (Scan.tokens "a + b")
  rw [hid', hsingle] at hforeign
  have hbrokenRun := Parses.run hsecond
  rw [hmarks] at hbrokenRun
  have hprocess := Process.parse hbrokenRun (.parse hforeign .done)
  obtain ⟨hdistinct, _⟩ := (identities_never_collide s₁).1 _ _ hprocess
  have hkept := (identities_never_collide (.fresh ⟨fun _ => 0, 0⟩)).2 _ _ _ _ _ _ hrun hprocess
    (by decide +kernel) (by decide +kernel) 0 (by decide +kernel)
  refine ⟨s₁, _, hrun, hprocess, hdistinct, hkept.1.trans ?_⟩
  decide +kernel

end Lox
