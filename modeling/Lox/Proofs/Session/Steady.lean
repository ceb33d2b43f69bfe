import Lox.Proofs.Lexical.Programs
import Lox.Proofs.Session.History

/-!
# What every run of a session keeps

The identities of nodes go on from run to run, so a distance recorded for an earlier program is never
written over; and however a run ends, the machine is back at rest and still mirrors a state with
cells. `Steady` is this invariant; a run keeps it, and so a whole history does.
-/

namespace Lox

open Lexical

/-- A session between two runs. -/
structure Steady (rs : List Attempt) (s : Session) : Prop where
  /-- Nodes that are still to come have no distance. -/
  unbound : ∀ k, s.nextId ≤ k → s.bindings.find? k = none
  /-- The distances of all programs so far are there. -/
  known : ∀ p, Known rs p → p.Resolved s.bindings.find? ∧ ∀ k ∈ p.node.marks, k < s.nextId
  env : s.machine.env = globalFrame
  mirrors : ∃ σ st, Mirrors (Known rs) (Opened rs) σ s.machine st

section
variable {rs : List Attempt} {s s' : Session} {source : String} {fuel : Nat} {outcome : Outcome}

theorem Known.older {p : Place NodeId} (h : Known rs p) (r : Attempt) : Known (r :: rs) p := by
  obtain ⟨r', hr, h⟩ := h
  exact ⟨r', List.mem_cons_of_mem _ hr, h⟩

theorem Opened.older {f : FrameId} {site : Site NodeId} (h : Opened rs f site) (r : Attempt) :
    Opened (r :: rs) f site := by
  obtain ⟨r', hr, h⟩ := h
  exact ⟨r', List.mem_cons_of_mem _ hr, h⟩

namespace Steady

theorem fresh (clock : Clock) (limit : Option Nat) : Steady [] (.fresh clock limit) where
  unbound k _ := Bindings.find?_empty k
  known := by
    rintro p ⟨r, hr, _⟩
    cases hr
  env := rfl
  mirrors := ⟨_, _, .initial clock limit⟩

/-- The distances of a program touch no node of an earlier one. -/
theorem distance_eq (hp : (Attempt.mk s source).parsed.reports = []) {k : NodeId}
    (hk : k < s.nextId ∨ (Attempt.mk s source).parsed.nextId ≤ k) :
    (Attempt.mk s source).resolved.1.find? k = s.bindings.find? k := by
  refine kept_of_resolve s.bindings (Attempt.formed hp) ?_
  intro hm
  have hrange := (Attempt.fresh hp).range k hm
  rcases hk with hk | hk
  · exact absurd hrange.1 (Nat.not_le_of_lt hk)
  · exact absurd hrange.2 (Nat.not_lt_of_le hk)

/-- What is known after a program was resolved. -/
theorem known_resolved (h : Steady rs s) (hp : (Attempt.mk s source).parsed.reports = []) {p : Place NodeId}
    (hk : Known (⟨s, source⟩ :: rs) p) :
    p.Resolved (Attempt.mk s source).distances ∧
      ∀ k ∈ p.node.marks, k < (Attempt.mk s source).parsed.nextId := by
  have hf := Attempt.fresh hp
  obtain ⟨r, hr, ha, hplace, hres⟩ := hk
  rcases List.mem_cons.1 hr with rfl | hr
  · refine ⟨hres, ?_⟩
    intro k hk
    exact (hf.range k (Stmt.marksAll_of_places _ [] p hplace hk)).2
  · obtain ⟨hold, hlt⟩ := h.known p ⟨r, hr, ha, hplace, hres⟩
    exact ⟨hold.congr fun k hk => distance_eq hp (.inl (hlt k hk)),
      fun k hk => Nat.lt_of_lt_of_le (hlt k hk) hf.le⟩

/-- A program that is about to run, and a state that stands where the machine does. -/
theorem ready (h : Steady rs s) (ha : (Attempt.mk s source).Accepted) :
    (∃ σ st, Mirrors (Known (⟨s, source⟩ :: rs)) (Opened (⟨s, source⟩ :: rs)) σ s.machine st ∧
      Here (Opened (⟨s, source⟩ :: rs)) σ [] none s.machine st) ∧
    Stmt.ScopedAll (Known (⟨s, source⟩ :: rs)) [] (Attempt.mk s source).tree ∧
    ∀ S, Starts (Attempt.mk s source).distances (Attempt.mk s source).tree s.machine S →
      Within (Attempt.mk s source).distances (Opened (⟨s, source⟩ :: rs)) S := by
  refine ⟨?_, ?_, ?_⟩
  · obtain ⟨σ, st, hm⟩ := h.mirrors
    have hm' := (hm.widen (fun p hp => hp.older ⟨s, source⟩) fun f site ho => ho.older ⟨s, source⟩).relocate
      s.machine.env [] false
    exact ⟨σ, _, hm', Here.top hm' h.env rfl rfl⟩
  · refine Stmt.scopedAll_of_places [] _ (Attempt.keepsRules ha h.unbound) ?_
    intro p hp hres
    exact ⟨_, List.mem_cons_self, ha, hp, hres⟩
  · intro S hS M hM f site ho
    exact ⟨_, List.mem_cons_self, M, ⟨ha, S, hS, hM⟩, ho⟩

/-- However an accepted program ends, the machine is at rest again. -/
theorem machine_of_run (h : Steady rs s) (ha : (Attempt.mk s source).Accepted)
    (hrun : s.run fuel source = some (outcome, s')) :
    s'.bindings = (Attempt.mk s source).resolved.1 ∧ s'.nextId = (Attempt.mk s source).parsed.nextId ∧
      s'.machine.env = globalFrame ∧
      ∃ σ st, Mirrors (Known (⟨s, source⟩ :: rs)) (Opened (⟨s, source⟩ :: rs)) σ s'.machine st := by
  obtain ⟨⟨σ, st, hm, hh⟩, hs, hw⟩ := h.ready ha
  have hN : ∀ p, Known (⟨s, source⟩ :: rs) p → p.Resolved (Attempt.mk s source).distances :=
    fun p hp => (h.known_resolved ha.parsed hp).1
  have hagree := interpret_agrees (n := fuel) hN _ hm hh hs hw
  rw [Session.run_of_accepted ha] at hrun
  generalize Exec.interpret (Attempt.mk s source).distances fuel (Attempt.mk s source).tree s.machine = x
    at hagree hrun
  generalize Run.interpret fuel (Attempt.mk s source).tree st = y at hagree
  cases hagree with
  | done hend =>
    simp only [Option.some.injEq, Prod.mk.injEq] at hrun
    obtain ⟨_, rfl⟩ := hrun
    obtain ⟨he, σ', hm'⟩ := hend
    exact ⟨rfl, rfl, he.trans h.env, σ', _, hm'⟩
  | failed e hend =>
    simp only [Option.some.injEq, Prod.mk.injEq] at hrun
    obtain ⟨_, rfl⟩ := hrun
    obtain ⟨he, σ', hm'⟩ := hend
    exact ⟨rfl, rfl, he.trans h.env, σ', _, hm'⟩
  | outOfFuel => cases hrun

/-- A run keeps a session steady, whatever its outcome. -/
theorem run (h : Steady rs s) (hrun : s.run fuel source = some (outcome, s')) :
    Steady (⟨s, source⟩ :: rs) s' := by
  have hle : s.nextId ≤ (Attempt.mk s source).parsed.nextId := Parser.nextId_le_program _ _
  have hunbound : (Attempt.mk s source).parsed.reports = [] →
      ∀ k, (Attempt.mk s source).parsed.nextId ≤ k →
        (Attempt.mk s source).resolved.1.find? k = none := by
    intro hp k hk
    rw [distance_eq hp (.inr hk)]
    exact h.unbound k (Nat.le_trans hle hk)
  by_cases ha : (Attempt.mk s source).Accepted
  · obtain ⟨hb, hi, he, hm⟩ := h.machine_of_run ha hrun
    refine ⟨?_, ?_, he, hm⟩
    · rw [hb, hi]
      exact hunbound ha.parsed
    · intro p hp
      rw [hb, hi]
      exact h.known_resolved ha.parsed hp
  · obtain ⟨hm, hi, hb⟩ := Session.run_of_not_accepted ha hrun
    have hknown : ∀ p, Known (⟨s, source⟩ :: rs) p → Known rs p := by
      rintro p ⟨r, hr, hacc, hp⟩
      rcases List.mem_cons.1 hr with rfl | hr
      · exact absurd hacc ha
      · exact ⟨r, hr, hacc, hp⟩
    refine ⟨?_, ?_, by rw [hm]; exact h.env, ?_⟩
    · intro k hk
      rw [hi] at hk
      rcases hb with hb | ⟨hp, hb⟩
      · rw [hb]
        exact h.unbound k (Nat.le_trans hle hk)
      · rw [hb]
        exact hunbound hp k hk
    · intro p hp
      obtain ⟨hres, hlt⟩ := h.known p (hknown p hp)
      rw [hi]
      refine ⟨?_, fun k hk => Nat.lt_of_lt_of_le (hlt k hk) hle⟩
      rcases hb with hb | ⟨hparsed, hb⟩
      · rw [hb]
        exact hres
      · rw [hb]
        exact (h.known_resolved hparsed hp).1
    · obtain ⟨σ, st, hmirror⟩ := h.mirrors
      rw [hm]
      exact ⟨σ, st, hmirror.widen (fun p hp => hp.older _) fun f site ho => ho.older _⟩

end Steady

/-- Every session is steady between its runs. -/
theorem steady_of_history {clock : Clock} {limit : Option Nat} (h : Session.History clock limit rs s) :
    Steady rs s := by
  induction h with
  | fresh => exact .fresh clock limit
  | run _ hrun ih => exact ih.run hrun

/-- Every moment of a run has its place, and the distances recorded for it are right. -/
theorem matched_of_visits (h : Steady rs s) {M : Moment NodeId} (hv : (Attempt.mk s source).Visits M) :
    Matched (Known (⟨s, source⟩ :: rs)) (Opened (⟨s, source⟩ :: rs)) M ∧
      Within (Attempt.mk s source).distances (Opened (⟨s, source⟩ :: rs)) M := by
  obtain ⟨ha, S, hS, hM⟩ := hv
  obtain ⟨⟨σ, st, hm, hh⟩, hs, hw⟩ := h.ready ha
  have hN : ∀ p, Known (⟨s, source⟩ :: rs) p → p.Resolved (Attempt.mk s source).distances :=
    fun p hp => (h.known_resolved ha.parsed hp).1
  exact (matched_of_starts hN hS hm hh hs hw).visits hN (hw S hS) hM

end

end Lox
