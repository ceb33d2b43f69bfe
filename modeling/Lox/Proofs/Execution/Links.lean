import Lox.Proofs.Execution.Heap

/-!
# Chains of frames and of classes

The links of a sound store lead back, so that following them ends: a chain of frames in the global frame, a
chain of classes in a class without superclass. A search along such a chain ends as well, and the bounded
searches of the store are these searches: `Frames.Finds`, `Store.FindsMethod`. The main statement is
`Store.Sound.linked`.
-/

namespace Lox

/-! ## Chains -/

/-- What lies so many links on. -/
def follow (link : Nat → Option Nat) : Nat → Nat → Option Nat
  | 0, i => some i
  | k + 1, i => (link i).bind (follow link k)

/-- All links lead to smaller numbers, that is to what was made earlier. -/
def LeadsBack (link : Nat → Option Nat) : Prop := ∀ i j, link i = some j → j < i

/-- So many links on from a place, and no more, lies the last place. -/
structure EndsAt (link : Nat → Option Nat) (i n last : Nat) : Prop where
  leads : follow link n i = some last
  ends : link last = none
  length : ∀ k, (follow link k i).isSome ↔ k ≤ n

namespace LeadsBack

variable {link : Nat → Option Nat} {i j k : Nat}

/-- Each link leads at least one further back. -/
theorem follow_le (h : LeadsBack link) (hk : follow link k i = some j) : j + k ≤ i := by
  induction k generalizing i with
  | zero =>
    cases hk
    exact Nat.le_refl _
  | succ k ih =>
    obtain ⟨l, hl, hk⟩ := Option.bind_eq_some_iff.1 hk
    have hlt := h i l hl
    have hle := ih hk
    omega

theorem follow_ne_self (h : LeadsBack link) (i k : Nat) : follow link (k + 1) i ≠ some i := by
  intro hk
  have hle := h.follow_le hk
  omega

/-- Every chain ends. -/
theorem chain (h : LeadsBack link) (i : Nat) : ∃ n last, EndsAt link i n last := by
  induction i using Nat.strongRecOn with
  | ind i ih =>
    cases hi : link i with
    | none =>
      refine ⟨0, i, rfl, hi, fun k => ?_⟩
      cases k with
      | zero => simp [follow]
      | succ k => simp [follow, hi]
    | some j =>
      obtain ⟨n, last, hc⟩ := ih j (h i j hi)
      refine ⟨n + 1, last, by simp [follow, hi, hc.leads], hc.ends, fun k => ?_⟩
      cases k with
      | zero => simp [follow]
      | succ k => simp [follow, hi, hc.length k]

end LeadsBack

theorem Frames.ancestor?_eq_follow (s : Frames) (k : Nat) (f : FrameId) :
    s.ancestor? k f = follow s.enclosing? k f := by
  induction k generalizing f with
  | zero => rfl
  | succ k ih => simp [ancestor?, follow, funext ih]

/-! ## Searches -/

/-- The search for a name, frame by frame outwards, ends: with the frame that holds it or with none. -/
inductive Frames.Finds (s : Frames) (x : String) : FrameId → Option FrameId → Prop
  | here : s.contains f x = true → Finds s x f (some f)
  | around : s.contains f x = false → s.enclosing? f = some e → Finds s x e r → Finds s x f r
  | nowhere : s.contains f x = false → s.enclosing? f = none → Finds s x f none

/-- The search for a method, class by class upwards, ends: with the method or with none. -/
inductive Store.FindsMethod (s : Store ν) (x : String) : ClassId → Option (Function ν) → Prop
  | own : s.classes[i]? = some c → c.methods.get? x = some f → FindsMethod s x i (some f)
  | above : s.classes[i]? = some c → c.methods.get? x = none → c.superclass = some p →
      FindsMethod s x p r → FindsMethod s x i r
  | nowhere : s.classes[i]? = some c → c.methods.get? x = none → c.superclass = none →
      FindsMethod s x i none

theorem Store.FindsMethod.unique {s : Store ν} {x : String} {i : ClassId} {r r' : Option (Function ν)}
    (h : s.FindsMethod x i r) (h' : s.FindsMethod x i r') : r = r' := by
  induction h with
  | own hc hm =>
    cases h' with
    | own hc' hm' => rw [← hm, ← hm', Option.some.inj (hc.symm.trans hc')]
    | above hc' hm' | nowhere hc' hm' =>
      cases hc.symm.trans hc'
      cases hm.symm.trans hm'
  | above hc hm hp _ ih =>
    cases h' with
    | own hc' hm' =>
      cases hc.symm.trans hc'
      cases hm.symm.trans hm'
    | above hc' _ hp' h' =>
      cases hc.symm.trans hc'
      cases hp.symm.trans hp'
      exact ih h'
    | nowhere hc' _ hp' =>
      cases hc.symm.trans hc'
      cases hp.symm.trans hp'
  | nowhere hc hm hp =>
    cases h' with
    | own hc' hm' =>
      cases hc.symm.trans hc'
      cases hm.symm.trans hm'
    | above hc' _ hp' =>
      cases hc.symm.trans hc'
      cases hp.symm.trans hp'
    | nowhere => rfl

/-- The superclass of a class. -/
def Store.superclass? (s : Store ν) (i : ClassId) : Option ClassId := s.classes[i]?.bind (·.superclass)

theorem Frames.finds_holderWithin {s : Frames} (h : LeadsBack s.enclosing?) (x : String) {fuel : Nat}
    {f : FrameId} (hf : f < fuel) : s.Finds x f (s.holderWithin? x fuel f) := by
  induction fuel generalizing f with
  | zero => exact absurd hf (Nat.not_lt_zero f)
  | succ n ih =>
    unfold holderWithin?
    by_cases hx : s.contains f x = true
    · rw [if_pos hx]
      exact .here hx
    · rw [if_neg hx]
      rw [Bool.not_eq_true] at hx
      cases he : s.enclosing? f with
      | none => exact .nowhere hx he
      | some e =>
        have hlt : e < n := Nat.lt_of_lt_of_le (h f e he) (Nat.le_of_lt_succ hf)
        exact .around hx he (ih hlt)

/-- The bound on a search by name is never felt. -/
theorem Frames.finds_holder {s : Frames} (h : LeadsBack s.enclosing?) (x : String) (f : FrameId) :
    s.Finds x f (s.holder? x f) := by
  by_cases hf : f < s.cells.size
  · exact finds_holderWithin h x hf
  · have hcell : s.cells[f]? = none := Array.getElem?_eq_none (Nat.le_of_not_lt hf)
    have hx : s.contains f x = false := by simp [contains, lookup?, hcell]
    have he : s.enclosing? f = none := by simp [enclosing?, hcell]
    have hnone : s.holder? x f = none := by
      unfold holder?
      cases s.cells.size with
      | zero => rfl
      | succ n => simp [holderWithin?, hx, he]
    rw [hnone]
    exact .nowhere hx he

theorem Store.findsMethod_within {s : Store ν} (h : LeadsBack s.superclass?) (x : String) {fuel : Nat}
    {i : ClassId} (hi : i < fuel) (hs : i < s.classes.size) :
    s.FindsMethod x i (s.methodWithin? x fuel i) := by
  induction fuel generalizing i with
  | zero => exact absurd hi (Nat.not_lt_zero i)
  | succ n ih =>
    obtain ⟨c, hc⟩ : ∃ c, s.classes[i]? = some c := ⟨_, Array.getElem?_eq_getElem hs⟩
    unfold methodWithin?
    rw [hc]
    simp only [Option.bind_some]
    cases hm : c.methods.get? x with
    | some f => exact .own hc hm
    | none =>
      cases hp : c.superclass with
      | none => exact .nowhere hc hm hp
      | some p =>
        have hlt : p < i := h i p (by simp [superclass?, hc, hp])
        exact .above hc hm hp (ih (Nat.lt_of_lt_of_le hlt (Nat.le_of_lt_succ hi)) (Nat.lt_trans hlt hs))

/-! ## Linked stores -/

/-- The links of a store lead back, chains end, and so do searches along them. -/
structure Store.Linked (s : Store ν) : Prop where
  enclosing : LeadsBack s.frames.enclosing?
  superclass : LeadsBack s.superclass?
  /-- A chain of frames ends in the global frame. -/
  frames : ∀ f < s.frames.cells.size, ∃ n, s.frames.ancestor? n f = some globalFrame ∧
    ∀ k, (s.frames.ancestor? k f).isSome ↔ k ≤ n
  noFrameAgain : ∀ f k, s.frames.ancestor? (k + 1) f ≠ some f
  classes : ∀ i < s.classes.size, ∃ n top, EndsAt s.superclass? i n top
  noClassAgain : ∀ i k, follow s.superclass? (k + 1) i ≠ some i
  /-- A name is read and written where the search for it ends. -/
  search : ∀ x f, ∃ r, s.frames.Finds x f r ∧
    s.frames.get f x = r.elim (.error (.undefinedVariable x)) (fun g => .ok (s.frames.valueIn x g)) ∧
    ∀ v, s.frames.assign f x v =
      r.elim (.error (.undefinedVariable x)) fun g => .ok (s.frames.define g x v)
  methods : ∀ x, ∀ i < s.classes.size, s.FindsMethod x i (s.method? i x)

namespace Store.Sound

variable {s : Store ν}

theorem enclosing_leadsBack (h : s.Sound) : LeadsBack s.frames.enclosing? := by
  intro f e he
  obtain ⟨frame, hf, he⟩ := Option.bind_eq_some_iff.1 he
  exact (h.frames f frame hf).enclosing e he

theorem superclass_leadsBack (h : s.Sound) : LeadsBack s.superclass? := by
  intro i p hp
  obtain ⟨c, hc, hp⟩ := Option.bind_eq_some_iff.1 hp
  exact (h.classes i c hc).superclass p hp

/-- Only the global frame has nothing around it. -/
theorem eq_global (h : s.Sound) {f : FrameId} (hf : f < s.frames.cells.size)
    (he : s.frames.enclosing? f = none) : f = globalFrame := by
  obtain ⟨frame, hframe⟩ : ∃ frame, s.frames.cells[f]? = some frame := ⟨_, Array.getElem?_eq_getElem hf⟩
  refine (h.frames f frame hframe).root.1 ?_
  simpa [Frames.enclosing?, hframe] using he

theorem linked (h : s.Sound) : s.Linked where
  enclosing := h.enclosing_leadsBack
  superclass := h.superclass_leadsBack
  frames f hf := by
    obtain ⟨n, last, hc⟩ := h.enclosing_leadsBack.chain f
    have hle : last + n ≤ f := h.enclosing_leadsBack.follow_le hc.leads
    have hlast : last = globalFrame := h.eq_global (Nat.lt_of_le_of_lt (Nat.le_of_add_right_le hle) hf) hc.ends
    refine ⟨n, ?_, fun k => ?_⟩
    · rw [Frames.ancestor?_eq_follow, hc.leads, hlast]
    · rw [Frames.ancestor?_eq_follow, hc.length k]
  noFrameAgain f k := by
    rw [Frames.ancestor?_eq_follow]
    exact h.enclosing_leadsBack.follow_ne_self f k
  classes i _ := h.superclass_leadsBack.chain i
  noClassAgain := h.superclass_leadsBack.follow_ne_self
  search x f := by
    refine ⟨s.frames.holder? x f, Frames.finds_holder h.enclosing_leadsBack x f, ?_, fun v => ?_⟩
    · unfold Frames.get Frames.locate
      cases s.frames.holder? x f <;> rfl
    · unfold Frames.assign Frames.locate
      cases s.frames.holder? x f <;> rfl
  methods x i hi := findsMethod_within h.superclass_leadsBack x hi hi

end Store.Sound

end Lox
