import Lox.Report

/-!
# Static reports

The stages before the run add static reports only, so a source is kept from running as soon as one of
them reports anything.
-/

namespace Lox

/-- Reports were added, all of them static. -/
def Adds (old new : List Report) : Prop := ∃ added, new = old ++ added ∧ ∀ r ∈ added, r.isStatic = true

namespace Adds

variable {a b c : List Report}

theorem refl (a : List Report) : Adds a a := ⟨[], by simp, by simp⟩

theorem one (a : List Report) {r : Report} (h : r.isStatic = true) : Adds a (a ++ [r]) :=
  ⟨[r], rfl, by simpa using h⟩

theorem trans (h : Adds a b) (h' : Adds b c) : Adds a c := by
  obtain ⟨l, rfl, hl⟩ := h
  obtain ⟨l', rfl, hl'⟩ := h'
  refine ⟨l ++ l', by simp, ?_⟩
  intro r hr
  rcases List.mem_append.1 hr with hr | hr
  · exact hl r hr
  · exact hl' r hr

/-- If two steps together add nothing, neither does. -/
theorem eq_of_trans (h : Adds a b) (h' : Adds b c) (he : c = a) : b = a ∧ c = b := by
  obtain ⟨l, rfl, -⟩ := h
  obtain ⟨l', rfl, -⟩ := h'
  rw [List.append_assoc] at he
  have hnil := List.append_eq_nil_iff.1 (List.self_eq_append_right.1 he.symm)
  rw [hnil.1, hnil.2]
  simp

theorem isStatic (h : Adds [] a) : ∀ r ∈ a, r.isStatic = true := by
  obtain ⟨l, rfl, hl⟩ := h
  simpa using hl

end Adds

namespace Reports

theorem hadError_eq_false {r : Reports} (h : ∀ x ∈ r.held, x.isStatic = true) :
    r.hadError = false ↔ r.held = [] := by
  unfold hadError
  cases hr : r.held with
  | nil => simp
  | cons x xs =>
    have hx := h x (by rw [hr]; simp)
    simp [hx]

end Reports

end Lox
