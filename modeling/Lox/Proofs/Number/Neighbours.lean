import Mathlib.Tactic.Linarith
import Lox.Number.Shortest

/-!
# Neighbouring doubles

A finite double without a sign is a mantissa of at most 53 bits and a shift, which its bits count up
(`bits_of_ofBits?`). The reals that round to one double end where those that round to the next one begin, and
of two neighbours only the one with the even mantissa has the end of its interval: so no decimal rounds to two
doubles (`eq_of_holds`).
-/

namespace Lox.Number

theorem pow2_pos (n : Nat) : 0 < pow2 n := Nat.pow_pos (by decide)

theorem pow10_pos (n : Nat) : 0 < pow10 n := Nat.pow_pos (by decide)

theorem pow2_add (m n : Nat) : pow2 (m + n) = pow2 m * pow2 n := Nat.pow_add 2 m n

theorem pow10_add (m n : Nat) : pow10 (m + n) = pow10 m * pow10 n := Nat.pow_add 10 m n

theorem significand_eq : pow2 significandBits = 4503599627370496 := rfl

/-! ## The parts of a double -/

namespace Exact

variable {x y : Exact}

/-- A mantissa of at most 53 bits, and of no fewer unless it is not shifted. -/
structure Normal (x : Exact) : Prop where
  lt : x.mantissa < 2 * pow2 significandBits
  le : 0 < x.shift → pow2 significandBits ≤ x.mantissa

/-- The bits of a finite double without a sign, from its parts. -/
def bits (x : Exact) : Nat := x.shift * pow2 significandBits + x.mantissa

/-- Below the bits of infinity there is no sign, and the parts are those that the bits count up. -/
theorem bits_of_ofBits? {b : Nat} (hb : b < topField * pow2 significandBits) :
    ∃ x, ofBits? b = some x ∧ x.negative = false ∧ x.Normal ∧ x.bits = b := by
  rw [topField, significand_eq] at hb
  have hfield : b / pow2 significandBits % 2048 = b / 4503599627370496 := by
    rw [significand_eq]
    omega
  have hsign : (pow2 63 ≤ b) = False := by
    rw [eq_iff_iff, iff_false, show pow2 63 = 9223372036854775808 from rfl]
    omega
  unfold ofBits?
  simp only [hfield, hsign, decide_false, topField]
  rw [if_neg (by omega)]
  by_cases hzero : b / 4503599627370496 = 0
  · refine ⟨_, if_pos hzero, rfl, ⟨?_, fun h => absurd h (Nat.lt_irrefl 0)⟩, ?_⟩
    · simp only [significand_eq]
      omega
    · simp only [bits, significand_eq]
      omega
  · refine ⟨_, if_neg hzero, rfl, ⟨?_, fun _ => ?_⟩, ?_⟩
    · simp only [significand_eq]
      omega
    · exact Nat.le_add_right _ _
    · simp only [bits, significand_eq]
      omega

/-! ## Intervals -/

theorem units_eq (x : Exact) : x.interval.value = 4 * x.units := rfl

/-- The lower half of the interval is half the distance to the next double, and half of that above a power
of two. -/
theorem low_cases (x : Exact) :
    ((0 < x.shift → x.mantissa ≠ pow2 significandBits) ∧ x.interval.low = 4 * x.units - 2 * pow2 x.shift) ∨
    (x.mantissa = pow2 significandBits ∧ x.interval.low = 4 * x.units - pow2 x.shift) := by
  unfold interval
  by_cases h : x.mantissa = pow2 significandBits ∧ 0 < x.shift
  · exact .inr ⟨h.1, by simp only [if_pos h]⟩
  · exact .inl ⟨fun hs hm => h ⟨hm, hs⟩, by simp only [if_neg h]⟩

theorem high_eq (x : Exact) : x.interval.high = 4 * x.units + 2 * pow2 x.shift := rfl

theorem double_le_pow2 {m n : Nat} (h : m < n) : 2 * pow2 m ≤ pow2 n := by
  have hstep : pow2 (m + 1) ≤ pow2 n := Nat.pow_le_pow_right (by decide) h
  rwa [pow2_add, Nat.mul_comm] at hstep

/-- The interval of a double ends where that of a greater one begins, or before. Where the two meet, one of the
mantissas is odd. -/
theorem high_le_low (hx : x.Normal) (hy : y.Normal)
    (h : x.shift < y.shift ∨ x.shift = y.shift ∧ x.mantissa < y.mantissa) :
    x.interval.high ≤ y.interval.low ∧
      (x.interval.high = y.interval.low → x.mantissa % 2 = 0 → y.mantissa % 2 = 1) := by
  have hlow := low_cases y
  have hgap := pow2_pos x.shift
  have hfull := hx.lt
  simp only [high_eq, units, significand_eq] at hlow hfull ⊢
  rcases h with hlt | ⟨heq, hlt⟩
  · -- all of a smaller shift lies below the least mantissa of a greater one
    have hleast := hy.le (by omega)
    have hdouble := double_le_pow2 hlt
    have hxu := Nat.mul_le_mul_right (pow2 x.shift) (show x.mantissa ≤ 9007199254740991 by omega)
    rw [significand_eq] at hleast
    generalize pow2 x.shift = gx, pow2 y.shift = gy at *
    rcases hlow with ⟨hne, hlow⟩ | ⟨hm, hlow⟩
    · have hmore := hne (by omega)
      have hyu := Nat.mul_le_mul_right gy (show 4503599627370497 ≤ y.mantissa by omega)
      omega
    · rw [hm] at hlow
      refine ⟨by omega, fun hmeet heven => ?_⟩
      have hless := Nat.mul_le_mul_right gx (show x.mantissa ≤ 9007199254740990 by omega)
      have hwhole : y.interval.low + gy = 4 * (4503599627370496 * gy) := by omega
      linarith
  · have hstep := Nat.mul_le_mul_right (pow2 x.shift) (show x.mantissa + 1 ≤ y.mantissa from hlt)
    rw [Nat.succ_mul] at hstep
    rw [← heq] at hlow
    generalize pow2 x.shift = g at *
    rcases hlow with ⟨-, hlow⟩ | ⟨-, hlow⟩
    · refine ⟨by omega, fun hmeet heven => ?_⟩
      have hnext : y.mantissa * g = (x.mantissa + 1) * g := by
        rw [Nat.succ_mul]
        omega
      have := Nat.eq_of_mul_eq_mul_right hgap hnext
      omega
    · omega

end Exact

/-! ## What rounds to a double -/

namespace Interval

variable {i : Interval} {point : Nat}

/-- The point of the finest grid, over the common denominator of the ends. -/
abbrev scaled (point : Nat) : Nat := point * (4 * pow2 unitPlaces)

theorem le_of_holds (h : i.holds point) :
    i.low * pow10 gridPlaces ≤ scaled point ∧ scaled point ≤ i.high * pow10 gridPlaces := by
  unfold holds at h
  by_cases hc : i.closed
  · simpa [hc] using h
  · have hlt : i.low * pow10 gridPlaces < scaled point ∧ scaled point < i.high * pow10 gridPlaces := by
      simpa [hc] using h
    exact ⟨hlt.1.le, hlt.2.le⟩

theorem lt_of_holds (hc : i.closed = false) (h : i.holds point) :
    i.low * pow10 gridPlaces < scaled point ∧ scaled point < i.high * pow10 gridPlaces := by
  simpa [holds, hc] using h

theorem holds_of_lt (hlow : i.low * pow10 gridPlaces < scaled point)
    (hhigh : scaled point < i.high * pow10 gridPlaces) : i.holds point := by
  unfold holds
  by_cases hc : i.closed
  · simp [hc, hlow.le, hhigh.le]
  · simp [hc, hlow, hhigh]

end Interval

namespace Exact

variable {x y : Exact} {point : Nat}

theorem closed_iff (x : Exact) : x.interval.closed = true ↔ x.mantissa % 2 = 0 := by
  simp [interval]

/-- A decimal that rounds to a double rounds to no greater one. -/
theorem not_holds_of_lt (hx : x.Normal) (hy : y.Normal)
    (h : x.shift < y.shift ∨ x.shift = y.shift ∧ x.mantissa < y.mantissa)
    (hpx : x.interval.holds point) : ¬ y.interval.holds point := by
  intro hpy
  obtain ⟨hle, hodd⟩ := high_le_low hx hy h
  have hmul := Nat.mul_le_mul_right (pow10 gridPlaces) hle
  obtain ⟨-, hup⟩ := Interval.le_of_holds hpx
  obtain ⟨hdown, -⟩ := Interval.le_of_holds hpy
  -- the decimal is the end of both intervals, and only one of them has it
  have hmeet : x.interval.high = y.interval.low :=
    Nat.eq_of_mul_eq_mul_right (pow10_pos gridPlaces) (hmul.antisymm (hdown.trans hup))
  by_cases heven : x.mantissa % 2 = 0
  · have hopen : y.interval.closed = false := by
      rw [← Bool.not_eq_true, closed_iff, hodd hmeet heven]
      decide
    exact (hup.trans hmul).not_gt (Interval.lt_of_holds hopen hpy).1
  · have hopen : x.interval.closed = false := by rwa [← Bool.not_eq_true, closed_iff]
    exact (hmul.trans hdown).not_gt (Interval.lt_of_holds hopen hpx).2

/-- A decimal rounds to one double only. -/
theorem eq_of_holds (hx : x.Normal) (hy : y.Normal) (hpx : x.interval.holds point)
    (hpy : y.interval.holds point) : x.shift = y.shift ∧ x.mantissa = y.mantissa := by
  have hxy := mt (not_holds_of_lt hx hy · hpx) (not_not_intro hpy)
  have hyx := mt (not_holds_of_lt hy hx · hpy) (not_not_intro hpx)
  omega

/-- A double is in its own interval. -/
theorem holds_value (x : Exact) (h : Interval.scaled point = 4 * x.units * pow10 gridPlaces) :
    x.interval.holds point := by
  have hgap := pow2_pos x.shift
  have hg := pow10_pos gridPlaces
  have hlow : x.interval.low ≤ 4 * x.units := by
    rcases low_cases x with ⟨-, hlow⟩ | ⟨-, hlow⟩ <;> omega
  have hhigh : 4 * x.units < x.interval.high := by
    rw [high_eq]
    omega
  have hup := Nat.mul_lt_mul_of_pos_right hhigh hg
  by_cases hzero : x.mantissa = 0
  · have hclosed : x.interval.closed = true := by
      rw [closed_iff, hzero]
    have hdown := Nat.mul_le_mul_right (pow10 gridPlaces) hlow
    simp only [Interval.holds, hclosed, if_true, Bool.and_eq_true, decide_eq_true_eq]
    exact ⟨hdown.trans_eq h.symm, (h.trans_lt hup).le⟩
  · have hstrict : x.interval.low < 4 * x.units := by
      have hpos : 0 < x.units := Nat.mul_pos (Nat.pos_of_ne_zero hzero) hgap
      rcases low_cases x with ⟨-, hlow⟩ | ⟨-, hlow⟩ <;> omega
    have hdown := Nat.mul_lt_mul_of_pos_right hstrict hg
    exact Interval.holds_of_lt (hdown.trans_eq h.symm) (h.trans_lt hup)

end Exact

end Lox.Number
