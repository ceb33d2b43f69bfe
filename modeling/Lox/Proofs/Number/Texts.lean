import Mathlib
import Lox.Number.Text
import Lox.Proofs.Number.Neighbours

/-!
# What a number is written as

The decimal that is written for a double rounds to it: seventeen digits are always enough
(`Exact.seventeen_digits`), and positional notation loses nothing (`Decimal.writes_positional`). A text writes
one decimal only, and a decimal rounds to one double only, so different doubles are written differently
(`treeText_injective`).
-/

namespace Lox.Number

/-! ## The first hit -/

/-- The point of the finest grid that a decimal stands for. -/
def Decimal.gridPoint (d : Decimal) : Nat := d.digits * pow10 (d.exponent + gridPlaces).toNat

/-- A decimal that has no more places than the finest grid. -/
def Decimal.OnGrid (d : Decimal) : Prop := 0 ≤ d.exponent + gridPlaces

/-- Moving zeros into the exponent changes nothing. -/
theorem Decimal.gridPoint_trim (fuel : Nat) {d : Decimal} (h : d.OnGrid) :
    (Decimal.trim fuel d).OnGrid ∧ (Decimal.trim fuel d).gridPoint = d.gridPoint := by
  induction fuel generalizing d with
  | zero => exact ⟨h, rfl⟩
  | succ fuel ih =>
    rw [Decimal.trim]
    split
    · rename_i hzero
      have hgrid : Decimal.OnGrid ⟨d.digits / 10, d.exponent + 1⟩ := by
        unfold Decimal.OnGrid at h ⊢
        simp only
        omega
      obtain ⟨htrim, heq⟩ := ih hgrid
      refine ⟨htrim, heq.trans ?_⟩
      have hplace : (d.exponent + 1 + gridPlaces).toNat = 1 + (d.exponent + gridPlaces).toNat := by
        unfold Decimal.OnGrid at h
        omega
      have hdigits : d.digits / 10 * 10 = d.digits := Nat.div_mul_cancel (Nat.dvd_of_mod_eq_zero hzero.2)
      simp only [Decimal.gridPoint, hplace, pow10_add]
      rw [← Nat.mul_assoc, show pow10 1 = 10 from rfl, hdigits]
    · exact ⟨h, rfl⟩

namespace Interval

variable {i : Interval} {tie : Tie} {spacing : Nat}

theorem holds_of_neighbour? {n : Nat} (h : i.neighbour? tie spacing = some n) : i.holds (n * spacing) := by
  unfold neighbour? at h
  simp only at h
  generalize i.value * pow10 gridPlaces / (spacing * (4 * pow2 unitPlaces)) = below at h
  split at h
  · rename_i hbelow habove
    -- both are in the interval, so the choice between them does not matter
    have hchoice : n = below ∨ n = below + 1 := by
      rw [← Option.some.inj h]
      split
      · exact .inl rfl
      · split
        · exact .inr rfl
        · cases tie with
          | up => exact .inr rfl
          | toEven => simp only; omega
    rcases hchoice with rfl | rfl
    · exact hbelow
    · exact habove
  · rename_i hbelow _
    cases h
    exact hbelow
  · rename_i _ habove
    cases h
    exact habove
  · cases h

/-- On a grid that is finer than the interval is long, one of the two neighbours is in the interval. -/
theorem neighbour?_ne_none (hspacing : 0 < scaled spacing) (hlow : i.low ≤ i.value) (hhigh : i.value < i.high)
    (h : i.low * pow10 gridPlaces + scaled spacing < i.high * pow10 gridPlaces) :
    i.neighbour? tie spacing ≠ none := by
  intro hnone
  have hdown := Nat.mul_le_mul_right (pow10 gridPlaces) hlow
  have hup := Nat.mul_lt_mul_of_pos_right hhigh (pow10_pos gridPlaces)
  obtain ⟨below, hle, hlt, hmissed, hmissed'⟩ : ∃ below,
      scaled (below * spacing) ≤ i.value * pow10 gridPlaces ∧
      i.value * pow10 gridPlaces < scaled ((below + 1) * spacing) ∧
      i.holds (below * spacing) = false ∧ i.holds ((below + 1) * spacing) = false := by
    refine ⟨i.value * pow10 gridPlaces / scaled spacing, ?_, ?_, ?_⟩
    · rw [scaled, Nat.mul_assoc]
      exact Nat.div_mul_le_self _ _
    · rw [scaled, Nat.mul_assoc]
      exact Nat.lt_mul_of_div_lt (Nat.lt_succ_self _) hspacing
    · unfold neighbour? at hnone
      simp only at hnone
      split at hnone <;> simp_all [scaled]
  have hstep : scaled ((below + 1) * spacing) = scaled (below * spacing) + scaled spacing := by
    simp only [scaled, Nat.succ_mul, Nat.add_mul]
  have hleft : ¬ i.low * pow10 gridPlaces < scaled (below * spacing) := fun hlow =>
    Bool.false_ne_true (hmissed.symm.trans (holds_of_lt hlow (hle.trans_lt hup)))
  have hright : ¬ scaled ((below + 1) * spacing) < i.high * pow10 gridPlaces := fun hhigh =>
    Bool.false_ne_true (hmissed'.symm.trans (holds_of_lt (hdown.trans_lt hlt) hhigh))
  rw [hstep] at hright
  exact hright ((Nat.add_le_add_right (Nat.not_lt.1 hleft) _).trans_lt h)

end Interval

section
variable {i : Interval} {tie : Tie} {places fuel count : Nat}

theorem firstHit_holds {d : Decimal} (h : firstHit i tie places fuel count = some d) :
    d.OnGrid ∧ i.holds d.gridPoint := by
  induction fuel generalizing count with
  | zero => cases h
  | succ fuel ih =>
    rw [firstHit] at h
    split at h
    · rename_i n hn
      cases h
      have hplace : (places - count : Nat) - (gridPlaces : Int) + gridPlaces = (places - count : Nat) := by omega
      constructor
      · simp only [Decimal.OnGrid, hplace]
        omega
      · simp only [Decimal.gridPoint, hplace, Int.toNat_natCast]
        exact Interval.holds_of_neighbour? hn
    · exact ih h

theorem firstHit_ne_none {n : Nat} (hn : count ≤ n) (hfuel : n < count + fuel)
    (h : i.neighbour? tie (pow10 (places - n)) ≠ none) : firstHit i tie places fuel count ≠ none := by
  induction fuel generalizing count with
  | zero => omega
  | succ fuel ih =>
    rw [firstHit]
    split
    · exact Option.some_ne_none _
    · rename_i hnone
      have hne : n ≠ count := by
        rintro rfl
        exact h hnone
      exact ih (by omega) (by omega)

end

/-! ## Seventeen digits -/

theorem pow10_le_of_length {n : Nat} (hn : n ≠ 0) : pow10 ((Nat.toDigits 10 n).length - 1) ≤ n := by
  rcases Nat.eq_zero_or_pos ((Nat.toDigits 10 n).length - 1) with hzero | hpos
  · rw [hzero]
    exact Nat.pos_of_ne_zero hn
  · have hfew := mt (Nat.length_toDigits_le_iff (b := 10) (n := n) (by decide) hpos).2 (by omega)
    exact Nat.not_lt.1 hfew

namespace Exact

variable {x : Exact}

/-- How many digits a double has down to the finest grid. -/
def places (x : Exact) : Nat := (Nat.toDigits 10 (x.units * pow10 gridPlaces / pow2 unitPlaces)).length

/-- Seventeen digits leave out less than a part in ten to the sixteenth. -/
theorem spacing_le (hm : x.mantissa ≠ 0) :
    pow10 (x.places - 17) * pow2 unitPlaces * pow10 16 ≤ x.units * pow10 gridPlaces := by
  have hunits : 0 < x.units := Nat.mul_pos (Nat.pos_of_ne_zero hm) (pow2_pos _)
  have hgrid : pow10 16 * pow2 unitPlaces ≤ pow10 gridPlaces := by decide +kernel
  have hpoints : pow10 16 ≤ x.units * pow10 gridPlaces / pow2 unitPlaces := by
    rw [Nat.le_div_iff_mul_le (pow2_pos _)]
    exact hgrid.trans (Nat.le_mul_of_pos_left _ hunits)
  have hmany : ¬ x.places ≤ 16 := by
    rw [places, Nat.length_toDigits_le_iff (by decide) (by decide)]
    exact Nat.not_lt.2 hpoints
  have hleast := pow10_le_of_length (Nat.ne_of_gt (Nat.lt_of_lt_of_le (pow10_pos 16) hpoints))
  have hsplit : pow10 (x.places - 1) = pow10 (x.places - 17) * pow10 16 := by
    rw [← pow10_add]
    congr 1
    omega
  calc pow10 (x.places - 17) * pow2 unitPlaces * pow10 16
      = pow10 (x.places - 1) * pow2 unitPlaces := by rw [hsplit, Nat.mul_right_comm]
    _ ≤ x.units * pow10 gridPlaces / pow2 unitPlaces * pow2 unitPlaces := Nat.mul_le_mul_right _ hleast
    _ ≤ x.units * pow10 gridPlaces := Nat.div_mul_le_self _ _

/-- Such a part of a mantissa is less than the interval is long, above a power of two as elsewhere. -/
theorem step_lt_length {m gap scale step low : Nat} (hm : m ≠ 0) (hgap : 0 < gap * scale)
    (hstep : step * 10000000000000000 ≤ m * (gap * scale))
    (hlow : m < 9007199254740992 ∧ low = 4 * (m * gap) - 2 * gap ∨
      m = 4503599627370496 ∧ low = 4 * (m * gap) - gap) :
    low * scale + 4 * step < (4 * (m * gap) + 2 * gap) * scale := by
  have hleast := Nat.mul_le_mul_right gap (show 1 ≤ m from Nat.pos_of_ne_zero hm)
  have hhigh : (4 * (m * gap) + 2 * gap) * scale = 4 * (m * (gap * scale)) + 2 * (gap * scale) := by ring
  rw [hhigh]
  rcases hlow with ⟨hfull, hlow⟩ | ⟨rfl, hlow⟩
  · have hmost := Nat.mul_le_mul_right (gap * scale) hfull.le
    have hlength : low * scale + 2 * (gap * scale) = 4 * (m * (gap * scale)) := by
      calc low * scale + 2 * (gap * scale) = (low + 2 * gap) * scale := by ring
        _ = 4 * (m * gap) * scale := by rw [show low + 2 * gap = 4 * (m * gap) by omega]
        _ = 4 * (m * (gap * scale)) := by ring
    omega
  · have hlength : low * scale + gap * scale = 4 * (4503599627370496 * (gap * scale)) := by
      calc low * scale + gap * scale = (low + gap) * scale := by ring
        _ = 4 * (4503599627370496 * gap) * scale := by
          rw [show low + gap = 4 * (4503599627370496 * gap) by omega]
        _ = 4 * (4503599627370496 * (gap * scale)) := by ring
    omega

/-- The grid of seventeen digits is finer than the interval is long. -/
theorem seventeen_digits (hx : x.Normal) (hm : x.mantissa ≠ 0) :
    x.interval.low * pow10 gridPlaces + Interval.scaled (pow10 (x.places - 17)) <
      x.interval.high * pow10 gridPlaces := by
  have hspacing := spacing_le hm
  rw [units, Nat.mul_assoc x.mantissa, show pow10 16 = 10000000000000000 from rfl] at hspacing
  have hlow : x.mantissa < 9007199254740992 ∧ x.interval.low = 4 * (x.mantissa * pow2 x.shift) - 2 * pow2 x.shift ∨
      x.mantissa = 4503599627370496 ∧ x.interval.low = 4 * (x.mantissa * pow2 x.shift) - pow2 x.shift :=
    (low_cases x).imp (fun h => ⟨hx.lt, h.2⟩) id
  rw [show Interval.scaled (pow10 (x.places - 17)) = 4 * (pow10 (x.places - 17) * pow2 unitPlaces) from
    Nat.mul_left_comm _ _ _]
  exact step_lt_length hm (Nat.mul_pos (pow2_pos _) (pow10_pos _)) hspacing hlow

theorem shortest_holds (tie : Tie) (hx : x.Normal) (hm : x.mantissa ≠ 0) :
    (shortest tie x).OnGrid ∧ x.interval.holds (shortest tie x).gridPoint := by
  have hgap := pow2_pos x.shift
  have hunits : 0 < x.units := Nat.mul_pos (Nat.pos_of_ne_zero hm) hgap
  have hlow : x.interval.low ≤ x.interval.value := by
    rw [units_eq]
    rcases low_cases x with ⟨-, hlow⟩ | ⟨-, hlow⟩ <;> omega
  have hhigh : x.interval.value < x.interval.high := by
    rw [units_eq, high_eq]
    omega
  have hspacing : 0 < Interval.scaled (pow10 (x.places - 17)) :=
    Nat.mul_pos (pow10_pos _) (Nat.mul_pos (by decide) (pow2_pos _))
  have hhit : firstHit x.interval tie x.places 17 1 ≠ none :=
    firstHit_ne_none (n := 17) (by decide) (by decide)
      (Interval.neighbour?_ne_none hspacing hlow hhigh (seventeen_digits hx hm))
  obtain ⟨d, hd⟩ := Option.ne_none_iff_exists'.1 hhit
  obtain ⟨hgrid, hholds⟩ := firstHit_holds hd
  obtain ⟨htrim, hpoint⟩ := Decimal.gridPoint_trim 20 hgrid
  have hshortest : shortest tie x = Decimal.trim 20 d := by
    rw [places] at hd
    simp only [shortest, if_neg hm, hd]
  rw [hshortest, hpoint]
  exact ⟨htrim, hholds⟩

end Exact

/-! ## Positional notation -/

theorem ofDigits_toDigits (n : Nat) : ofDigits (Nat.toDigits 10 n) = n := Nat.ofDigitChars_ten_toDigits

theorem ofDigits_append_zeros (cs : List Char) (n : Nat) :
    ofDigits (cs ++ List.replicate n '0') = ofDigits cs * pow10 n := by
  have h := Nat.ofDigitChars_append (b := 10) (l := cs) (m := List.replicate n '0') 0
  rw [Nat.ofDigitChars_replicate_zero, Nat.mul_comm] at h
  exact h

theorem ofDigits_zeros_append (n : Nat) (cs : List Char) :
    ofDigits (List.replicate n '0' ++ cs) = ofDigits cs := by
  have h := Nat.ofDigitChars_append (b := 10) (l := List.replicate n '0') (m := cs) 0
  rw [Nat.ofDigitChars_replicate_zero, Nat.mul_zero] at h
  exact h

/-- The text writes a point of the finest grid: digits, and more of them behind a decimal point. -/
inductive Writes : List Char → Nat → Prop
  | whole {digits : List Char} : digits ≠ [] → (∀ c ∈ digits, c.isDigit) →
      Writes digits (ofDigits digits * pow10 gridPlaces)
  | pointed {digits decimals : List Char} : digits ≠ [] → (∀ c ∈ digits, c.isDigit) →
      (∀ c ∈ decimals, c.isDigit) →
      Writes (digits ++ '.' :: decimals) (ofDigits (digits ++ decimals) * pow10 (gridPlaces - decimals.length))

namespace Writes

variable {cs : List Char} {point point' : Nat}

/-- A text writes one point. -/
theorem unique (h : Writes cs point) (h' : Writes cs point') : point = point' := by
  have hpoint : Char.isDigit '.' = false := rfl
  cases h with
  | whole hne hd =>
    generalize hcs : cs = text at h'
    cases h' with
    | whole _ _ => rfl
    | pointed _ _ _ =>
      subst hcs
      exact absurd (hd '.' (by simp)) (by decide)
  | @pointed digits decimals _ hd _ =>
    generalize hcs : digits ++ '.' :: decimals = text at h'
    cases h' with
    | whole _ hall =>
      subst hcs
      exact absurd (hall '.' (by simp)) (by decide)
    | @pointed digits' decimals' _ hd' _ =>
      have htake := congrArg (List.takeWhile Char.isDigit) hcs
      have hdrop := congrArg (List.dropWhile Char.isDigit) hcs
      simp only [List.takeWhile_append_of_pos hd, List.dropWhile_append_of_pos hd,
        List.takeWhile_append_of_pos hd', List.dropWhile_append_of_pos hd'] at htake hdrop
      simp only [List.takeWhile_cons, List.dropWhile_cons, hpoint] at htake hdrop
      simp_all

/-- It starts with a digit, and all else are digits and the point. -/
theorem chars (h : Writes cs point) :
    (∃ c ∈ cs.head?, c.isDigit = true) ∧ ∀ c ∈ cs, c.isDigit = true ∨ c = '.' := by
  cases h with
  | whole hne hd =>
    obtain ⟨c, rest, rfl⟩ := List.exists_cons_of_ne_nil hne
    exact ⟨⟨c, rfl, hd c List.mem_cons_self⟩, fun d hmem => .inl (hd d hmem)⟩
  | @pointed digits decimals hne hd hf =>
    obtain ⟨c, rest, rfl⟩ := List.exists_cons_of_ne_nil hne
    refine ⟨⟨c, rfl, hd c List.mem_cons_self⟩, fun d hmem => ?_⟩
    rcases List.mem_append.1 hmem with hmem | hmem
    · exact .inl (hd d hmem)
    · rcases List.mem_cons.1 hmem with rfl | hmem
      · exact .inr rfl
      · exact .inl (hf d hmem)

end Writes

theorem isDigit_of_mem_zeros {n : Nat} {c : Char} (h : c ∈ List.replicate n '0') : c.isDigit = true := by
  rw [List.eq_of_mem_replicate h]
  rfl

/-- Positional notation writes the decimal. -/
theorem Decimal.writes_positional {d : Decimal} (h : d.OnGrid) : Writes d.positional.toList d.gridPoint := by
  have hdigits : ∀ c ∈ Nat.toDigits 10 d.digits, c.isDigit = true := fun c hc =>
    Nat.isDigit_of_mem_toDigits (by decide) (by decide) hc
  have htext : d.text.toList = Nat.toDigits 10 d.digits := Nat.toList_repr
  have hpoint : d.point = (Nat.toDigits 10 d.digits).length + d.exponent := by
    rw [Decimal.point, ← htext, String.length_toList]
  unfold Decimal.OnGrid at h
  unfold Decimal.positional
  split
  · rename_i hexp
    have hwrites := @Writes.whole (Nat.toDigits 10 d.digits ++ List.replicate d.exponent.toNat '0')
      (by simp [Nat.toDigits_ne_nil]) (List.forall_mem_append.2 ⟨hdigits, fun _ => isDigit_of_mem_zeros⟩)
    rw [ofDigits_append_zeros, ofDigits_toDigits, Nat.mul_assoc, ← pow10_add] at hwrites
    have hplace : (d.exponent + gridPlaces).toNat = d.exponent.toNat + gridPlaces := by omega
    rwa [String.toList_append, htext, zeros, String.toList_ofList, Decimal.gridPoint, hplace]
  · rename_i hexp
    split
    · -- the point stands among the digits
      rename_i hinside
      have hsplit := List.take_append_drop d.point.toNat (Nat.toDigits 10 d.digits)
      have hwrites := @Writes.pointed ((Nat.toDigits 10 d.digits).take d.point.toNat)
        ((Nat.toDigits 10 d.digits).drop d.point.toNat)
        (by
          rw [Ne, List.take_eq_nil_iff]
          rintro (hzero | hnil)
          · omega
          · exact Nat.toDigits_ne_nil hnil)
        (fun c hc => hdigits c (List.mem_of_mem_take hc)) (fun c hc => hdigits c (List.mem_of_mem_drop hc))
      rw [hsplit, ofDigits_toDigits, List.length_drop] at hwrites
      have hplace : (d.exponent + gridPlaces).toNat =
          gridPlaces - ((Nat.toDigits 10 d.digits).length - d.point.toNat) := by omega
      rw [Decimal.gridPoint, hplace]
      simpa [htext] using hwrites
    · -- zeros stand between the point and the digits
      rename_i houtside
      have hwrites := @Writes.pointed ['0'] (List.replicate (-d.point).toNat '0' ++ Nat.toDigits 10 d.digits)
        (by simp) (by simp) (List.forall_mem_append.2 ⟨fun _ => isDigit_of_mem_zeros, hdigits⟩)
      have hleading := ofDigits_zeros_append ((-d.point).toNat + 1) (Nat.toDigits 10 d.digits)
      rw [List.replicate_succ, List.cons_append, ofDigits_toDigits, ← List.singleton_append] at hleading
      rw [hleading, List.length_append, List.length_replicate] at hwrites
      have hplace : (d.exponent + gridPlaces).toNat =
          gridPlaces - ((-d.point).toNat + (Nat.toDigits 10 d.digits).length) := by omega
      rw [Decimal.gridPoint, hplace]
      simpa [htext, zeros] using hwrites

/-! ## The text of a double -/

/-- What is written for a finite double without a sign rounds to it. -/
theorem writes_treeText {x : Float} (hx : x.toBits.toNat < topField * pow2 significandBits) :
    ∃ (n : Exact) (point : Nat), n.Normal ∧ n.bits = x.toBits.toNat ∧ Writes (treeText x).toList point ∧
      n.interval.holds point := by
  obtain ⟨n, hn, hsign, hnormal, hbits⟩ := Exact.bits_of_ofBits? hx
  have hfloat : Exact.ofFloat? x = some n := hn
  have hunsigned : n.sign = "" := by simp [Exact.sign, hsign]
  rw [treeText, wholeOrShortest, hfloat, Option.bind_some, Exact.whole?]
  by_cases hwhole : n.units % pow2 unitPlaces = 0
  · -- a whole number is in its own interval
    rw [if_pos hwhole]
    have hdigits : ∀ c ∈ Nat.toDigits 10 (n.units / pow2 unitPlaces), c.isDigit = true := fun c hc =>
      Nat.isDigit_of_mem_toDigits (by decide) (by decide) hc
    have hwrites := @Writes.pointed (Nat.toDigits 10 (n.units / pow2 unitPlaces)) ['0'] Nat.toDigits_ne_nil
      hdigits (by simp)
    have hzero := ofDigits_append_zeros (Nat.toDigits 10 (n.units / pow2 unitPlaces)) 1
    rw [List.replicate_one, ofDigits_toDigits] at hzero
    have hplace : 1 + (gridPlaces - ['0'].length) = gridPlaces := rfl
    rw [hzero, Nat.mul_assoc, ← pow10_add, hplace] at hwrites
    refine ⟨n, n.units / pow2 unitPlaces * pow10 gridPlaces, hnormal, hbits, ?_, n.holds_value ?_⟩
    · simpa [hunsigned] using hwrites
    · rw [Interval.scaled, Nat.mul_right_comm, Nat.mul_left_comm,
        Nat.div_mul_cancel (Nat.dvd_of_mod_eq_zero hwhole)]
  · have hm : n.mantissa ≠ 0 := by
      intro hzero
      rw [Exact.units, hzero, Nat.zero_mul, Nat.zero_mod] at hwhole
      exact hwhole rfl
    obtain ⟨hgrid, hholds⟩ := Exact.shortest_holds .up hnormal hm
    refine ⟨n, _, hnormal, hbits, ?_, hholds⟩
    simpa [if_neg hwhole, shortestText, hfloat, hunsigned] using Decimal.writes_positional hgrid

/-- Different finite doubles without a sign are written differently. -/
theorem treeText_injective {x y : Float} (hx : x.toBits.toNat < topField * pow2 significandBits)
    (hy : y.toBits.toNat < topField * pow2 significandBits) (h : treeText x = treeText y) : x = y := by
  obtain ⟨n, point, hn, hnbits, hnwrites, hnholds⟩ := writes_treeText hx
  obtain ⟨m, point', hm, hmbits, hmwrites, hmholds⟩ := writes_treeText hy
  rw [h] at hnwrites
  obtain rfl := hnwrites.unique hmwrites
  obtain ⟨hshift, hmantissa⟩ := Exact.eq_of_holds hn hm hnholds hmholds
  have hbits : x.toBits.toNat = y.toBits.toNat := by
    rw [← hnbits, ← hmbits, Exact.bits, Exact.bits, hshift, hmantissa]
  exact Float.toBits_inj.1 (UInt64.toNat_inj.1 hbits)

/-! ## Literals -/

open Float.Model.UnpackedFloat

/-- Bits up to those of infinity are kept. -/
theorem toNat_toBits_ofBits {b : Nat} (hb : b ≤ topField * pow2 significandBits) :
    (Float.ofBits b.toUInt64).toBits.toNat = b := by
  rw [topField, significand_eq] at hb
  have hword : b.toUInt64.toNat = b := Nat.mod_eq_of_lt (by omega)
  have hnumber : @isNaNBits .binary64 b.toUInt64.toBitVec = false := by
    rw [isNaNBits, decide_eq_false_iff_not, unpackExponent_def, unpackMantissa_def]
    rintro ⟨hexponent, hmantissa⟩
    have htop := congrArg BitVec.toNat hexponent
    have hrest := mt BitVec.eq_of_toNat_eq hmantissa
    have hvalue : b.toUInt64.toBitVec.toNat = b := hword
    simp only [BitVec.extractLsb'_toNat, hvalue, Nat.shiftRight_eq_div_pow, Nat.pow_zero, Nat.div_one] at htop hrest
    have hfield : b / 2 ^ 52 % 2 ^ 11 = 2047 := htop
    have hfraction : ¬ b % 2 ^ 52 = 0 := hrest
    omega
  have hkept := @pack_unpack .binary64 b.toUInt64.toBitVec (by decide)
  rw [hnumber] at hkept
  have hbits : (Float.ofBits b.toUInt64).toBits = b.toUInt64 := UInt64.toBitVec_inj.1 hkept
  rw [hbits, hword]

/-- The number of a literal has no sign, and is finite unless it is too large. -/
theorem toBits_ofDecimal_lt {whole fraction : List Char} (h : (ofDecimal whole fraction).isInf = false) :
    (ofDecimal whole fraction).toBits.toNat < topField * pow2 significandBits := by
  have hle : bitsOfRatio (ofDigits (whole ++ fraction)) (pow10 fraction.length) ≤ topField * pow2 significandBits :=
    Nat.min_le_right _ _
  rw [ofDecimal, ofRatio] at h ⊢
  rw [toNat_toBits_ofBits hle]
  refine Nat.lt_of_le_of_ne hle fun heq => ?_
  rw [heq] at h
  exact absurd h (by decide)

end Lox.Number
