/-
Module: EvalCharts.Proofs.Double.RoundTrip
Purpose: Reading what is written gives back the same double, with the sign of a zero; every NaN is
  written and read as the one NaN.
Main exports: Decimal.magnitude_eq, Decimal.magnitude_congr, magnitude_shortest, unsigned?_positional,
  read_write, mem_write, not_mem_write
-/
import EvalCharts.Double.Shortest
import EvalCharts.Proofs.Double.Rounding

namespace EvalCharts.Double

/-! ### What a decimal is worth -/

theorem unitsOf_infinite {a : Nat} (ha : a = 1024) :
    unitsOf infiniteMagnitude = 2 ^ a * unitsInOne :=
  unitsOf_binade (k := 2046) (by omega)

/-- From this power of ten on, its reciprocal is less than half a unit. -/
theorem two_mul_unitsInOne_lt {e : Nat} (h : 324 ≤ e) : 2 * unitsInOne < 10 ^ e := by
  induction e, h using Nat.le_induction with
  | base => decide +kernel
  | succ e _ ih =>
      rw [Nat.pow_succ]
      omega

/-- From this power of ten on, it is beyond every finite double. -/
theorem two_pow_le_ten_pow {e a : Nat} (h : 310 ≤ e) (ha : a = 1024) : 2 ^ a ≤ 10 ^ e := by
  induction e, h using Nat.le_induction with
  | base =>
      rw [ha]
      decide +kernel
  | succ e _ ih =>
      rw [Nat.pow_succ]
      omega

namespace Decimal

/-- Cutting off decimals that are far too large or far too small does not change the magnitude. -/
theorem magnitude_eq (decimal : Decimal) :
    decimal.magnitude =
      nearestMagnitude (decimal.digits * 10 ^ decimal.exponent.toNat * unitsInOne)
        (10 ^ (-decimal.exponent).toNat) := by
  obtain ⟨digits, exponent⟩ := decimal
  unfold magnitude
  dsimp only
  by_cases h0 : digits = 0
  · rw [if_pos h0, h0, Nat.zero_mul, Nat.zero_mul, nearestMagnitude_zero (by positivity)]
  · rw [if_neg h0]
    by_cases hlarge : 309 < exponent
    · rw [if_pos hlarge]
      symm
      apply nearestMagnitude_of_le (by positivity)
      have hplaces : (-exponent).toNat = 0 := by omega
      -- a name for the exponent keeps its power from being computed
      obtain ⟨a, ha⟩ : ∃ a, a = 1024 := ⟨_, rfl⟩
      rw [unitsOf_infinite ha, hplaces, Nat.pow_zero, Nat.mul_one]
      apply Nat.mul_le_mul_right
      calc 2 ^ a ≤ 10 ^ exponent.toNat := two_pow_le_ten_pow (by omega) ha
        _ ≤ digits * 10 ^ exponent.toNat := Nat.le_mul_of_pos_left _ (by omega)
    · rw [if_neg hlarge]
      by_cases hsmall : exponent + (digits.log2 + 1 : Nat) < -323
      · rw [if_pos hsmall]
        symm
        apply nearestMagnitude_of_lt_half
        have hwhole : exponent.toNat = 0 := by omega
        have hplaces : digits.log2 + 1 ≤ (-exponent).toNat := by omega
        obtain ⟨j, hj⟩ := Nat.exists_eq_add_of_le hplaces
        rw [hwhole, Nat.pow_zero, Nat.mul_one, hj]
        calc 2 * (digits * unitsInOne) = digits * (2 * unitsInOne) := by ring
          _ ≤ 2 ^ (digits.log2 + 1) * (2 * unitsInOne) :=
              Nat.mul_le_mul_right _ Nat.lt_log2_self.le
          _ < 2 ^ (digits.log2 + 1) * 10 ^ j :=
              Nat.mul_lt_mul_of_pos_left (two_mul_unitsInOne_lt (by omega)) (Nat.two_pow_pos _)
          _ ≤ 10 ^ (digits.log2 + 1) * 10 ^ j :=
              Nat.mul_le_mul_right _ (Nat.pow_le_pow_left (by decide) _)
          _ = 10 ^ (digits.log2 + 1 + j) := (Nat.pow_add _ _ _).symm
      · rw [if_neg hsmall]

/-- Decimals of the same value have the same magnitude. -/
theorem magnitude_congr {decimal decimal' : Decimal}
    (h : decimal.digits * 10 ^ decimal.exponent.toNat * 10 ^ (-decimal'.exponent).toNat =
      decimal'.digits * 10 ^ decimal'.exponent.toNat * 10 ^ (-decimal.exponent).toNat) :
    decimal.magnitude = decimal'.magnitude := by
  rw [magnitude_eq, magnitude_eq]
  apply nearestMagnitude_congr (by positivity) (by positivity)
  rw [Nat.mul_right_comm, h, Nat.mul_right_comm]

end Decimal

theorem exactDecimal_eq {k : Nat} (hk : k = 1074) (units : Nat) :
    exactDecimal units = ⟨units * 5 ^ k, -k⟩ := by
  unfold exactDecimal
  rw [← hk, Decimal.mk.injEq]
  exact ⟨rfl, by omega⟩

/-- What a number of units is exactly worth reads back as their magnitude. -/
theorem magnitude_exactDecimal {m : Nat} (hm : m < infiniteMagnitude) :
    (exactDecimal (unitsOf m)).magnitude = m := by
  obtain ⟨k, hk⟩ : ∃ k, k = 1074 := ⟨_, rfl⟩
  have hten : 5 ^ k * unitsInOne = 10 ^ k := by
    rw [unitsInOne_eq_two_pow hk, ← Nat.mul_pow]
  have hwhole : (-(k : Int)).toNat = 0 := by omega
  have hplaces : (- -(k : Int)).toNat = k := by omega
  rw [exactDecimal_eq hk, Decimal.magnitude_eq]
  dsimp only
  rw [hwhole, hplaces, Nat.pow_zero, Nat.mul_one, Nat.mul_assoc, hten]
  exact nearestMagnitude_unitsOf hm.le (by positivity)

/-- The shortest decimal reads back. -/
theorem magnitude_shortest {m : Nat} (hm : m < infiniteMagnitude) :
    (shortest m).magnitude = m := by
  unfold shortest
  cases hfound : (List.range 17).findSome? fun (count : Nat) =>
      (neighbours (unitsOf m) (decade (unitsOf m) - count)).find? fun decimal =>
        decimal.magnitude == m with
  | none =>
      simp only [hfound, Option.getD_none]
      exact magnitude_exactDecimal hm
  | some decimal =>
      simp only [hfound, Option.getD_some]
      obtain ⟨count, -, hfind⟩ := List.exists_of_findSome?_eq_some hfound
      have hmagnitude := List.find?_some hfind
      rwa [beq_iff_eq] at hmagnitude

/-! ### Digits -/

/-- Only digits. -/
def AllDigits (text : List Char) : Prop :=
  ∀ c ∈ text, c.isDigit = true

theorem allDigits_toDigits (n : Nat) : AllDigits (Nat.toDigits 10 n) :=
  fun _ hc => Nat.isDigit_of_mem_toDigits (by decide) (by decide) hc

theorem splitDigits_append {digits : List Char} (h : AllDigits digits) (rest : List Char)
    (hrest : ∀ c ∈ rest.head?, c.isDigit = false) :
    splitDigits (digits ++ rest) = (digits, rest) := by
  unfold splitDigits
  rw [List.takeWhile_append_of_pos h, List.dropWhile_append_of_pos h]
  cases rest with
  | nil => simp
  | cons c rest =>
      have hc := hrest c rfl
      simp [hc]

theorem splitDigits_self {digits : List Char} (h : AllDigits digits) :
    splitDigits digits = (digits, []) := by
  have hsplit := splitDigits_append h [] (fun _ hc => by simp at hc)
  rwa [List.append_nil] at hsplit

/-- Digits with a point among them, unless none follow it. -/
def numeral (whole fraction : List Char) : List Char :=
  if fraction = [] then whole else whole ++ '.' :: fraction

/-- A numeral is read as its digits, scaled by the places behind its point. -/
theorem unsigned?_numeral {whole fraction : List Char} (hne : whole ≠ []) (hwhole : AllDigits whole)
    (hfraction : AllDigits fraction) :
    unsigned? (numeral whole fraction) =
      some ⟨Nat.ofDigitChars 10 (whole ++ fraction) 0, -fraction.length⟩ := by
  unfold numeral
  by_cases hnil : fraction = []
  · rw [if_pos hnil, hnil]
    unfold unsigned?
    rw [splitDigits_self hwhole]
    simp [fractionDigits, exponent?, hne]
  · rw [if_neg hnil]
    have hsplit := splitDigits_append hwhole ('.' :: fraction) (by simp)
    unfold unsigned?
    simp only [hsplit, fractionDigits, splitDigits_self hfraction]
    simp [exponent?, hne]

theorem ofDigitChars_lt {digits : List Char} (h : AllDigits digits) :
    Nat.ofDigitChars 10 digits 0 < 10 ^ digits.length := by
  induction digits with
  | nil => decide
  | cons c digits ih =>
      have htail := ih fun c hc => h c (List.mem_cons_of_mem _ hc)
      have hdigit : c.toNat - 48 ≤ 9 := by
        have hc := h c List.mem_cons_self
        simp only [Char.isDigit, Bool.and_eq_true, decide_eq_true_eq, UInt32.le_iff_toNat_le] at hc
        exact Nat.sub_le_of_le_add hc.2
      have hmul := Nat.mul_le_mul_left (10 ^ digits.length) hdigit
      rw [Nat.ofDigitChars_cons, Nat.ofDigitChars_eq_ofDigitChars_zero, List.length_cons, Nat.pow_succ]
      change 10 ^ digits.length * (0 + (c.toNat - 48)) + _ < _
      rw [Nat.zero_add]
      omega

theorem length_toDigits {n places : Nat} (hlow : 10 ^ places ≤ n) (hhigh : n < 10 ^ (places + 1)) :
    (Nat.toDigits 10 n).length = places + 1 := by
  have hle := (Nat.length_toDigits_le_iff (by decide) (Nat.succ_pos places)).2 hhigh
  cases places with
  | zero =>
      have hpos : 0 < (Nat.toDigits 10 n).length := Nat.length_toDigits_pos
      omega
  | succ places =>
      have hnot := mt (Nat.length_toDigits_le_iff (n := n) (b := 10) (by decide)
        (Nat.succ_pos places)).1 (by omega)
      omega

/-- Behind a leading one, the digits of a number fill up the places. -/
theorem toDigits_leading_one {places fraction : Nat} (h : fraction < 10 ^ places) :
    ((Nat.toDigits 10 (10 ^ places + fraction)).drop 1).length = places ∧
      Nat.ofDigitChars 10 ((Nat.toDigits 10 (10 ^ places + fraction)).drop 1) 0 = fraction := by
  have hlength : (Nat.toDigits 10 (10 ^ places + fraction)).length = places + 1 :=
    length_toDigits (by omega) (by rw [Nat.pow_succ]; omega)
  have hvalue := Nat.ofDigitChars_ten_toDigits (n := 10 ^ places + fraction)
  have hdigits := allDigits_toDigits (10 ^ places + fraction)
  cases htext : Nat.toDigits 10 (10 ^ places + fraction) with
  | nil => exact absurd htext Nat.toDigits_ne_nil
  | cons c digits =>
      rw [htext] at hlength hvalue hdigits
      have hlt := ofDigitChars_lt fun c hc => hdigits c (List.mem_cons_of_mem _ hc)
      have hplaces : digits.length = places := by simpa using hlength
      rw [Nat.ofDigitChars_cons, Nat.ofDigitChars_eq_ofDigitChars_zero, hplaces] at hvalue
      rw [hplaces] at hlt
      refine ⟨hplaces, ?_⟩
      -- the leading digit is the only multiple of the power that fits
      generalize 10 * 0 + (c.toNat - '0'.toNat) = leading at hvalue
      have hone : leading = 1 := by
        rcases Nat.lt_trichotomy leading 1 with hless | hone | hmore
        · rw [Nat.lt_one_iff.1 hless] at hvalue
          omega
        · exact hone
        · have hmul := Nat.mul_le_mul_left (10 ^ places) (Nat.succ_le_of_lt hmore)
          omega
      rw [hone] at hvalue
      change Nat.ofDigitChars 10 digits 0 = fraction
      omega

/-- Zeros at the end only scale the value of digits. -/
theorem fractionText_value {places fraction : Nat} (h : fraction < 10 ^ places) :
    ∃ zeros, (fractionText places fraction).length + zeros = places ∧
      AllDigits (fractionText places fraction) ∧
      fraction = Nat.ofDigitChars 10 (fractionText places fraction) 0 * 10 ^ zeros := by
  obtain ⟨hlength, hvalue⟩ := toDigits_leading_one h
  have hdigits := allDigits_toDigits (10 ^ places + fraction)
  unfold fractionText
  dsimp only
  generalize hpadded : (Nat.toDigits 10 (10 ^ places + fraction)).drop 1 = padded at hlength hvalue ⊢
  have hall : AllDigits padded := by
    intro c hc
    rw [← hpadded] at hc
    exact hdigits c (List.mem_of_mem_drop hc)
  have hzeros : padded.reverse.takeWhile (· == '0') =
      List.replicate (padded.reverse.takeWhile (· == '0')).length '0' := by
    rw [List.eq_replicate_iff]
    refine ⟨rfl, fun c hc => ?_⟩
    have hzero := List.all_eq_true.1 List.all_takeWhile c hc
    exact beq_iff_eq.1 hzero
  have hsplit : padded = (padded.reverse.dropWhile (· == '0')).reverse ++
      List.replicate (padded.reverse.takeWhile (· == '0')).length '0' := by
    rw [← List.reverse_replicate, ← hzeros, ← List.reverse_append, List.takeWhile_append_dropWhile,
      List.reverse_reverse]
  refine ⟨(padded.reverse.takeWhile (· == '0')).length, ?_, ?_, ?_⟩
  · rw [← hlength]
    conv_rhs => rw [hsplit]
    rw [List.length_append, List.length_replicate]
  · intro c hc
    apply hall
    rw [hsplit]
    exact List.mem_append_left _ hc
  · rw [← hvalue]
    conv_lhs => rw [hsplit]
    rw [Nat.ofDigitChars_append, Nat.ofDigitChars_replicate_zero, Nat.mul_comm]

/-! ### Positional notation -/

theorem positional_of_nonneg (digits : Nat) {exponent : Int} (h : 0 ≤ exponent) :
    positional ⟨digits, exponent⟩ = numeral (Nat.toDigits 10 (digits * 10 ^ exponent.toNat)) [] :=
  if_pos h

theorem positional_of_neg (digits : Nat) {exponent : Int} (h : ¬0 ≤ exponent) :
    positional ⟨digits, exponent⟩ =
      numeral (Nat.toDigits 10 (digits / 10 ^ (-exponent).toNat))
        (fractionText (-exponent).toNat (digits % 10 ^ (-exponent).toNat)) := by
  refine Eq.trans (if_neg h) ?_
  unfold numeral
  cases fractionText (-exponent).toNat (digits % 10 ^ (-exponent).toNat) with
  | nil => rfl
  | cons c fraction => rfl

/-- A decimal in positional notation is a numeral, and it is read as a decimal of the same value. -/
theorem unsigned?_positional (decimal : Decimal) :
    ∃ decimal', unsigned? (positional decimal) = some decimal' ∧
      decimal'.magnitude = decimal.magnitude := by
  obtain ⟨digits, exponent⟩ := decimal
  by_cases hexponent : 0 ≤ exponent
  · rw [positional_of_nonneg digits hexponent, unsigned?_numeral Nat.toDigits_ne_nil
      (allDigits_toDigits _) (fun _ hc => absurd hc List.not_mem_nil)]
    refine ⟨_, rfl, ?_⟩
    apply Decimal.magnitude_congr
    rw [List.append_nil, Nat.ofDigitChars_ten_toDigits]
    have hplaces : (-exponent).toNat = 0 := by omega
    simp [hplaces]
  · have hmod : digits % 10 ^ (-exponent).toNat < 10 ^ (-exponent).toNat := Nat.mod_lt _ (by positivity)
    obtain ⟨zeros, hzeros, hall, hvalue⟩ := fractionText_value hmod
    have hdiv := Nat.div_add_mod digits (10 ^ (-exponent).toNat)
    rw [positional_of_neg digits hexponent, unsigned?_numeral Nat.toDigits_ne_nil
      (allDigits_toDigits _) hall]
    refine ⟨_, rfl, ?_⟩
    apply Decimal.magnitude_congr
    dsimp only
    rw [Nat.ofDigitChars_append, Nat.ofDigitChars_ten_toDigits, Nat.ofDigitChars_eq_ofDigitChars_zero]
    generalize hfraction : fractionText (-exponent).toNat (digits % 10 ^ (-exponent).toNat) = fraction
      at hzeros hvalue ⊢
    generalize Nat.ofDigitChars 10 fraction 0 = value at hvalue ⊢
    have hwhole : exponent.toNat = 0 := by omega
    have hwhole' : (-(fraction.length : Int)).toNat = 0 := by omega
    have hplaces : (- -(fraction.length : Int)).toNat = fraction.length := by omega
    rw [hwhole, hwhole', hplaces]
    generalize digits / 10 ^ (-exponent).toNat = whole at hdiv ⊢
    rw [hvalue, ← hzeros, Nat.pow_add] at hdiv
    rw [← hdiv, ← hzeros, Nat.pow_add]
    ring

/-! ### Whole texts -/

theorem numeral_head {whole : List Char} (fraction : List Char) (hne : whole ≠ [])
    (hwhole : AllDigits whole) :
    ∃ c rest, numeral whole fraction = c :: rest ∧ c.isDigit = true := by
  cases whole with
  | nil => exact absurd rfl hne
  | cons c whole =>
      have hc := hwhole c List.mem_cons_self
      unfold numeral
      by_cases hnil : fraction = []
      · exact ⟨c, whole, if_pos hnil, hc⟩
      · exact ⟨c, whole ++ '.' :: fraction, if_neg hnil, hc⟩

theorem positional_head (decimal : Decimal) :
    ∃ c rest, positional decimal = c :: rest ∧ c.isDigit = true := by
  obtain ⟨digits, exponent⟩ := decimal
  by_cases hexponent : 0 ≤ exponent
  · rw [positional_of_nonneg digits hexponent]
    exact numeral_head _ Nat.toDigits_ne_nil (allDigits_toDigits _)
  · rw [positional_of_neg digits hexponent]
    exact numeral_head _ Nat.toDigits_ne_nil (allDigits_toDigits _)

theorem splitSign_of_isDigit {c : Char} (rest : List Char) (hc : c.isDigit = true) :
    splitSign (c :: rest) = (false, c :: rest) := by
  unfold splitSign
  split
  · rename_i heq
    rw [(List.cons.inj heq).1] at hc
    exact absurd hc (by decide)
  · rename_i heq
    rw [(List.cons.inj heq).1] at hc
    exact absurd hc (by decide)
  · rfl

/-- A positional decimal behind an optional minus is read as the double closest to it. -/
theorem read_positional (negative : Bool) (decimal : Decimal) :
    read (if negative then '-' :: positional decimal else positional decimal) =
      .ok (ofMagnitude negative decimal.magnitude) := by
  obtain ⟨decimal', hread, hmagnitude⟩ := unsigned?_positional decimal
  obtain ⟨c, rest, htext, hc⟩ := positional_head decimal
  rw [htext] at hread ⊢
  rw [← hmagnitude]
  cases negative with
  | true =>
      unfold read
      simp only [if_true, reduceCtorEq, if_false, splitSign, hread]
      rfl
  | false =>
      unfold read
      simp only [Bool.false_eq_true, if_false, reduceCtorEq, splitSign_of_isDigit rest hc, hread]
      rfl

theorem read_writeMagnitude (negative : Bool) {m : Nat} (hm : m ≤ infiniteMagnitude) :
    read (if negative then '-' :: writeMagnitude m else writeMagnitude m) =
      .ok (ofMagnitude negative m) := by
  unfold writeMagnitude
  by_cases h0 : m = 0
  · rw [if_pos h0, h0]
    cases negative <;> rfl
  · rw [if_neg h0]
    by_cases hlt : m < infiniteMagnitude
    · rw [if_pos hlt, read_positional, magnitude_shortest hlt]
    · rw [if_neg hlt, le_antisymm hm (Nat.le_of_not_lt hlt)]
      cases negative <;> rfl

/-- Reading what is written gives back the same double. -/
theorem read_write (x : Float) : read (write x) = .ok x := by
  unfold write
  cases hn : x.isNaN with
  | true =>
      have hread : read ['N', 'a', 'N'] = .ok (ofMagnitude false (infiniteMagnitude + 2 ^ 51)) := rfl
      rw [if_pos rfl, hread]
      exact congrArg Except.ok (eq_of_isNaN (by decide) hn)
  | false =>
      have hread := read_writeMagnitude (isNegative x) (magnitude_le hn)
      rw [ofMagnitude_eq hn] at hread
      exact hread

/-! ### The characters of a text -/

/-- The characters that stand in the text of a double beside digits. -/
def marks : List Char := ['-', '.', 'N', 'a', 'i', 'n', 'f']

theorem mem_numeral {whole fraction : List Char} (hwhole : AllDigits whole)
    (hfraction : AllDigits fraction) {c : Char} (h : c ∈ numeral whole fraction) :
    c.isDigit = true ∨ c ∈ marks := by
  unfold numeral at h
  split at h
  · exact Or.inl (hwhole c h)
  · rcases List.mem_append.1 h with h | h
    · exact Or.inl (hwhole c h)
    · rcases List.mem_cons.1 h with rfl | h
      · exact Or.inr (by decide)
      · exact Or.inl (hfraction c h)

theorem mem_positional {decimal : Decimal} {c : Char} (h : c ∈ positional decimal) :
    c.isDigit = true ∨ c ∈ marks := by
  obtain ⟨digits, exponent⟩ := decimal
  by_cases hexponent : 0 ≤ exponent
  · rw [positional_of_nonneg digits hexponent] at h
    exact mem_numeral (allDigits_toDigits _) (by simp [AllDigits]) h
  · have hmod : digits % 10 ^ (-exponent).toNat < 10 ^ (-exponent).toNat := Nat.mod_lt _ (by positivity)
    obtain ⟨_, -, hfraction, -⟩ := fractionText_value hmod
    rw [positional_of_neg digits hexponent] at h
    exact mem_numeral (allDigits_toDigits _) hfraction h

theorem mem_writeMagnitude {m : Nat} {c : Char} (h : c ∈ writeMagnitude m) :
    c.isDigit = true ∨ c ∈ marks := by
  unfold writeMagnitude at h
  split at h
  · rw [List.mem_singleton.1 h]
    decide
  · split at h
    · exact mem_positional h
    · simp only [List.mem_cons, List.not_mem_nil, or_false] at h
      rcases h with rfl | rfl | rfl <;> decide

/-- The text of a double is made of digits and a few marks. -/
theorem mem_write {x : Float} {c : Char} (h : c ∈ write x) : c.isDigit = true ∨ c ∈ marks := by
  unfold write at h
  split at h
  · simp only [List.mem_cons, List.not_mem_nil, or_false] at h
    rcases h with rfl | rfl | rfl <;> decide
  · split at h
    · rcases List.mem_cons.1 h with rfl | h
      · decide
      · exact mem_writeMagnitude h
    · exact mem_writeMagnitude h

/-- No separator stands in the text of a double. -/
theorem not_mem_write {c : Char} (h : (c.isDigit || marks.contains c) = false) (x : Float) :
    c ∉ write x := by
  intro hmem
  simp only [Bool.or_eq_false_iff, List.contains_eq_mem, decide_eq_false_iff_not] at h
  rcases mem_write hmem with hdigit | hmark
  · rw [h.1] at hdigit
    exact absurd hdigit Bool.false_ne_true
  · exact h.2 hmark

end EvalCharts.Double
