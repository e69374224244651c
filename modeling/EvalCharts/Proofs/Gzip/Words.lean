/-
Module: EvalCharts.Proofs.Gzip.Words
Purpose: A code finds the symbol of each of its words. A word that has been read in part is the number of
  a string that begins with no shorter word, and the decoder keeps its place among those strings.
Main exports: taken_succ, IsComplete.fits, IsUsable.fits, takes_symbol, isComplete_ofLengths,
  size_ofLengths_le
-/
import EvalCharts.Proofs.Gzip.Taking

namespace EvalCharts.Gzip

/-! ### Strings that begin with a word -/

/-- Each string continues in two ways, and the words of the next length come in addition. -/
theorem taken_succ (lengths : List Nat) (width : Nat) :
    taken lengths (width + 1) = 2 * taken lengths width + lengths.count (width + 1) := by
  induction lengths with
  | nil => rfl
  | cons length lengths ih =>
      rw [taken, taken, ih, List.count_cons]
      by_cases hlast : length = width + 1
      · rw [if_pos (by omega), if_neg (by omega), if_pos (by simpa using hlast), hlast, Nat.sub_self]
        omega
      · by_cases hshort : 0 < length ∧ length ≤ width
        · have hsub : width + 1 - length = width - length + 1 := by omega
          rw [if_pos ⟨hshort.1, by omega⟩, if_pos hshort, hsub, Nat.pow_succ]
          rw [if_neg (by simpa using hlast)]
          omega
        · rw [if_neg (by omega), if_neg hshort, if_neg (by simpa using hlast)]
          omega

theorem taken_zero (lengths : List Nat) : taken lengths 0 = 0 := by
  induction lengths with
  | nil => rfl
  | cons length lengths ih =>
      rw [taken, ih, if_neg (by omega)]

/-- Longer strings begin with the same words, and with more. -/
theorem taken_mul_le (lengths : List Nat) (width more : Nat) :
    taken lengths width * 2 ^ more ≤ taken lengths (width + more) := by
  induction more with
  | zero => exact Nat.le_of_eq (Nat.mul_one _)
  | succ more ih =>
      rw [← Nat.add_assoc, taken_succ, Nat.pow_succ, ← Nat.mul_assoc]
      omega

/-- No more strings than there are begin with a word. -/
def Fits (lengths : List Nat) : Prop :=
  taken lengths PrefixCode.longest ≤ 2 ^ PrefixCode.longest

theorem IsComplete.fits {lengths : List Nat} (h : IsComplete lengths) : Fits lengths :=
  Nat.le_of_eq h

theorem taken_le_countP (lengths : List Nat) (width : Nat) :
    taken lengths width ≤ lengths.countP (0 < ·) * 2 ^ width := by
  induction lengths with
  | nil => exact Nat.zero_le _
  | cons length lengths ih =>
      have hpow : 2 ^ (width - length) ≤ 2 ^ width := Nat.pow_le_pow_right (by decide) (Nat.sub_le _ _)
      rw [taken, List.countP_cons]
      split
      · rename_i hlength
        rw [if_pos (by simpa using hlength.1), Nat.add_mul]
        omega
      · rw [Nat.add_mul]
        omega

theorem IsUsable.fits {lengths : List Nat} (h : IsUsable lengths) : Fits lengths := by
  rcases h with hcomplete | hsingle
  · exact hcomplete.fits
  · have hle := taken_le_countP lengths PrefixCode.longest
    have hmul := Nat.mul_le_mul_right (2 ^ PrefixCode.longest) hsingle
    rw [Nat.one_mul] at hmul
    exact Nat.le_trans hle hmul

theorem Fits.taken_le {lengths : List Nat} (h : Fits lengths) {width : Nat}
    (hwidth : width ≤ PrefixCode.longest) : taken lengths width ≤ 2 ^ width := by
  obtain ⟨more, hmore⟩ := Nat.exists_eq_add_of_le hwidth
  have hle := taken_mul_le lengths width more
  unfold Fits at h
  rw [← hmore] at hle
  rw [hmore, Nat.pow_add, ← hmore] at h
  exact Nat.le_of_mul_le_mul_right (Nat.le_trans hle h) (Nat.two_pow_pos more)

/-! ### Levels -/

/-- The symbols whose words have a length, in ascending order. -/
def level (lengths : List Nat) (length : Nat) : List Nat :=
  (lengths.zipIdx.filter fun entry => entry.1 == length).map Prod.snd

theorem ofLengths_eq (lengths : List Nat) :
    PrefixCode.ofLengths lengths = (List.range' 1 PrefixCode.longest).map (level lengths) := rfl

theorem length_level (lengths : List Nat) (length : Nat) :
    (level lengths length).length = lengths.count length := by
  unfold level
  generalize 0 = first
  induction lengths generalizing first with
  | nil => rfl
  | cons other lengths ih =>
      rw [List.zipIdx_cons, List.filter_cons, List.count_cons]
      dsimp only
      split
      · rw [List.map_cons, List.length_cons, ih]
      · rw [ih, Nat.add_zero]

/-- A symbol stands behind those before it whose words have the same length. -/
theorem getElem?_level {lengths : List Nat} {symbol length : Nat}
    (h : lengths[symbol]? = some length) :
    (level lengths length)[(lengths.take symbol).count length]? = some symbol := by
  suffices hfrom : ∀ first, (((lengths.zipIdx first).filter fun entry => entry.1 == length).map
      Prod.snd)[(lengths.take symbol).count length]? = some (first + symbol) by
    have hzero := hfrom 0
    rwa [Nat.zero_add] at hzero
  induction lengths generalizing symbol with
  | nil => cases h
  | cons other lengths ih =>
      intro first
      rw [List.zipIdx_cons, List.filter_cons]
      dsimp only
      cases symbol with
      | zero =>
          obtain rfl : other = length := by simpa using h
          rw [if_pos (beq_self_eq_true other)]
          rfl
      | succ symbol =>
          have hrest := ih h (first + 1)
          rw [List.take_succ_cons, List.count_cons, Nat.add_comm symbol 1, ← Nat.add_assoc]
          split
          · exact hrest
          · exact hrest

/-! ### Reading a word -/

theorem lowFirst_succ (width number : Nat) :
    lowFirst (width + 1) number = lowFirst width number ++ [decide (number / 2 ^ width % 2 = 1)] := by
  induction width generalizing number with
  | zero =>
      rw [Nat.pow_zero, Nat.div_one]
      rfl
  | succ width ih =>
      rw [lowFirst, ih, Nat.div_div_eq_div_mul, Nat.mul_comm 2, ← Nat.pow_succ]
      rfl

variable {position : Nat} {output : List UInt8}

theorem takes_symbolFrom_stop {level : List Nat} {deeper : PrefixCode} {offset symbol : Nat}
    {next : Bool} (h : level[2 * offset + next.toNat]? = some symbol) :
    Takes position (PrefixCode.symbolFrom (level :: deeper) offset) [next] output symbol output := by
  unfold PrefixCode.symbolFrom
  refine Takes.bind_nil (takes_bit next) ?_
  dsimp only
  rw [h]
  exact Takes.pure symbol

theorem takes_symbolFrom_next {level : List Nat} {deeper : PrefixCode} {offset symbol : Nat}
    {next : Bool} {bits : List Bool} (h : level.length ≤ 2 * offset + next.toNat)
    (hrest : Takes (position + 1)
      (PrefixCode.symbolFrom deeper (2 * offset + next.toNat - level.length)) bits output symbol output) :
    Takes position (PrefixCode.symbolFrom (level :: deeper) offset) (next :: bits) output symbol
      output := by
  unfold PrefixCode.symbolFrom
  refine Takes.cons_bind (takes_bit next) ?_
  dsimp only
  rw [List.getElem?_eq_none h]
  exact hrest

/-- The strings in front of which a string stands in its place, told from the string with one bit less. -/
theorem place_eq {number free missing : Nat} (h : free ≤ number / 2 ^ (missing + 1)) :
    2 * (number / 2 ^ (missing + 1) - free) + (decide (number / 2 ^ missing % 2 = 1)).toNat =
      number / 2 ^ missing - 2 * free := by
  have hhalf : number / 2 ^ (missing + 1) = number / 2 ^ missing / 2 := by
    rw [Nat.div_div_eq_div_mul, Nat.pow_succ]
  rw [hhalf] at h ⊢
  rcases Nat.mod_two_eq_zero_or_one (number / 2 ^ missing) with hmod | hmod
  · rw [hmod]
    simp only [Nat.zero_ne_one, decide_false, Bool.toNat_false]
    omega
  · rw [hmod]
    simp only [decide_true, Bool.toNat_true]
    omega

/-- Behind the first bits of a word, the decoder is at the place of those bits among the strings that begin
    with no shorter word. -/
theorem takes_symbolFrom {lengths : List Nat} {symbol length number : Nat}
    (hknown : lengths[symbol]? = some length)
    (hnumber : number = 2 * taken lengths (length - 1) + (lengths.take symbol).count length)
    (hlongest : length ≤ PrefixCode.longest) {width missing : Nat}
    (hwidth : width + (missing + 1) = length) :
    Takes position
      (PrefixCode.symbolFrom
        ((List.range' (width + 1) (PrefixCode.longest - width)).map (level lengths))
        (number / 2 ^ (missing + 1) - taken lengths width))
      (lowFirst (missing + 1) number).reverse output symbol output := by
  -- no word that ends within the first bits takes any of the strings from this word on
  have hfree : ∀ width missing, width + (missing + 1) = length →
      taken lengths width ≤ number / 2 ^ (missing + 1) := by
    intro width missing hwidth
    have hle := taken_mul_le lengths width missing
    have hlast : width + missing = length - 1 := by omega
    rw [hlast] at hle
    rw [Nat.le_div_iff_mul_le (Nat.two_pow_pos _), Nat.pow_succ, ← Nat.mul_assoc]
    omega
  have hplace := fun width missing hwidth => place_eq (hfree width missing hwidth)
  have hlevels : ∀ width < length,
      (List.range' (width + 1) (PrefixCode.longest - width)).map (level lengths) =
        level lengths (width + 1) ::
          (List.range' (width + 1 + 1) (PrefixCode.longest - (width + 1))).map (level lengths) := by
    intro width hlt
    have hsub : PrefixCode.longest - width = PrefixCode.longest - (width + 1) + 1 := by omega
    rw [hsub, List.range'_succ, List.map_cons]
  induction missing generalizing position width with
  | zero =>
      rw [hlevels width (by omega)]
      apply takes_symbolFrom_stop
      have hlast := hplace width 0 hwidth
      rw [Nat.pow_zero, Nat.div_one] at hlast
      rw [hlast]
      obtain rfl : length = width + 1 := by omega
      rw [hnumber, Nat.add_sub_cancel, Nat.add_sub_cancel_left]
      exact getElem?_level hknown
  | succ missing ih =>
      have hnext := hfree (width + 1) missing (by omega)
      have hsucc := taken_succ lengths width
      rw [hlevels width (by omega), lowFirst_succ, List.reverse_append]
      apply takes_symbolFrom_next
      · rw [hplace width (missing + 1) hwidth, length_level]
        omega
      · have hoffset : number / 2 ^ (missing + 1) - 2 * taken lengths width -
            lengths.count (width + 1) = number / 2 ^ (missing + 1) - taken lengths (width + 1) := by
          omega
        rw [hplace width (missing + 1) hwidth, length_level, hoffset]
        exact ih (by omega)

/-- A code finds the symbol of a word. -/
theorem takes_symbol {lengths : List Nat} {symbol : Nat} (hfits : Fits lengths)
    (hknown : 0 < wordLength lengths symbol)
    (hlongest : wordLength lengths symbol ≤ PrefixCode.longest) :
    Takes position (PrefixCode.ofLengths lengths).symbol (word lengths symbol) output symbol output := by
  have hlength : lengths[symbol]? = some (wordLength lengths symbol) := by
    unfold wordLength at hknown ⊢
    cases h : lengths[symbol]? with
    | none =>
        rw [h] at hknown
        cases hknown
    | some length => rfl
  unfold word PrefixCode.symbol
  dsimp only
  generalize wordLength lengths symbol = length at hknown hlongest hlength
  obtain ⟨width, rfl⟩ : ∃ width, length = width + 1 := ⟨length - 1, by omega⟩
  generalize hnumber : 2 * taken lengths (width + 1 - 1) + (lengths.take symbol).count (width + 1) =
    number
  -- the word is one of the strings of its length
  have hlt : number < 2 ^ (width + 1) := by
    have hplace := getElem?_level hlength
    have hcount := (List.getElem?_eq_some_iff.1 hplace).1
    have hsucc := taken_succ lengths width
    have hle := hfits.taken_le hlongest
    rw [length_level] at hcount
    rw [Nat.add_sub_cancel] at hnumber
    omega
  have hread : 0 = number / 2 ^ (width + 1) - taken lengths 0 := by
    rw [Nat.div_eq_of_lt hlt, Nat.zero_sub]
  rw [ofLengths_eq, hread]
  exact takes_symbolFrom hlength hnumber.symm hlongest (Nat.zero_add _)

/-! ### Complete codes -/

theorem share_levels (lengths : List Nat) (room width : Nat) :
    PrefixCode.share room ((List.range' (width + 1) room).map (level lengths)) +
      taken lengths width * 2 ^ room = taken lengths (width + room) := by
  induction room generalizing width with
  | zero =>
      change 0 + _ = _
      rw [Nat.zero_add, Nat.pow_zero, Nat.mul_one]
      rfl
  | succ room ih =>
      rw [List.range'_succ, List.map_cons, PrefixCode.share, length_level, Nat.add_sub_cancel,
        Nat.add_comm room 1, ← Nat.add_assoc, ← ih, taken_succ, Nat.add_mul, Nat.pow_add, Nat.pow_one,
        ← Nat.mul_assoc, Nat.mul_comm _ 2]
      omega

theorem isComplete_ofLengths {lengths : List Nat} (h : IsComplete lengths) :
    (PrefixCode.ofLengths lengths).isComplete = true := by
  have hshare := share_levels lengths PrefixCode.longest 0
  rw [taken_zero, Nat.zero_mul, Nat.add_zero, Nat.zero_add PrefixCode.longest] at hshare
  unfold PrefixCode.isComplete
  rw [ofLengths_eq, hshare, h]
  exact beq_self_eq_true _

theorem countP_succ (lengths : List Nat) (width : Nat) :
    lengths.count (width + 1) + lengths.countP (width + 1 < ·) = lengths.countP (width < ·) := by
  induction lengths with
  | nil => rfl
  | cons length lengths ih =>
      rw [List.count_cons, List.countP_cons, List.countP_cons, ← ih]
      by_cases heq : length = width + 1
      · rw [if_pos (by simpa using heq), if_neg (by simp; omega), if_pos (by simp; omega)]
        omega
      · rw [if_neg (by simpa using heq)]
        by_cases hlt : width + 1 < length
        · rw [if_pos (by simpa using hlt), if_pos (by simp; omega)]
          omega
        · rw [if_neg (by simpa using hlt), if_neg (by simp; omega)]
          omega

theorem length_levels_le (lengths : List Nat) (room width : Nat) :
    ((List.range' (width + 1) room).map (level lengths)).flatten.length ≤
      lengths.countP (width < ·) := by
  induction room generalizing width with
  | zero => exact Nat.zero_le _
  | succ room ih =>
      have hrest := ih (width + 1)
      rw [List.range'_succ, List.map_cons, List.flatten_cons, List.length_append, length_level,
        ← countP_succ]
      omega

theorem size_ofLengths_le (lengths : List Nat) :
    (PrefixCode.ofLengths lengths).size ≤ lengths.countP (0 < ·) :=
  length_levels_le lengths PrefixCode.longest 0

end EvalCharts.Gzip
