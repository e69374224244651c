/-
Module: EvalCharts.Proofs.Gzip.Header
Purpose: A valid header is skipped as a whole, whichever of its optional parts are there, and what is
  skipped at the beginning of a file is skipped whatever follows the file.
Main exports: skipHeader_front, skipHeader_append
-/
import EvalCharts.Gzip.Member
import EvalCharts.Proofs.Gzip.Format
import EvalCharts.Proofs.Results

namespace EvalCharts.Gzip

/-! ### Parts -/

/-- A part that is skipped if it is announced. -/
def skipPart (announced : Bool) (skip : List UInt8 → Except Fault (List UInt8)) (rest : List UInt8) :
    Except Fault (List UInt8) :=
  if announced then skip rest else .ok rest

theorem skipPart_bind (announced : Bool) (skip : List UInt8 → Except Fault (List UInt8))
    (rest : List UInt8) (next : List UInt8 → Except Fault (List UInt8)) :
    (skipPart announced skip rest >>= next) =
      if announced then skip rest >>= next else pure rest >>= next := by
  cases announced <;> rfl

/-- The optional parts, which stand at the end of the header of a file. -/
def skipParts (flags : Nat) (file rest : List UInt8) : Except Fault (List UInt8) :=
  skipPart (flags.testBit 2) skipCounted rest >>= fun rest =>
    skipPart (flags.testBit 3) skipText rest >>= fun rest =>
      skipPart (flags.testBit 4) skipText rest >>= fun rest =>
        skipPart (flags.testBit 1) (skipHeaderChecksum (file.take (file.length - rest.length))) rest

/-- The part that every header has. -/
def opening (flags : UInt8) (remarks : List UInt8) : List UInt8 :=
  [0x1F, 0x8B, 8, flags] ++ remarks

theorem skipHeader_opening {flags : UInt8} {remarks : List UInt8} (h : remarks.length = 6)
    (rest : List UInt8) :
    skipHeader (opening flags remarks ++ rest) =
      skipParts flags.toNat (opening flags remarks ++ rest) rest := by
  match remarks, h with
  | [_, _, _, _, _, _], _ =>
      simp only [skipParts, skipPart_bind]
      rfl

/-- What is skipped begins like a header. -/
theorem exists_opening {file body : List UInt8} (h : skipHeader file = .ok body) :
    ∃ flags remarks rest, remarks.length = 6 ∧ file = opening flags remarks ++ rest := by
  unfold skipHeader at h
  split at h
  · rename_i first second method flags _ _ _ _ _ _ rest
    by_cases hmagic : first ≠ 0x1F ∨ second ≠ 0x8B ∨ method ≠ 8
    · dsimp only at h
      rw [if_pos hmagic] at h
      cases h
    · simp only [not_or, ne_eq, Decidable.not_not] at hmagic
      obtain ⟨rfl, rfl, rfl⟩ := hmagic
      exact ⟨flags, [_, _, _, _, _, _], rest, rfl, rfl⟩
  · cases h

/-! ### What follows a header -/

/-- What is skipped is skipped whatever follows it. -/
def Persists (skip : List UInt8 → Except Fault (List UInt8)) : Prop :=
  ∀ ⦃rest rest' : List UInt8⦄ (tail : List UInt8), skip rest = .ok rest' →
    skip (rest ++ tail) = .ok (rest' ++ tail)

theorem persists_skipPart {skip : List UInt8 → Except Fault (List UInt8)} (h : Persists skip)
    (announced : Bool) : Persists (skipPart announced skip) := by
  intro rest rest' tail hskip
  unfold skipPart at hskip ⊢
  cases announced with
  | true => exact h tail hskip
  | false =>
      cases hskip
      rfl

theorem persists_skipCounted : Persists skipCounted := by
  intro rest rest' tail hskip
  unfold skipCounted at hskip ⊢
  split at hskip
  · rename_i low high rest
    dsimp only [List.cons_append] at hskip ⊢
    split at hskip
    · rename_i hle
      cases hskip
      rw [if_pos (by rw [List.length_append]; omega), List.drop_append_of_le_length hle]
    · cases hskip
  · cases hskip

theorem persists_skipText : Persists skipText := by
  intro rest rest' tail hskip
  induction rest with
  | nil => cases hskip
  | cons byte rest ih =>
      rw [List.cons_append]
      unfold skipText at hskip ⊢
      split at hskip
      · rename_i hzero
        cases hskip
        rw [if_pos hzero]
      · rename_i hzero
        rw [if_neg hzero]
        exact ih hskip

theorem persists_skipHeaderChecksum (header : List UInt8) : Persists (skipHeaderChecksum header) := by
  intro rest rest' tail hskip
  unfold skipHeaderChecksum at hskip ⊢
  split at hskip
  · dsimp only [List.cons_append]
    split at hskip
    · rename_i hchecksum
      cases hskip
      rw [if_pos hchecksum]
    · cases hskip
  · cases hskip

theorem skipParts_append {flags : Nat} {file rest body : List UInt8} (tail : List UInt8)
    (h : skipParts flags file rest = .ok body) :
    skipParts flags (file ++ tail) (rest ++ tail) = .ok (body ++ tail) := by
  unfold skipParts at h ⊢
  obtain ⟨rest₁, hextra, h⟩ := bind_eq_ok_iff.1 h
  obtain ⟨rest₂, hname, h⟩ := bind_eq_ok_iff.1 h
  obtain ⟨rest₃, hcomment, h⟩ := bind_eq_ok_iff.1 h
  rw [persists_skipPart persists_skipCounted _ tail hextra, ok_bind_eq,
    persists_skipPart persists_skipText _ tail hname, ok_bind_eq,
    persists_skipPart persists_skipText _ tail hcomment, ok_bind_eq]
  have hheader : (file ++ tail).take ((file ++ tail).length - (rest₃ ++ tail).length) =
      file.take (file.length - rest₃.length) := by
    rw [List.length_append, List.length_append, Nat.add_sub_add_right,
      List.take_append_of_le_length (Nat.sub_le _ _)]
  rw [hheader]
  exact persists_skipPart (persists_skipHeaderChecksum _) _ tail h

/-- What follows a header does not matter for skipping it. -/
theorem skipHeader_append {file body : List UInt8} (h : skipHeader file = .ok body)
    (tail : List UInt8) : skipHeader (file ++ tail) = .ok (body ++ tail) := by
  obtain ⟨flags, remarks, rest, hremarks, rfl⟩ := exists_opening h
  rw [skipHeader_opening hremarks] at h
  rw [List.append_assoc, skipHeader_opening hremarks, ← List.append_assoc]
  exact skipParts_append tail h

/-! ### Valid headers -/

theorem littleEndian_two (number : Nat) :
    ∃ low high : UInt8, littleEndian 2 number = [low, high] ∧
      low.toNat + 256 * high.toNat = number % 2 ^ 16 := by
  refine ⟨UInt8.ofNat (number % 256), UInt8.ofNat (number / 256 % 256), rfl, ?_⟩
  rw [UInt8.toNat_ofNat', UInt8.toNat_ofNat']
  omega

theorem skipCounted_append {part : List UInt8} (h : part.length < 2 ^ 16) (rest : List UInt8) :
    skipCounted (littleEndian 2 part.length ++ part ++ rest) = .ok rest := by
  obtain ⟨low, high, hbytes, hnumber⟩ := littleEndian_two part.length
  rw [Nat.mod_eq_of_lt h] at hnumber
  rw [hbytes, List.append_assoc]
  change (if low.toNat + 256 * high.toNat ≤ (part ++ rest).length then
    Except.ok ((part ++ rest).drop (low.toNat + 256 * high.toNat)) else _) = _
  rw [hnumber, List.length_append, if_pos (Nat.le_add_right _ _), List.drop_left]

theorem skipText_append {part : List UInt8} (h : 0 ∉ part) (rest : List UInt8) :
    skipText (part ++ [0] ++ rest) = .ok rest := by
  induction part with
  | nil => rfl
  | cons byte part ih =>
      simp only [List.mem_cons, not_or] at h
      change (if byte = 0 then _ else skipText (part ++ [0] ++ rest)) = _
      rw [if_neg (Ne.symm h.1), ih h.2]

theorem skipHeaderChecksum_append (header rest : List UInt8) :
    skipHeaderChecksum header (littleEndian 2 (checksum header) ++ rest) = .ok rest := by
  obtain ⟨low, high, hbytes, hnumber⟩ := littleEndian_two (checksum header)
  rw [hbytes]
  change (if checksum header % 2 ^ 16 = low.toNat + 256 * high.toNat then _ else _) = _
  rw [if_pos hnumber.symm]
  rfl

namespace Front

variable (front : Front)

theorem skipPart_counted (rest : List UInt8) :
    skipPart front.extra?.isSome skipCounted (counted front.extra? ++ rest) = .ok rest := by
  cases hextra : front.extra? with
  | none => rfl
  | some extra => exact skipCounted_append (front.extra_length extra hextra) rest

theorem skipPart_ended {part? : Option (List UInt8)} (h : ∀ part ∈ part?, 0 ∉ part)
    (rest : List UInt8) : skipPart part?.isSome skipText (ended part? ++ rest) = .ok rest := by
  cases part? with
  | none => rfl
  | some part => exact skipText_append (h part rfl) rest

/-- The flags announce just the parts that are there. -/
theorem testBit_flags :
    front.flags.testBit 1 = front.isChecked ∧ front.flags.testBit 2 = front.extra?.isSome ∧
      front.flags.testBit 3 = front.name?.isSome ∧ front.flags.testBit 4 = front.comment?.isSome := by
  unfold flags
  cases front.isText <;> cases front.isChecked <;> cases front.extra?.isSome <;>
    cases front.name?.isSome <;> cases front.comment?.isSome <;> decide

theorem toNat_flags : (UInt8.ofNat front.flags).toNat = front.flags := by
  unfold flags
  cases front.isText <;> cases front.isChecked <;> cases front.extra?.isSome <;>
    cases front.name?.isSome <;> cases front.comment?.isSome <;> rfl

theorem skipPart_checked (header rest : List UInt8) :
    skipPart front.isChecked (skipHeaderChecksum header)
      ((if front.isChecked then littleEndian 2 (checksum header) else []) ++ rest) = .ok rest := by
  cases front.isChecked with
  | false => rfl
  | true => exact skipHeaderChecksum_append header rest

theorem bytes_append (rest : List UInt8) :
    front.bytes ++ rest =
      opening (UInt8.ofNat front.flags) front.remarks ++
        (counted front.extra? ++ (ended front.name? ++ (ended front.comment? ++
          ((if front.isChecked then littleEndian 2 (checksum front.unchecked) else []) ++ rest)))) := by
  simp only [bytes, unchecked, opening, List.append_assoc]

end Front

/-- A valid header is skipped as a whole. -/
theorem skipHeader_front (front : Front) (rest : List UInt8) :
    skipHeader (front.bytes ++ rest) = .ok rest := by
  obtain ⟨hchecked, hextra, hname, hcomment⟩ := front.testBit_flags
  have hunchecked : (front.bytes ++ rest).take ((front.bytes ++ rest).length -
      ((if front.isChecked then littleEndian 2 (checksum front.unchecked) else []) ++ rest).length) =
        front.unchecked := by
    rw [Front.bytes, List.append_assoc, List.length_append, Nat.add_sub_cancel, List.take_left]
  rw [front.bytes_append, skipHeader_opening front.remarks_length, ← front.bytes_append, skipParts,
    front.toNat_flags, hchecked, hextra, hname, hcomment, front.skipPart_counted, ok_bind_eq,
    Front.skipPart_ended front.name_text, ok_bind_eq, Front.skipPart_ended front.comment_text, ok_bind_eq,
    hunchecked]
  exact front.skipPart_checked front.unchecked rest

end EvalCharts.Gzip
