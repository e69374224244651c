/-
Module: EvalCharts.Proofs.Table.Utf8
Purpose: Decoding undoes the encoding of characters as UTF-8, and an ASCII byte of an encoded text stands
  for itself.
Main exports: encode, decodeFrom_char, decode_encode, utf8EncodeChar_ascii, le_of_mem_utf8EncodeChar
-/
import EvalCharts.Table.Utf8

namespace EvalCharts.Utf8

/-- The bytes of a text. -/
def encode (text : List Char) : List UInt8 :=
  text.flatMap String.utf8EncodeChar

theorem encode_cons (c : Char) (text : List Char) :
    encode (c :: text) = String.utf8EncodeChar c ++ encode text := rfl

theorem encode_append (text text' : List Char) :
    encode (text ++ text') = encode text ++ encode text' :=
  List.flatMap_append

theorem toNat_ofNat {n : Nat} (h : n < 256) : (UInt8.ofNat n).toNat = n := by
  rw [UInt8.toNat_ofNat']
  exact Nat.mod_eq_of_lt h

theorem toNat_val_lt (c : Char) :
    c.val.toNat < 0xD800 ∨ 0xDFFF < c.val.toNat ∧ c.val.toNat < 0x110000 := by
  exact c.valid

/-! ### Reading one character -/

theorem decodeFrom_ascii {n : Nat} (h : n < 0x80) (rest : List UInt8) (valid : Nat) :
    decodeFrom (UInt8.ofNat n :: rest) valid none =
      (decodeFrom rest (valid + 1) none).map fun chars => Char.ofNat n :: chars := by
  rw [decodeFrom]
  simp only [toNat_ofNat (show n < 256 by omega), lead?, if_pos h, if_true]

theorem decodeFrom_lead {byte : UInt8} {pending : Pending} (h : lead? byte.toNat = some pending)
    (howed : pending.owed ≠ 0) (rest : List UInt8) (valid : Nat) :
    decodeFrom (byte :: rest) valid none = decodeFrom rest valid (some (pending, 1)) := by
  rw [decodeFrom]
  simp only [h, if_neg howed]

theorem decodeFrom_follow {byte : UInt8} {pending next : Pending}
    (h : pending.follow? byte.toNat = some next) (howed : next.owed ≠ 0) (rest : List UInt8)
    (valid taken : Nat) :
    decodeFrom (byte :: rest) valid (some (pending, taken)) =
      decodeFrom rest valid (some (next, taken + 1)) := by
  rw [decodeFrom]
  simp only [h, if_neg howed]

theorem decodeFrom_last {byte : UInt8} {pending next : Pending}
    (h : pending.follow? byte.toNat = some next) (howed : next.owed = 0) (rest : List UInt8)
    (valid taken : Nat) :
    decodeFrom (byte :: rest) valid (some (pending, taken)) =
      (decodeFrom rest (valid + (taken + 1)) none).map fun chars => Char.ofNat next.code :: chars := by
  rw [decodeFrom]
  simp only [h, if_pos howed]

theorem follow?_eq (pending : Pending) (n : Nat) (h : pending.least ≤ n + 0x80)
    (h' : n + 0x80 ≤ pending.greatest) (hn : n + 0x80 < 256) :
    pending.follow? (UInt8.ofNat (n + 0x80)).toNat =
      some ⟨pending.owed - 1, 0x80, 0xBF, pending.code * 64 + n⟩ := by
  unfold Pending.follow?
  rw [toNat_ofNat hn, if_pos ⟨h, h'⟩, Nat.add_sub_cancel]

theorem lead?_two {n : Nat} (h : 2 ≤ n) (h' : n < 0x20) :
    lead? (UInt8.ofNat (n + 0xc0)).toNat = some ⟨1, 0x80, 0xBF, n⟩ := by
  rw [toNat_ofNat (by omega), lead?, if_neg (by omega), if_neg (by omega), if_pos (by omega),
    Nat.add_sub_cancel]

theorem lead?_three {n : Nat} (h : n < 0x10) :
    lead? (UInt8.ofNat (n + 0xe0)).toNat =
      some ⟨2, if n = 0 then 0xA0 else 0x80, if n = 0xD then 0x9F else 0xBF, n⟩ := by
  have hfirst : n + 0xe0 = 0xE0 ↔ n = 0 := by omega
  have hlast : n + 0xe0 = 0xED ↔ n = 0xD := by omega
  rw [toNat_ofNat (by omega), lead?, if_neg (by omega), if_neg (by omega), if_neg (by omega),
    if_pos (by omega), Nat.add_sub_cancel]
  simp only [hfirst, hlast]

theorem lead?_four {n : Nat} (h : n < 5) :
    lead? (UInt8.ofNat (n + 0xf0)).toNat =
      some ⟨3, if n = 0 then 0x90 else 0x80, if n = 4 then 0x8F else 0xBF, n⟩ := by
  have hfirst : n + 0xf0 = 0xF0 ↔ n = 0 := by omega
  have hlast : n + 0xf0 = 0xF4 ↔ n = 4 := by omega
  rw [toNat_ofNat (by omega), lead?, if_neg (by omega), if_neg (by omega), if_neg (by omega),
    if_neg (by omega), if_pos (by omega), Nat.add_sub_cancel]
  simp only [hfirst, hlast]

/-- An encoded character is read back, whatever follows it. -/
theorem decodeFrom_char (c : Char) (rest : List UInt8) (valid : Nat) :
    decodeFrom (String.utf8EncodeChar c ++ rest) valid none =
      (decodeFrom rest (valid + (String.utf8EncodeChar c).length) none).map fun chars =>
        c :: chars := by
  have hvalid := toNat_val_lt c
  have hself : Char.ofNat c.val.toNat = c := Char.ofNat_toNat c
  unfold String.utf8EncodeChar
  generalize c.val.toNat = n at hvalid hself ⊢
  dsimp only
  by_cases h1 : n ≤ 0x7f
  · rw [if_pos h1]
    refine (decodeFrom_ascii (by omega) rest valid).trans ?_
    rw [hself]
    rfl
  · rw [if_neg h1]
    by_cases h2 : n ≤ 0x7ff
    · have hlow : n / 64 < 0x20 := by omega
      rw [if_pos h2, Nat.mod_eq_of_lt hlow]
      have hlead := lead?_two (n := n / 64) (by omega) (by omega)
      have hlast := follow?_eq ⟨1, 0x80, 0xBF, n / 64⟩ (n % 0x40)
        (Nat.le_add_left _ _) (by dsimp only; omega) (by omega)
      refine (decodeFrom_lead hlead Nat.one_ne_zero _ valid).trans ?_
      refine (decodeFrom_last hlast rfl rest valid 1).trans ?_
      have hcode : n / 64 * 64 + n % 0x40 = n := by omega
      rw [hcode, hself]
      rfl
    · rw [if_neg h2]
      by_cases h3 : n ≤ 0xffff
      · have hlow : n / 4096 < 0x10 := by omega
        rw [if_pos h3, Nat.mod_eq_of_lt hlow]
        have hlead := lead?_three (n := n / 4096) (by omega)
        -- the bounds of the second byte hold because the character is neither short nor a surrogate
        have hnext := follow?_eq ⟨2, if n / 4096 = 0 then 0xA0 else 0x80,
          if n / 4096 = 0xD then 0x9F else 0xBF, n / 4096⟩ (n / 64 % 0x40)
          (by dsimp only; split <;> omega) (by dsimp only; split <;> omega) (by omega)
        have hlast := follow?_eq ⟨1, 0x80, 0xBF, n / 4096 * 64 + n / 64 % 0x40⟩
          (n % 0x40) (Nat.le_add_left _ _) (by dsimp only; omega) (by omega)
        refine (decodeFrom_lead hlead (Nat.succ_ne_zero 1) _ valid).trans ?_
        refine (decodeFrom_follow hnext Nat.one_ne_zero _ valid 1).trans ?_
        refine (decodeFrom_last hlast rfl rest valid 2).trans ?_
        have hcode : (n / 4096 * 64 + n / 64 % 0x40) * 64 + n % 0x40 = n := by omega
        rw [hcode, hself]
        rfl
      · have hlow : n / 262144 < 8 := by omega
        rw [if_neg h3, Nat.mod_eq_of_lt hlow]
        have hlead := lead?_four (n := n / 262144) (by omega)
        have hnext := follow?_eq ⟨3, if n / 262144 = 0 then 0x90 else 0x80,
          if n / 262144 = 4 then 0x8F else 0xBF, n / 262144⟩ (n / 4096 % 0x40)
          (by dsimp only; split <;> omega) (by dsimp only; split <;> omega) (by omega)
        have hnext' := follow?_eq ⟨2, 0x80, 0xBF, n / 262144 * 64 + n / 4096 % 0x40⟩
          (n / 64 % 0x40) (Nat.le_add_left _ _) (by dsimp only; omega) (by omega)
        have hlast := follow?_eq ⟨1, 0x80, 0xBF,
          (n / 262144 * 64 + n / 4096 % 0x40) * 64 + n / 64 % 0x40⟩
          (n % 0x40) (Nat.le_add_left _ _) (by dsimp only; omega) (by omega)
        refine (decodeFrom_lead hlead (Nat.succ_ne_zero 2) _ valid).trans ?_
        refine (decodeFrom_follow hnext (Nat.succ_ne_zero 1) _ valid 1).trans ?_
        refine (decodeFrom_follow hnext' Nat.one_ne_zero _ valid 2).trans ?_
        refine (decodeFrom_last hlast rfl rest valid 3).trans ?_
        have hcode :
            ((n / 262144 * 64 + n / 4096 % 0x40) * 64 + n / 64 % 0x40) * 64 + n % 0x40 = n := by
          omega
        rw [hcode, hself]
        rfl

/-! ### Reading a text -/

theorem decodeFrom_encode (text : List Char) (valid : Nat) :
    decodeFrom (encode text) valid none = .ok text := by
  induction text generalizing valid with
  | nil => rfl
  | cons c text ih => rw [encode_cons, decodeFrom_char, ih, Except.map]

/-- Decoding undoes encoding. -/
theorem decode_encode (text : List Char) : decode (encode text) = .ok text :=
  decodeFrom_encode text 0

/-! ### ASCII bytes -/

theorem utf8EncodeChar_ascii {c : Char} (h : c.val.toNat ≤ 0x7f) :
    String.utf8EncodeChar c = [UInt8.ofNat c.val.toNat] :=
  if_pos h

/-- The bytes of a character beyond ASCII are beyond ASCII. -/
theorem le_of_mem_utf8EncodeChar {c : Char} (h : ¬c.val.toNat ≤ 0x7f) {byte : UInt8}
    (hmem : byte ∈ String.utf8EncodeChar c) : 0x80 ≤ byte.toNat := by
  have hbyte : ∀ n, 0x80 ≤ n → n < 256 → byte = UInt8.ofNat n → 0x80 ≤ byte.toNat := by
    intro n hle hlt heq
    rw [heq, toNat_ofNat hlt]
    exact hle
  unfold String.utf8EncodeChar at hmem
  generalize c.val.toNat = n at h hmem
  dsimp only at hmem
  rw [if_neg h] at hmem
  split at hmem
  · simp only [List.mem_cons, List.not_mem_nil, or_false] at hmem
    rcases hmem with heq | heq <;> exact hbyte _ (by omega) (by omega) heq
  · split at hmem
    · simp only [List.mem_cons, List.not_mem_nil, or_false] at hmem
      rcases hmem with heq | heq | heq <;> exact hbyte _ (by omega) (by omega) heq
    · simp only [List.mem_cons, List.not_mem_nil, or_false] at hmem
      rcases hmem with heq | heq | heq | heq <;> exact hbyte _ (by omega) (by omega) heq

end EvalCharts.Utf8
