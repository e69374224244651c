/-
Module: EvalCharts.Proofs.Gzip.Taking
Purpose: Decoders that take just the bits which stand for a value, whatever follows them. Steps put behind
  each other take the bits of both.
Main exports: Takes, Takes.bind, takes_number, bitsOf_cons, takes_storedBytes, takes_copy, takes_align
-/
import EvalCharts.Proofs.Gzip.Format

namespace EvalCharts.Gzip

/-- From a place behind so many bits, a decoder takes some bits, gives a value, and turns one output into
    another. Place, bits and rest fill whole bytes. -/
def Takes {α : Type} (position : Nat) (decoder : Decoder α) (bits : List Bool) (before : List UInt8)
    (value : α) (after : List UInt8) : Prop :=
  ∀ rest : List Bool, (position + bits.length + rest.length) % 8 = 0 →
    decoder.run ⟨bits ++ rest, before.toArray⟩ = .ok value ⟨rest, after.toArray⟩

theorem run_bind_of_ok {α β : Type} {decoder : Decoder α} {next : α → Decoder β} {state state' : State}
    {value : α} (h : decoder.run state = .ok value state') :
    (decoder >>= next).run state = (next value).run state' := by
  change EStateM.bind decoder next state = _
  unfold EStateM.bind
  rw [show decoder state = .ok value state' from h]
  rfl

namespace Takes

variable {α β : Type} {position : Nat} {bits bits' : List Bool} {before middle after : List UInt8}
  {value : α} {value' : β}

theorem pure (value : α) : Takes position (Pure.pure value) [] before value before :=
  fun _ _ => rfl

theorem bind {decoder : Decoder α} {next : α → Decoder β}
    (h : Takes position decoder bits before value middle)
    (hnext : Takes (position + bits.length) (next value) bits' middle value' after) :
    Takes position (decoder >>= next) (bits ++ bits') before value' after := by
  intro rest hwhole
  rw [List.length_append] at hwhole
  have hfirst := h (bits' ++ rest) (by rw [List.length_append]; omega)
  rw [List.append_assoc, run_bind_of_ok hfirst]
  exact hnext rest (by omega)

/-- A step that takes nothing may come last -/
theorem bind_nil {decoder : Decoder α} {next : α → Decoder β}
    (h : Takes position decoder bits before value middle)
    (hnext : Takes (position + bits.length) (next value) [] middle value' after) :
    Takes position (decoder >>= next) bits before value' after := by
  rw [← List.append_nil bits]
  exact h.bind hnext

theorem cons_bind {decoder : Decoder α} {next : α → Decoder β} {bit : Bool}
    (h : Takes position decoder [bit] before value middle)
    (hnext : Takes (position + 1) (next value) bits middle value' after) :
    Takes position (decoder >>= next) (bit :: bits) before value' after :=
  h.bind hnext

/-- or first. -/
theorem nil_bind {decoder : Decoder α} {next : α → Decoder β}
    (h : Takes position decoder [] before value middle)
    (hnext : Takes position (next value) bits middle value' after) :
    Takes position (decoder >>= next) bits before value' after :=
  h.bind hnext

theorem map {decoder : Decoder α} (f : α → β) (h : Takes position decoder bits before value after) :
    Takes position (decoder >>= fun value => Pure.pure (f value)) bits before (f value) after :=
  h.bind_nil (pure (f value))

end Takes

variable {position : Nat} {output : List UInt8}

theorem takes_bit (value : Bool) : Takes position bit [value] output value output :=
  fun _ _ => rfl

/-! ### Numbers -/

@[simp]
theorem length_lowFirst (width number : Nat) : (lowFirst width number).length = width := by
  induction width generalizing number with
  | zero => rfl
  | succ width ih => exact congrArg (· + 1) (ih (number / 2))

theorem takes_number {width value : Nat} (h : value < 2 ^ width) :
    Takes position (number width) (lowFirst width value) output value output := by
  induction width generalizing position value with
  | zero =>
      obtain rfl : value = 0 := by simpa using h
      exact Takes.pure 0
  | succ width ih =>
      have hhalf : value / 2 < 2 ^ width := by
        rw [Nat.pow_succ] at h
        omega
      have hsum : 2 * (value / 2) + (decide (value % 2 = 1)).toNat = value := by
        rcases Nat.mod_two_eq_zero_or_one value with hmod | hmod <;> simp [hmod] <;> omega
      unfold number lowFirst
      refine Takes.cons_bind (takes_bit (decide (value % 2 = 1))) ?_
      have hrest := (@ih (position + 1) _ hhalf).map fun high =>
        2 * high + (decide (value % 2 = 1)).toNat
      rw [hsum] at hrest
      exact hrest

/-! ### Bytes -/

theorem map_testBit (width number : Nat) :
    (List.range width).map (fun place => number.testBit place) = lowFirst width number := by
  induction width generalizing number with
  | zero => rfl
  | succ width ih =>
      rw [List.range_succ_eq_map, List.map_cons, List.map_map, Nat.testBit_zero, lowFirst, ← ih]
      refine congrArg (_ :: ·) (List.map_congr_left ?_)
      intro place _
      exact Nat.testBit_succ number place

theorem bitsOf_cons (byte : UInt8) (bytes : List UInt8) :
    bitsOf (byte :: bytes) = lowFirst 8 byte.toNat ++ bitsOf bytes := by
  rw [← map_testBit]
  rfl

theorem bitsOf_append (bytes more : List UInt8) :
    bitsOf (bytes ++ more) = bitsOf bytes ++ bitsOf more :=
  List.flatMap_append

theorem length_bitsOf (bytes : List UInt8) : (bitsOf bytes).length = 8 * bytes.length := by
  induction bytes with
  | nil => rfl
  | cons byte bytes ih =>
      rw [bitsOf_cons, List.length_append, length_lowFirst, ih, List.length_cons]
      omega

theorem takes_emit (byte : UInt8) : Takes position (emit byte) [] output () (output ++ [byte]) := by
  intro rest _
  change EStateM.Result.ok () (State.mk rest (output.toArray.push byte)) = _
  rw [List.push_toArray]

theorem takes_storedBytes (bytes : List UInt8) :
    Takes position (storedBytes bytes.length) (bitsOf bytes) output () (output ++ bytes) := by
  induction bytes generalizing position output with
  | nil =>
      rw [List.append_nil]
      exact Takes.pure ()
  | cons byte bytes ih =>
      have hbyte : UInt8.ofNat byte.toNat = byte := UInt8.ofNat_toNat
      rw [bitsOf_cons, List.append_cons]
      refine Takes.bind (takes_number byte.toNat_lt) ?_
      rw [hbyte]
      exact Takes.nil_bind (takes_emit byte) ih

theorem takes_copyByte {distance : Nat} (h : distance ≤ output.length) :
    Takes position (copyByte distance) [] output ()
      (output ++ [output.getD (output.length - distance) 0]) := by
  intro rest _
  change EStateM.Result.ok () (State.mk rest _) = _
  rw [List.size_toArray, if_pos h, List.push_toArray, List.getElem?_toArray]
  rfl

theorem takes_copy {distance : Nat} (length : Nat) (h : distance ≤ output.length) :
    Takes position (copy distance length) [] output () (extend distance length output) := by
  induction length generalizing output with
  | zero => exact Takes.pure ()
  | succ length ih =>
      have hnext : distance ≤ (output ++ [output.getD (output.length - distance) 0]).length := by
        rw [List.length_append]
        omega
      exact Takes.nil_bind (takes_copyByte h) (ih hnext)

/-! ### Alignment -/

theorem takes_align {padding : List Bool} (hshort : padding.length < 8)
    (haligned : (position + padding.length) % 8 = 0) :
    Takes position align padding output () output := by
  intro rest hwhole
  have hmod : (padding ++ rest).length % 8 = padding.length := by
    rw [List.length_append]
    omega
  change EStateM.Result.ok () (State.mk ((padding ++ rest).drop ((padding ++ rest).length % 8)) _) = _
  rw [hmod, List.drop_left]

end EvalCharts.Gzip
