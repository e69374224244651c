/-
Module: EvalCharts.Proofs.Gzip.Locality
Purpose: A decoder that succeeds has not looked at what follows the bits that it took: it succeeds in the
  same way when whole bytes are put behind them, and when it is given more fuel.
Main exports: Extends, Extends.bind, extends_blocks, extends_member
-/
import EvalCharts.Gzip.Member
import Mathlib.Algebra.Group.Nat.Defs

namespace EvalCharts.Gzip

/-- A state with more bits at the end of its stream. -/
def State.followedBy (state : State) (tail : List Bool) : State :=
  { state with bits := state.bits ++ tail }

/-- What the first decoder makes of a stream, the second one makes of it with whole bytes behind it. -/
def Extends {α : Type} (decoder decoder' : Decoder α) : Prop :=
  ∀ ⦃state state' : State⦄ ⦃value : α⦄ ⦃tail : List Bool⦄, tail.length % 8 = 0 →
    decoder.run state = .ok value state' →
    decoder'.run (state.followedBy tail) = .ok value (state'.followedBy tail)

namespace Extends

variable {α β : Type}

theorem pure (value : α) : Extends (Pure.pure value) (Pure.pure value) := by
  intro state state' value' tail _ h
  cases h
  rfl

theorem throw {decoder : Decoder α} (fault : Fault) : Extends (MonadExcept.throw fault) decoder := by
  intro state state' value tail _ h
  cases h

theorem throw_bind {decoder : Decoder β} (fault : Fault) (next : α → Decoder β) :
    Extends (MonadExcept.throw fault >>= next) decoder := by
  intro state state' value tail _ h
  cases h

theorem bind {decoder decoder' : Decoder α} {next next' : α → Decoder β} (h : Extends decoder decoder')
    (hnext : ∀ value, Extends (next value) (next' value)) :
    Extends (decoder >>= next) (decoder' >>= next') := by
  intro state state' value tail htail hrun
  change EStateM.bind decoder next state = _ at hrun
  change EStateM.bind decoder' next' _ = _
  unfold EStateM.bind at hrun ⊢
  cases hfirst : decoder state with
  | error fault middle =>
      rw [hfirst] at hrun
      cases hrun
  | ok middleValue middle =>
      rw [hfirst] at hrun
      have hfirst' : decoder' (state.followedBy tail) = .ok middleValue (middle.followedBy tail) :=
        h htail hfirst
      rw [hfirst']
      exact hnext middleValue htail hrun

theorem ite {condition : Prop} [Decidable condition] {first first' second second' : Decoder α}
    (hfirst : Extends first first') (hsecond : Extends second second') :
    Extends (if condition then first else second) (if condition then first' else second') := by
  split
  · exact hfirst
  · exact hsecond

end Extends

/-! ### Bits and bytes -/

theorem extends_bit : Extends bit bit := by
  intro state state' value tail _ h
  obtain ⟨bits, output⟩ := state
  cases bits with
  | nil => cases h
  | cons first bits =>
      cases h
      rfl

theorem extends_number (width : Nat) : Extends (number width) (number width) := by
  induction width with
  | zero => exact Extends.pure 0
  | succ width ih =>
      apply Extends.bind extends_bit
      intro low
      apply Extends.bind ih
      intro high
      exact Extends.pure _

theorem extends_align : Extends align align := by
  intro state state' value tail htail h
  obtain ⟨bits, output⟩ := state
  cases h
  have hlength : (bits ++ tail).length % 8 = bits.length % 8 := by
    rw [List.length_append]
    omega
  change EStateM.Result.ok () (State.mk ((bits ++ tail).drop ((bits ++ tail).length % 8)) output) = _
  rw [hlength, List.drop_append_of_le_length (Nat.mod_le _ _)]
  rfl

theorem extends_emit (byte : UInt8) : Extends (emit byte) (emit byte) := by
  intro state state' value tail _ h
  cases h
  rfl

theorem extends_copy (distance length : Nat) : Extends (copy distance length) (copy distance length) := by
  induction length with
  | zero => exact Extends.pure ()
  | succ length ih =>
      apply Extends.bind
      · intro state state' value tail _ h
        cases h
        rfl
      · intro _
        exact ih

/-! ### Blocks -/

theorem extends_storedBytes (count : Nat) : Extends (storedBytes count) (storedBytes count) := by
  induction count with
  | zero => exact Extends.pure ()
  | succ count ih =>
      apply Extends.bind (extends_number 8)
      intro byte
      apply Extends.bind (extends_emit _)
      intro _
      exact ih

theorem extends_storedBlock : Extends storedBlock storedBlock := by
  apply Extends.bind extends_align
  intro _
  apply Extends.bind (extends_number 16)
  intro length
  apply Extends.bind (extends_number 16)
  intro inverted
  exact Extends.ite (extends_storedBytes length) (Extends.throw _)

theorem extends_symbolFrom (code : PrefixCode) (offset : Nat) :
    Extends (PrefixCode.symbolFrom code offset) (PrefixCode.symbolFrom code offset) := by
  induction code generalizing offset with
  | nil => exact Extends.throw _
  | cons level deeper ih =>
      apply Extends.bind extends_bit
      intro next
      dsimp only
      split
      · exact Extends.pure _
      · exact ih _

theorem extends_rangedValue (ranges : List (Nat × Nat)) (symbol : Nat) :
    Extends (rangedValue ranges symbol) (rangedValue ranges symbol) := by
  unfold rangedValue
  split
  · exact Extends.throw _
  · apply Extends.bind (extends_number _)
    intro excess
    exact Extends.pure _

theorem extends_compressedSymbols (literals distances : PrefixCode) {fuel fuel' : Nat}
    (hfuel : fuel ≤ fuel') :
    Extends (compressedSymbols literals distances fuel) (compressedSymbols literals distances fuel') := by
  induction fuel generalizing fuel' with
  | zero => exact Extends.throw _
  | succ fuel ih =>
      obtain ⟨fuel', rfl⟩ : ∃ more, fuel' = more + 1 := ⟨fuel' - 1, by omega⟩
      have hrest := ih (Nat.le_of_succ_le_succ hfuel)
      apply Extends.bind (extends_symbolFrom literals 0)
      intro symbol
      apply Extends.ite (Extends.pure ())
      apply Extends.ite
      · apply Extends.bind (extends_emit _)
        intro _
        exact hrest
      · apply Extends.bind (extends_rangedValue _ _)
        intro length
        apply Extends.bind (extends_symbolFrom distances 0)
        intro distance
        apply Extends.bind (extends_rangedValue _ _)
        intro distance
        apply Extends.bind (extends_copy _ _)
        intro _
        exact hrest

theorem extends_numbers (width count : Nat) : Extends (numbers width count) (numbers width count) := by
  induction count with
  | zero => exact Extends.pure []
  | succ count ih =>
      apply Extends.bind (extends_number width)
      intro first
      apply Extends.bind ih
      intro rest
      exact Extends.pure _

theorem extends_wordLengths (code : PrefixCode) (wanted fuel : Nat) (lengths : List Nat) :
    Extends (wordLengths code wanted fuel lengths) (wordLengths code wanted fuel lengths) := by
  induction fuel generalizing lengths with
  | zero => exact Extends.throw _
  | succ fuel ih =>
      unfold wordLengths
      apply Extends.ite (Extends.pure _)
      apply Extends.ite (Extends.throw _)
      apply Extends.bind (extends_symbolFrom code 0)
      intro symbol
      have hmore : ∀ more : List Nat, Extends
          (Pure.pure more >>= fun more => wordLengths code wanted fuel (lengths ++ more))
          (Pure.pure more >>= fun more => wordLengths code wanted fuel (lengths ++ more)) := by
        intro more
        apply Extends.bind (Extends.pure more)
        intro more
        exact ih _
      apply Extends.ite (hmore [symbol])
      apply Extends.ite
      · apply Extends.bind (extends_number 2)
        intro count
        split
        · exact Extends.throw_bind _ _
        · exact hmore _
      · apply Extends.ite
        · exact Extends.bind (extends_number 3) fun _ => hmore _
        · exact Extends.bind (extends_number 7) fun _ => hmore _

theorem extends_describedCode (lengths : List Nat) :
    Extends (describedCode lengths) (describedCode lengths) := by
  unfold describedCode
  dsimp only
  exact Extends.ite (Extends.pure _) (Extends.throw _)

theorem extends_describedCodes : Extends describedCodes describedCodes := by
  apply Extends.bind (extends_number 5)
  intro literalCount
  apply Extends.bind (extends_number 5)
  intro distanceCount
  apply Extends.bind (extends_number 4)
  intro lengthCount
  apply Extends.bind (extends_numbers 3 _)
  intro given
  dsimp only
  apply Extends.ite (Extends.throw_bind _ _)
  apply Extends.bind (extends_wordLengths _ _ _ [])
  intro lengths
  apply Extends.bind (extends_describedCode _)
  intro literals
  apply Extends.bind (extends_describedCode _)
  intro distances
  exact Extends.pure (literals, distances)

theorem extends_block {fuel fuel' : Nat} (hfuel : fuel ≤ fuel') :
    Extends (block fuel) (block fuel') := by
  unfold block
  apply Extends.bind (extends_number 2)
  intro kind
  split
  · exact extends_storedBlock
  · exact extends_compressedSymbols _ _ hfuel
  · apply Extends.bind extends_describedCodes
    intro codes
    exact extends_compressedSymbols _ _ hfuel
  · exact Extends.throw _

theorem extends_blocks {bitCount bitCount' fuel fuel' : Nat} (hcount : bitCount ≤ bitCount')
    (hfuel : fuel ≤ fuel') : Extends (blocks bitCount fuel) (blocks bitCount' fuel') := by
  induction fuel generalizing fuel' with
  | zero => exact Extends.throw _
  | succ fuel ih =>
      obtain ⟨fuel', rfl⟩ : ∃ more, fuel' = more + 1 := ⟨fuel' - 1, by omega⟩
      apply Extends.bind extends_bit
      intro last
      apply Extends.bind (extends_block hcount)
      intro _
      exact Extends.ite (Extends.pure ()) (ih (Nat.le_of_succ_le_succ hfuel))

/-! ### Members -/

/-- The last step of a member: the output is compared with what is announced. -/
def comparison (announcedChecksum announcedLength : Nat) : Decoder Unit := do
  let content := (← get).output
  if checksum content.toList ≠ announcedChecksum then throw .wrongChecksum
  if content.size % 2 ^ 32 ≠ announcedLength then throw .wrongLength

theorem member_eq (bitCount : Nat) :
    member bitCount =
      blocks bitCount bitCount >>= fun _ => align >>= fun _ => number 32 >>= fun announcedChecksum =>
        number 32 >>= fun announcedLength => comparison announcedChecksum announcedLength := rfl

theorem run_comparison (announcedChecksum announcedLength : Nat) (state : State) :
    (comparison announcedChecksum announcedLength).run state =
      if checksum state.output.toList ≠ announcedChecksum then .error .wrongChecksum state
      else if state.output.size % 2 ^ 32 ≠ announcedLength then .error .wrongLength state
      else .ok () state := by
  change (if checksum state.output.toList ≠ announcedChecksum then (_ : Decoder Unit) else _) state = _
  split
  · rfl
  · split <;> rfl

theorem extends_comparison (announcedChecksum announcedLength : Nat) :
    Extends (comparison announcedChecksum announcedLength)
      (comparison announcedChecksum announcedLength) := by
  intro state state' value tail _ h
  rw [run_comparison] at h ⊢
  change (if checksum state.output.toList ≠ announcedChecksum then _
    else if state.output.size % 2 ^ 32 ≠ announcedLength then _ else _) = _
  split at h
  · cases h
  · rename_i hchecksum
    split at h
    · cases h
    · rename_i hlength
      cases h
      rw [if_neg hchecksum, if_neg hlength]

theorem extends_member {bitCount bitCount' : Nat} (h : bitCount ≤ bitCount') :
    Extends (member bitCount) (member bitCount') := by
  rw [member_eq, member_eq]
  apply Extends.bind (extends_blocks h h)
  intro _
  apply Extends.bind extends_align
  intro _
  apply Extends.bind (extends_number 32)
  intro announcedChecksum
  apply Extends.bind (extends_number 32)
  intro announcedLength
  exact extends_comparison announcedChecksum announcedLength

end EvalCharts.Gzip
