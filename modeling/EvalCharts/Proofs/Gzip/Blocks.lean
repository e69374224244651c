/-
Module: EvalCharts.Proofs.Gzip.Blocks
Purpose: Every valid sequence of blocks is decoded to the content that it stands for.
Main exports: Readable, Symbols.takes, Lengths.takes, Described.takes, Block.takes, Blocks.takes
-/
import EvalCharts.Proofs.Gzip.Words

namespace EvalCharts.Gzip

variable {position : Nat} {output : List UInt8}

/-! ### Codes that can be read -/

/-- A code with words that differ from each other and are not too long. -/
structure Readable (lengths : List Nat) : Prop where
  fits : Fits lengths
  short : ∀ length ∈ lengths, length ≤ PrefixCode.longest

theorem Readable.takes_symbol {lengths : List Nat} (h : Readable lengths) {symbol : Nat}
    (hknown : 0 < wordLength lengths symbol) :
    Takes position (PrefixCode.ofLengths lengths).symbol (word lengths symbol) output symbol output := by
  refine Gzip.takes_symbol h.fits hknown ?_
  unfold wordLength at hknown ⊢
  cases hlength : lengths[symbol]? with
  | none => exact Nat.zero_le _
  | some length => exact h.short length (List.mem_of_getElem? hlength)

theorem length_word (lengths : List Nat) (symbol : Nat) :
    (word lengths symbol).length = wordLength lengths symbol := by
  unfold word
  dsimp only
  rw [List.length_reverse, length_lowFirst]

theorem readable_fixedLiterals : Readable fixedLiteralLengths :=
  ⟨by unfold Fits; decide +kernel, by decide +kernel⟩

theorem readable_fixedDistances : Readable fixedDistanceLengths :=
  ⟨by unfold Fits; decide +kernel, by decide +kernel⟩

/-! ### Content -/

theorem takes_rangedValue {ranges : List (Nat × Nat)} {place least width excess : Nat}
    (hrange : ranges[place]? = some (least, width)) (hfits : excess < 2 ^ width) :
    Takes position (rangedValue ranges place) (lowFirst width excess) output (least + excess) output := by
  unfold rangedValue
  rw [hrange]
  exact (takes_number hfits).map fun excess => least + excess

/-- Symbols up to the end of a block turn the output as they say. Each of them takes a bit at least, so
    the fuel lasts. -/
theorem Symbols.takes {literals distances : List Nat} {before after : List UInt8} {bits : List Bool}
    (h : Symbols literals distances before bits after) (hliterals : Readable literals)
    (hdistances : Readable distances) {fuel : Nat} (hfuel : bits.length ≤ fuel) :
    Takes position
      (compressedSymbols (PrefixCode.ofLengths literals) (PrefixCode.ofLengths distances) fuel) bits
      before () after := by
  induction h generalizing position fuel with
  | stop known =>
      rw [length_word] at hfuel
      obtain ⟨fuel, rfl⟩ : ∃ fuel', fuel = fuel' + 1 := ⟨fuel - 1, by omega⟩
      unfold compressedSymbols
      refine Takes.bind_nil (hliterals.takes_symbol known) ?_
      rw [if_pos rfl]
      exact Takes.pure ()
  | literal byte known rest ih =>
      rw [List.length_append, length_word] at hfuel
      obtain ⟨fuel, rfl⟩ : ∃ fuel', fuel = fuel' + 1 := ⟨fuel - 1, by omega⟩
      have hlt : byte.toNat < endOfBlock := byte.toNat_lt
      have hbyte : UInt8.ofNat byte.toNat = byte := UInt8.ofNat_toNat
      unfold compressedSymbols
      refine Takes.bind (hliterals.takes_symbol known) ?_
      rw [if_neg (Nat.ne_of_lt hlt), if_pos hlt, hbyte]
      exact Takes.nil_bind (takes_emit byte) (ih (by omega))
  | repetition hlength hdistance inside rest ih =>
      obtain ⟨lengthRange, lengthFits, lengthKnown⟩ := hlength
      obtain ⟨distanceRange, distanceFits, distanceKnown⟩ := hdistance
      rename_i lengthPlace _ _ _ distancePlace _ _ _
      simp only [List.length_append, length_word] at hfuel
      obtain ⟨fuel, rfl⟩ : ∃ fuel', fuel = fuel' + 1 := ⟨fuel - 1, by omega⟩
      unfold compressedSymbols
      rw [List.append_assoc, List.append_assoc]
      refine Takes.bind (hliterals.takes_symbol lengthKnown) ?_
      rw [if_neg (by omega), if_neg (by omega), Nat.add_sub_cancel_left]
      refine Takes.bind (takes_rangedValue lengthRange lengthFits) ?_
      rw [Nat.zero_add] at distanceKnown ⊢
      refine Takes.bind (hdistances.takes_symbol distanceKnown) ?_
      refine Takes.bind (takes_rangedValue distanceRange distanceFits) ?_
      exact Takes.nil_bind (takes_copy _ inside) (ih (by omega))

/-! ### Descriptions of codes -/

namespace Lengths

variable {alphabet given all : List Nat} {bits : List Bool}

/-- What has been given is kept. -/
theorem given_prefix (h : Lengths alphabet given bits all) : given <+: all := by
  induction h with
  | stop => exact List.prefix_refl _
  | single length small known rest ih => exact (List.prefix_append _ _).trans ih
  | again excess small known before rest ih => exact (List.prefix_append _ _).trans ih
  | zeros excess small known rest ih => exact (List.prefix_append _ _).trans ih
  | manyZeros excess small known rest ih => exact (List.prefix_append _ _).trans ih

theorem lt_sixteen (h : Lengths alphabet given bits all) (hgiven : ∀ length ∈ given, length < 16) :
    ∀ length ∈ all, length < 16 := by
  induction h with
  | stop => exact hgiven
  | single length small known rest ih =>
      exact ih (List.forall_mem_append.2 ⟨hgiven, List.forall_mem_singleton.2 small⟩)
  | again excess small known before rest ih =>
      have hbefore := hgiven _ (List.mem_of_getLast? before)
      exact ih (List.forall_mem_append.2 ⟨hgiven, List.forall_mem_replicate.2 (.inr hbefore)⟩)
  | zeros excess small known rest ih =>
      exact ih (List.forall_mem_append.2 ⟨hgiven, List.forall_mem_replicate.2 (.inr (by decide))⟩)
  | manyZeros excess small known rest ih =>
      exact ih (List.forall_mem_append.2 ⟨hgiven, List.forall_mem_replicate.2 (.inr (by decide))⟩)

end Lengths

/-- The word lengths that a symbol adds to those given. -/
def added (given : List Nat) (symbol : Nat) : Decoder (List Nat) :=
  if symbol < 16 then return [symbol]
  else if symbol = 16 then do
    let count ← number 2
    match given.getLast? with
    | none => throw .damaged
    | some length => return List.replicate (3 + count) length
  else if symbol = 17 then do
    let count ← number 3
    return List.replicate (3 + count) 0
  else do
    let count ← number 7
    return List.replicate (11 + count) 0

theorem wordLengths_succ {code : PrefixCode} {wanted : Nat} (fuel : Nat) {given : List Nat}
    (h : given.length < wanted) :
    wordLengths code wanted (fuel + 1) given =
      code.symbol >>= fun symbol => added given symbol >>= fun more =>
        wordLengths code wanted fuel (given ++ more) := by
  rw [wordLengths, if_neg (by omega), if_neg (by omega)]
  refine congrArg (code.symbol >>= ·) (funext fun symbol => ?_)
  unfold added
  split
  · rfl
  · split
    · rw [bind_assoc]
      refine congrArg (number 2 >>= ·) (funext fun count => ?_)
      cases given.getLast? <;> rfl
    · split <;> rw [bind_assoc]

/-- One symbol of a description, and the rest of it. -/
theorem takes_wordLengths {alphabet given more all : List Nat} {symbol fuel : Nat}
    {moreBits bits : List Bool} (halphabet : Readable alphabet)
    (hknown : 0 < wordLength alphabet symbol)
    (hmore : ∀ position, Takes position (added given symbol) moreBits output more output)
    (hne : more ≠ []) (hrest : Lengths alphabet (given ++ more) bits all)
    (hfuel : all.length < given.length + fuel)
    (ih : ∀ {position fuel}, all.length < (given ++ more).length + fuel →
      Takes position (wordLengths (PrefixCode.ofLengths alphabet) all.length fuel (given ++ more)) bits
        output all output) :
    Takes position (wordLengths (PrefixCode.ofLengths alphabet) all.length fuel given)
      (word alphabet symbol ++ (moreBits ++ bits)) output all output := by
  have hpos := List.length_pos_iff.2 hne
  have hle := hrest.given_prefix.length_le
  rw [List.length_append] at hle ih
  obtain ⟨fuel, rfl⟩ : ∃ fuel', fuel = fuel' + 1 := ⟨fuel - 1, by omega⟩
  rw [wordLengths_succ fuel (by omega)]
  refine Takes.bind (halphabet.takes_symbol hknown) ?_
  exact Takes.bind (hmore _) (ih (by omega))

/-- Word lengths are collected up to the wanted number of them. -/
theorem Lengths.takes {alphabet given all : List Nat} {bits : List Bool}
    (h : Lengths alphabet given bits all) (halphabet : Readable alphabet) {fuel : Nat}
    (hfuel : all.length < given.length + fuel) :
    Takes position (wordLengths (PrefixCode.ofLengths alphabet) all.length fuel given) bits output all
      output := by
  induction h generalizing position fuel with
  | stop =>
      obtain ⟨fuel, rfl⟩ : ∃ fuel', fuel = fuel' + 1 := ⟨fuel - 1, by omega⟩
      unfold wordLengths
      rw [if_pos rfl]
      exact Takes.pure _
  | single length small known rest ih =>
      rename_i given _ _
      have hmore : ∀ position, Takes position (added given length) [] output [length] output := by
        intro position
        unfold added
        rw [if_pos small]
        exact Takes.pure _
      exact takes_wordLengths halphabet known hmore (List.cons_ne_nil _ _) rest hfuel ih
  | again excess small known before rest ih =>
      refine takes_wordLengths halphabet known ?_ (by simp) rest hfuel ih
      intro position
      unfold added
      rw [if_neg (by decide), if_pos rfl, before]
      exact (takes_number small).map _
  | zeros excess small known rest ih =>
      refine takes_wordLengths halphabet known ?_ (by simp) rest hfuel ih
      intro position
      unfold added
      rw [if_neg (by decide), if_neg (by decide), if_pos rfl]
      exact (takes_number small).map fun count => List.replicate (3 + count) 0
  | manyZeros excess small known rest ih =>
      refine takes_wordLengths halphabet known ?_ (by simp) rest hfuel ih
      intro position
      unfold added
      rw [if_neg (by decide), if_neg (by decide), if_neg (by decide)]
      exact (takes_number small).map fun count => List.replicate (11 + count) 0

theorem takes_numbers {width : Nat} {values : List Nat} (h : ∀ value ∈ values, value < 2 ^ width) :
    Takes position (numbers width values.length) (values.flatMap (lowFirst width)) output values
      output := by
  induction values generalizing position with
  | nil => exact Takes.pure []
  | cons value values ih =>
      refine Takes.bind (takes_number (h value List.mem_cons_self)) ?_
      refine Takes.map (fun rest => value :: rest) ?_
      exact ih fun other hmem => h other (List.mem_cons_of_mem _ hmem)

theorem lookup_zip_map {f : Nat → Nat} {order : List Nat} {count symbol : Nat} :
    (order.zip ((order.take count).map f)).lookup symbol =
      if symbol ∈ order.take count then some (f symbol) else none := by
  induction order generalizing count with
  | nil =>
      rw [List.take_nil]
      rfl
  | cons first order ih =>
      cases count with
      | zero => rfl
      | succ count =>
          rw [List.take_succ_cons, List.map_cons, List.zip_cons_cons, List.lookup_cons, ih]
          by_cases heq : symbol = first
          · simp [heq]
          · simp [heq, beq_false_of_ne heq]

/-- The lengths that are given in the fixed order, with those left out being zero, are the alphabet's. -/
theorem map_lookup_eq {alphabet : List Nat} {count : Nat} (hsize : alphabet.length = lengthOrder.length)
    (hleft : ∀ symbol ∈ lengthOrder.drop count, wordLength alphabet symbol = 0) :
    ((List.range 19).map fun symbol =>
      ((lengthOrder.zip ((lengthOrder.take count).map (wordLength alphabet))).lookup symbol).getD 0) =
      alphabet := by
  have hvalue : ∀ symbol < 19,
      ((lengthOrder.zip ((lengthOrder.take count).map (wordLength alphabet))).lookup symbol).getD 0 =
        wordLength alphabet symbol := by
    intro symbol hlt
    have hmem : symbol ∈ lengthOrder.take count ++ lengthOrder.drop count := by
      rw [List.take_append_drop]
      revert symbol
      decide
    rw [lookup_zip_map]
    split
    · rfl
    · rename_i hnot
      rcases List.mem_append.1 hmem with htake | hdrop
      · exact absurd htake hnot
      · exact (hleft symbol hdrop).symm
  apply List.ext_getElem
  · rw [List.length_map, List.length_range, hsize]
    rfl
  · intro symbol hlt hlt'
    rw [List.length_map, List.length_range] at hlt
    rw [List.getElem_map, List.getElem_range, hvalue symbol hlt, wordLength, List.getElem?_eq_getElem hlt']
    rfl

theorem describedCode_eq {lengths : List Nat} (h : IsUsable lengths) :
    describedCode lengths = return PrefixCode.ofLengths lengths := by
  unfold describedCode
  dsimp only
  rcases h with hcomplete | hsingle
  · rw [isComplete_ofLengths hcomplete, Bool.true_or, if_pos rfl]
  · have hsize : (PrefixCode.ofLengths lengths).size ≤ 1 :=
      Nat.le_trans (size_ofLengths_le lengths) hsingle
    rw [decide_eq_true hsize, Bool.or_true, if_pos rfl]

namespace Described

variable {bits : List Bool} {literals distances : List Nat}

theorem readable (h : Described bits literals distances) : Readable literals ∧ Readable distances := by
  obtain ⟨-, -, -, -, -, -, -, lengths, literalsUsable, distancesUsable⟩ := h
  have hshort := lengths.lt_sixteen (by simp)
  refine ⟨⟨literalsUsable.fits, ?_⟩, distancesUsable.fits, ?_⟩
  · intro length hmem
    exact Nat.le_of_lt_succ (hshort length (List.mem_append_left _ hmem))
  · intro length hmem
    exact Nat.le_of_lt_succ (hshort length (List.mem_append_right _ hmem))

/-- A description is decoded to the two codes that it describes. -/
theorem takes (h : Described bits literals distances) :
    Takes position describedCodes bits output
      (PrefixCode.ofLengths literals, PrefixCode.ofLengths distances) output := by
  obtain ⟨literalCount, distanceCount, lengthCount, size, small, leftOut, complete, lengths,
    literalsUsable, distancesUsable⟩ := h
  rename_i alphabet count bits
  have halphabet : Readable alphabet := by
    refine ⟨complete.fits, ?_⟩
    intro length hmem
    exact Nat.le_trans (Nat.le_of_lt (small length hmem)) (by decide)
  have hlength : ((lengthOrder.take count).map (wordLength alphabet)).length = count := by
    rw [List.length_map, List.length_take]
    exact Nat.min_eq_left lengthCount.2
  have hsmall : ∀ length ∈ (lengthOrder.take count).map (wordLength alphabet), length < 2 ^ 3 := by
    intro length hmem
    obtain ⟨symbol, -, rfl⟩ := List.mem_map.1 hmem
    unfold wordLength
    cases hsymbol : alphabet[symbol]? with
    | none => exact Nat.two_pow_pos 3
    | some length => exact small length (List.mem_of_getElem? hsymbol)
  have hnumbers : ∀ position, Takes position (numbers 3 count)
      ((lengthOrder.take count).flatMap fun symbol => lowFirst 3 (wordLength alphabet symbol)) output
      ((lengthOrder.take count).map (wordLength alphabet)) output := by
    intro position
    have htakes := @takes_numbers position output 3 _ hsmall
    rwa [hlength, List.flatMap_map] at htakes
  have hall : (literals ++ distances).length = 257 + (literals.length - 257) +
      (1 + (distances.length - 1)) := by
    rw [List.length_append]
    omega
  have htake : (literals ++ distances).take (257 + (literals.length - 257)) = literals := by
    rw [Nat.add_sub_cancel' literalCount.1, List.take_left]
  have hdrop : (literals ++ distances).drop (257 + (literals.length - 257)) = distances := by
    rw [Nat.add_sub_cancel' literalCount.1, List.drop_left]
  have hcount : 4 + (count - 4) = count := Nat.add_sub_cancel' lengthCount.1
  unfold describedCodes
  refine Takes.bind (takes_number (by omega)) ?_
  refine Takes.bind (takes_number (by omega)) ?_
  have hsize : lengthOrder.length = 19 := rfl
  refine Takes.bind (takes_number (by omega)) ?_
  dsimp only
  rw [hcount]
  refine Takes.bind (hnumbers _) ?_
  rw [map_lookup_eq size leftOut, isComplete_ofLengths complete, Bool.not_true,
    if_neg Bool.false_ne_true, ← hall]
  refine Takes.bind_nil (lengths.takes halphabet (by simp)) ?_
  rw [htake, hdrop, describedCode_eq literalsUsable, describedCode_eq distancesUsable]
  exact Takes.pure _

end Described

/-! ### Blocks -/

/-- A block turns the output into the one that it stands for. -/
theorem Block.takes {before after : List UInt8} {bits : List Bool}
    (h : Block position before bits after) {fuel : Nat} (hfuel : bits.length ≤ fuel) :
    Takes position (block fuel) bits before () after := by
  unfold block
  cases h with
  | stored short aligned fits =>
      rename_i padding bytes
      refine Takes.bind (takes_number (by decide)) ?_
      dsimp only
      unfold storedBlock
      refine Takes.bind (takes_align short ?_) ?_
      · rw [length_lowFirst]
        exact aligned
      · refine Takes.bind (takes_number fits) ?_
        refine Takes.bind (takes_number (by omega)) ?_
        rw [if_pos (by omega)]
        exact takes_storedBytes bytes
  | fixed symbols =>
      refine Takes.bind (takes_number (by decide)) ?_
      rw [List.length_append] at hfuel
      exact symbols.takes readable_fixedLiterals readable_fixedDistances (by omega)
  | described codes symbols =>
      obtain ⟨hliterals, hdistances⟩ := codes.readable
      refine Takes.bind (takes_number (by decide)) ?_
      dsimp only
      refine Takes.bind codes.takes ?_
      rw [List.length_append, List.length_append] at hfuel
      exact symbols.takes hliterals hdistances (by omega)

/-- Blocks give the output that they stand for. Each of them takes a bit at least. -/
theorem Blocks.takes {before after : List UInt8} {bits : List Bool}
    (h : Blocks position before bits after) {bitCount fuel : Nat} (hcount : bits.length ≤ bitCount)
    (hfuel : bits.length ≤ fuel) : Takes position (blocks bitCount fuel) bits before () after := by
  induction h generalizing fuel with
  | last block =>
      rw [List.length_cons] at hcount hfuel
      obtain ⟨fuel, rfl⟩ : ∃ fuel', fuel = fuel' + 1 := ⟨fuel - 1, by omega⟩
      unfold blocks
      refine Takes.cons_bind (takes_bit true) ?_
      refine Takes.bind_nil (block.takes (by omega)) ?_
      exact Takes.pure ()
  | more block rest ih =>
      rw [List.length_cons, List.length_append] at hcount hfuel
      obtain ⟨fuel, rfl⟩ : ∃ fuel', fuel = fuel' + 1 := ⟨fuel - 1, by omega⟩
      unfold blocks
      refine Takes.cons_bind (takes_bit false) ?_
      refine Takes.bind (block.takes (by omega)) ?_
      exact ih (by omega) (by omega)

end EvalCharts.Gzip
