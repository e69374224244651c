/-
Module: EvalCharts.Proofs.Gzip.Stored
Purpose: However a content is divided into pieces, the pieces can be stored one by one as they are. So there
  is a member for every content.
Main exports: storedData, deflated_storedData, storedFile, member_storedFile
-/
import EvalCharts.Proofs.Gzip.Member

namespace EvalCharts.Gzip

/-- A piece as a block of whole bytes, filled up with zeros. -/
def storedPiece (isLast : Bool) (piece : List UInt8) : List UInt8 :=
  UInt8.ofNat isLast.toNat ::
    (littleEndian 2 piece.length ++ (littleEndian 2 (2 ^ 16 - 1 - piece.length) ++ piece))

/-- Pieces as blocks, the last of which is given apart. -/
def storedData (pieces : List (List UInt8)) (final : List UInt8) : List UInt8 :=
  pieces.flatMap (storedPiece false) ++ storedPiece true final

/-- The bits of a block behind the one that says whether it is the last. -/
def storedBits (piece : List UInt8) : List Bool :=
  lowFirst 2 0 ++ (List.replicate 5 false ++ (lowFirst 16 piece.length ++
    (lowFirst 16 (2 ^ 16 - 1 - piece.length) ++ bitsOf piece)))

theorem bitsOf_storedPiece (isLast : Bool) (piece : List UInt8) :
    bitsOf (storedPiece isLast piece) = isLast :: storedBits piece := by
  have hhead : lowFirst 8 (UInt8.ofNat isLast.toNat).toNat =
      isLast :: (lowFirst 2 0 ++ List.replicate 5 false) := by
    cases isLast <;> decide
  rw [storedPiece, storedBits, bitsOf_cons, bitsOf_append, bitsOf_append, bitsOf_littleEndian,
    bitsOf_littleEndian, hhead, List.cons_append, List.append_assoc]

variable {position : Nat} {output : List UInt8}

theorem length_storedBits (piece : List UInt8) : (storedBits piece).length = 39 + 8 * piece.length := by
  simp only [storedBits, List.length_append, length_lowFirst, List.length_replicate, length_bitsOf]
  omega

theorem block_storedBits {piece : List UInt8} (hposition : position % 8 = 0)
    (hfits : piece.length < 2 ^ 16) :
    Block (position + 1) output (storedBits piece) (output ++ piece) := by
  refine Block.stored ?_ ?_ hfits
  · decide
  · rw [List.length_replicate]
    omega

theorem blocks_storedData {pieces : List (List UInt8)} {final : List UInt8}
    (hposition : position % 8 = 0) (hpieces : ∀ piece ∈ pieces, piece.length < 2 ^ 16)
    (hfinal : final.length < 2 ^ 16) :
    Blocks position output (bitsOf (storedData pieces final)) (output ++ (pieces.flatten ++ final)) := by
  induction pieces generalizing position output with
  | nil =>
      rw [storedData, List.flatMap_nil, List.nil_append, bitsOf_storedPiece, List.flatten_nil,
        List.nil_append]
      exact Blocks.last (block_storedBits hposition hfinal)
  | cons piece pieces ih =>
      obtain ⟨hpiece, hrest⟩ := List.forall_mem_cons.1 hpieces
      have hnext : (position + 1 + (storedBits piece).length) % 8 = 0 := by
        rw [length_storedBits]
        omega
      rw [storedData, List.flatMap_cons, List.append_assoc, bitsOf_append, bitsOf_storedPiece,
        List.flatten_cons, List.append_assoc, ← List.append_assoc output, List.cons_append]
      exact Blocks.more (block_storedBits hposition hpiece) (ih hnext hrest)

/-- Every division of a content into short pieces gives data for it. -/
theorem deflated_storedData {pieces : List (List UInt8)} {final : List UInt8}
    (hpieces : ∀ piece ∈ pieces, piece.length < 2 ^ 16) (hfinal : final.length < 2 ^ 16) :
    Deflated (storedData pieces final) (pieces.flatten ++ final) := by
  have hblocks := @blocks_storedData 0 [] pieces final rfl hpieces hfinal
  exact ⟨bitsOf (storedData pieces final), [], hblocks, (List.append_nil _).symm, by decide⟩

/-- A header without optional parts. -/
def Front.bare : Front where
  isText := false
  remarks := [0, 0, 0, 0, 0, 0xFF]
  extra? := none
  name? := none
  comment? := none
  isChecked := false
  remarks_length := rfl
  extra_length := fun _ h => nomatch h
  name_text := fun _ h => nomatch h
  comment_text := fun _ h => nomatch h

/-- A content in a file, each byte being stored by itself. -/
def storedFile (content : List UInt8) : List UInt8 :=
  Front.bare.bytes ++ storedData (content.map fun byte => [byte]) [] ++ trailer content

theorem member_storedFile (content : List UInt8) : Member (storedFile content) content := by
  have hpieces : ∀ piece ∈ content.map fun byte => [byte], piece.length < 2 ^ 16 := by
    intro piece hpiece
    obtain ⟨byte, -, rfl⟩ := List.mem_map.1 hpiece
    exact Nat.one_lt_two_pow (by decide)
  have hcontent : (content.map fun byte => [byte]).flatten ++ [] = content := by
    rw [List.append_nil, ← List.flatMap_def, List.flatMap_singleton']
  have hdata := @deflated_storedData _ [] hpieces (by decide)
  rw [hcontent] at hdata
  exact Member.intro Front.bare hdata

end EvalCharts.Gzip
