/-
Module: EvalCharts.Proofs.Loading
Purpose: What loading makes of compressed files: the content of a whole member is loaded as from a plain
  file, nothing is ever loaded from one that is cut or damaged, and later members are not seen.
Main exports: Tree.load, LoadedAlike, Tree.load_gzip, Tree.load_members
-/
import EvalCharts.Files.Tree
import EvalCharts.Loading
import EvalCharts.Proofs.Gzip.Stored
import EvalCharts.Proofs.Table.Append

namespace EvalCharts

open Gzip

/-- What a program gets that loads a file of a tree. -/
def Tree.load (tree : Tree) (path : String) : Except LoadFailure Dataset :=
  ((EvalCharts.load Tree.disk path).run.run tree).1

/-- One outcome of loading two files: the same evaluation, or the same failure of the file at each path. -/
def LoadedAlike (path path' : String) (loaded loaded' : Except LoadFailure Dataset) : Prop :=
  ∃ result : Except Table.ReadFailure Dataset,
    loaded = result.mapError (.reading path) ∧ loaded' = result.mapError (.reading path')

/-! ### Streams -/

/-- Of a stream that breaks off, no evaluation is read, also if all rows before the break are good. -/
theorem Table.exists_read_eq_error {stream : ByteStream} (h : stream.failure? ≠ none) :
    ∃ failure, Table.read stream = .error failure := by
  unfold Table.read
  dsimp only
  split
  · rename_i hnone
    exact absurd hnone h
  · cases Table.readTable (Table.scan stream.bytes).finishedRows with
    | error failure => exact ⟨failure, rfl⟩
    | ok runs => exact ⟨_, rfl⟩

namespace Tree

variable {tree : Tree} {path : String} {bytes : List UInt8}

theorem load_of_read {file : ByteStream} (h : tree.read path = .ok file) :
    tree.load path = (Table.read (contentOf path file)).mapError (.reading path) := by
  change decodeResults path (tree.read path) = _
  rw [h]
  rfl

theorem load_plain (hpath : Path.extension? path ≠ some "gz")
    (hread : tree.read path = .ok (.whole bytes)) :
    tree.load path = (Table.read (.whole bytes)).mapError (.reading path) := by
  have hplain : isCompressed path = false := beq_eq_false_iff_ne.2 hpath
  rw [load_of_read hread, contentOf, hplain]
  rfl

theorem load_compressed (hpath : Path.extension? path = some "gz")
    (hread : tree.read path = .ok (.whole bytes)) :
    tree.load path = (Table.read (decompress (.whole bytes))).mapError (.reading path) := by
  have hcompressed : isCompressed path = true := beq_iff_eq.2 hpath
  rw [load_of_read hread, contentOf, hcompressed]
  rfl

/-- Where the decompression breaks off, nothing is loaded. -/
theorem exists_load_eq_error (hpath : Path.extension? path = some "gz")
    (hread : tree.read path = .ok (.whole bytes)) (hbroken : (decompress (.whole bytes)).failure? ≠ none) :
    ∃ failure, tree.load path = .error (.reading path failure) := by
  obtain ⟨failure, hfailure⟩ := Table.exists_read_eq_error hbroken
  refine ⟨failure, ?_⟩
  rw [load_compressed hpath hread, hfailure]
  rfl

/-- The first member of a file is all that is loaded. -/
theorem load_first {file content behind : List UInt8} (h : Member file content)
    (hpath : Path.extension? path = some "gz") (hread : tree.read path = .ok (.whole (file ++ behind))) :
    tree.load path = (Table.read (.whole content)).mapError (.reading path) := by
  rw [load_compressed hpath hread]
  exact congrArg (fun stream => (Table.read stream).mapError _) (decompress_member h behind none)

end Tree

/-! ### Members -/

/-- A whole member is loaded like its content. Of one that is cut anywhere, or ends with a checksum or a
    length that does not belong to the content, nothing is loaded. -/
theorem Tree.load_gzip (front : Front) {data content : List UInt8} (h : Deflated data content)
    {path plain : String} (hpath : Path.extension? path = some "gz")
    (hplain : Path.extension? plain ≠ some "gz") :
    (∀ tree tree' : Tree, tree.read path = .ok (.whole (front.bytes ++ data ++ trailer content)) →
      tree'.read plain = .ok (.whole content) →
        LoadedAlike path plain (tree.load path) (tree'.load plain)) ∧
    (∀ (tree : Tree) (cut : List UInt8), cut <+: front.bytes ++ data ++ trailer content →
      cut ≠ front.bytes ++ data ++ trailer content → tree.read path = .ok (.whole cut) →
        ∃ failure, tree.load path = .error (.reading path failure)) ∧
    ∀ (tree : Tree) (ending : List UInt8), ending.length = 8 → ending ≠ trailer content →
      tree.read path = .ok (.whole (front.bytes ++ data ++ ending)) →
        ∃ failure, tree.load path = .error (.reading path failure) := by
  have hmember : Member (front.bytes ++ data ++ trailer content) content := Member.intro front h
  refine ⟨?_, ?_, ?_⟩
  · intro tree tree' hread hread'
    rw [← List.append_nil (front.bytes ++ data ++ trailer content)] at hread
    exact ⟨_, Tree.load_first hmember hpath hread, Tree.load_plain hplain hread'⟩
  · intro tree cut hcut hne hread
    exact Tree.exists_load_eq_error hpath hread (failure?_decompress_cut hmember hcut hne)
  · intro tree ending hlength hne hread
    exact Tree.exists_load_eq_error hpath hread (failure?_decompress_trailer front h hlength hne)

/-- A tree of a single file. -/
def Tree.single (name : String) (bytes : List UInt8) : Tree :=
  ⟨[([name], .file bytes)]⟩

/-- A header with a name and a checksum. -/
def namedFront : Front :=
  { Front.bare with
    name? := some [0x6B]
    isChecked := true
    name_text := by
      intro name hname
      cases hname
      decide }

/-- Bytes of which eight repeat what stands two bytes before them. -/
def repeated : List UInt8 :=
  [0x6B, 0x3B, 0x6B, 0x3B, 0x6B, 0x3B, 0x6B, 0x3B, 0x6B, 0x3B, 0x6B, 0x0A]

/-- The same bytes in a compressed file, up to the checksum and the length: a header with a name and a
    checksum of its own, and one block with a repetition. -/
def repeatedBody : List UInt8 :=
  [0x1F, 0x8B, 0x08, 0x0A, 0x00, 0x00, 0x00, 0x00, 0x00, 0xFF, 0x6B, 0x00, 0xD2, 0x4A,
    0xCB, 0xB6, 0xCE, 0x86, 0x41, 0x2E, 0x00]

theorem Tree.load_gzip_repetition :
    Deflated [0xCB, 0xB6, 0xCE, 0x86, 0x41, 0x2E, 0x00] repeated ∧
      LoadedAlike "k.gz" "k"
        ((Tree.single "k.gz"
          (repeatedBody ++ [0xF3, 0x79, 0xDF, 0x9D, 0x0C, 0x00, 0x00, 0x00])).load "k.gz")
        ((Tree.single "k" repeated).load "k") ∧
      (∃ failure, (Tree.single "k.gz" repeatedBody).load "k.gz" = .error (.reading "k.gz" failure)) ∧
      ∃ failure, (Tree.single "k.gz"
          (repeatedBody ++ [0xF3, 0x79, 0xDF, 0x9C, 0x0C, 0x00, 0x00, 0x00])).load "k.gz" =
        .error (.reading "k.gz" failure) := by
  have hbody : namedFront.bytes ++ [0xCB, 0xB6, 0xCE, 0x86, 0x41, 0x2E, 0x00] = repeatedBody := by
    decide +kernel
  have htrailer : trailer repeated = [0xF3, 0x79, 0xDF, 0x9D, 0x0C, 0x00, 0x00, 0x00] := by
    decide +kernel
  have hdeflated : Deflated [0xCB, 0xB6, 0xCE, 0x86, 0x41, 0x2E, 0x00] repeated := deflated_repetition
  obtain ⟨hwhole, hcut, hending⟩ := @Tree.load_gzip namedFront _ _ hdeflated "k.gz" "k"
    (by decide) (by decide)
  rw [hbody, htrailer] at hwhole hcut
  rw [hbody, htrailer] at hending
  refine ⟨hdeflated, hwhole _ _ rfl rfl, ?_, ?_⟩
  · refine hcut _ _ (List.prefix_append _ _) ?_ rfl
    decide +kernel
  · refine hending _ _ rfl ?_ rfl
    decide +kernel

/-- Of several members the first one is loaded, like its piece of the content. -/
theorem Tree.load_members {file piece : List UInt8} {files pieces : List (List UInt8)}
    (h : List.Forall₂ Member (file :: files) (piece :: pieces)) {path plain : String}
    (hpath : Path.extension? path = some "gz") (hplain : Path.extension? plain ≠ some "gz")
    {tree tree' : Tree} (hread : tree.read path = .ok (.whole (file :: files).flatten))
    (hread' : tree'.read plain = .ok (.whole piece)) :
    LoadedAlike path plain (tree.load path) (tree'.load plain) := by
  obtain ⟨hfirst, -⟩ := List.forall₂_cons.1 h
  rw [List.flatten_cons] at hread
  exact ⟨_, Tree.load_first hfirst hpath hread, Tree.load_plain hplain hread'⟩

/-- Two pieces of a content as members of one file, beside the content and its first piece. -/
def twoMembers (first second : List UInt8) : Tree :=
  ⟨[(["k.gz"], .file [storedFile first, storedFile second].flatten), (["k"], .file (first ++ second)),
    (["first"], .file first)]⟩

theorem Tree.load_twoMembers :
    List.Forall₂ Member [storedFile [0x6B, 0x0A], storedFile [0x31, 0x0A]] [[0x6B, 0x0A], [0x31, 0x0A]] ∧
      LoadedAlike "k.gz" "first" ((twoMembers [0x6B, 0x0A] [0x31, 0x0A]).load "k.gz")
        ((twoMembers [0x6B, 0x0A] [0x31, 0x0A]).load "first") := by
  have hmembers : List.Forall₂ Member [storedFile [0x6B, 0x0A], storedFile [0x31, 0x0A]]
      [[0x6B, 0x0A], [0x31, 0x0A]] :=
    .cons (member_storedFile _) (.cons (member_storedFile _) .nil)
  exact ⟨hmembers, Tree.load_members hmembers (by decide) (by decide) rfl rfl⟩

/-- A record in the second member is lost. -/
theorem Tree.load_twoMembers_ne :
    ∃ (tree : Tree) (files pieces : List (List UInt8)), List.Forall₂ Member files pieces ∧
      tree.read "k.gz" = .ok (.whole files.flatten) ∧ Path.extension? "k.gz" = some "gz" ∧
      tree.read "k" = .ok (.whole pieces.flatten) ∧ Path.extension? "k" ≠ some "gz" ∧
      (tree.load "k.gz").map (fun dataset => dataset.runs.length) = .ok 1 ∧
      (tree.load "k").map (fun dataset => dataset.runs.length) = .ok 2 ∧
      ¬LoadedAlike "k.gz" "k" (tree.load "k.gz") (tree.load "k") := by
  have hpath : Path.extension? "k.gz" = some "gz" := by decide
  have hplain : Path.extension? "k" ≠ some "gz" := by decide
  let first := Table.fullHeader ++ Table.zeroRow
  let tree := twoMembers first Table.zeroRow
  have hone : (Table.read (.whole first)).map (fun dataset => dataset.runs.length) = .ok 1 := by
    decide +kernel
  have htwo : (Table.read (.whole (first ++ Table.zeroRow))).map (fun dataset => dataset.runs.length) =
      .ok 2 := by
    decide +kernel
  have hgzip : (tree.load "k.gz").map (fun dataset => dataset.runs.length) = .ok 1 := by
    rw [Tree.load_first (member_storedFile first) hpath rfl, map_mapError, hone]
    rfl
  have hwhole : (tree.load "k").map (fun dataset => dataset.runs.length) = .ok 2 := by
    rw [Tree.load_plain hplain rfl, map_mapError, htwo]
    rfl
  refine ⟨tree, _, [first, Table.zeroRow],
    .cons (member_storedFile first) (.cons (member_storedFile Table.zeroRow) .nil), rfl, hpath, ?_, hplain,
    hgzip, hwhole, ?_⟩
  · rw [List.flatten_cons, List.flatten_cons, List.flatten_nil, List.append_nil]
    rfl
  · rintro ⟨result, hloaded, hloaded'⟩
    rw [hloaded, map_mapError] at hgzip
    rw [hloaded', map_mapError] at hwhole
    cases result with
    | error failure => cases hgzip
    | ok dataset => cases hgzip.symm.trans hwhole

end EvalCharts
