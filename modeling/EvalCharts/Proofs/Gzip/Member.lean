/-
Module: EvalCharts.Proofs.Gzip.Member
Purpose: A valid member is decompressed to its content, whatever stands behind it. One that is cut, or whose
  trailer belongs to another content, is never decompressed to an end.
Main exports: decompress_member, failure?_decompress_cut, failure?_decompress_trailer
-/
import EvalCharts.Proofs.Gzip.Blocks
import EvalCharts.Proofs.Gzip.Header
import EvalCharts.Proofs.Gzip.Locality

namespace EvalCharts.Gzip

/-! ### Numbers in bytes -/

theorem lowFirst_add (width more number : Nat) :
    lowFirst (width + more) number = lowFirst width number ++ lowFirst more (number / 2 ^ width) := by
  induction width generalizing number with
  | zero => rw [Nat.zero_add, Nat.pow_zero, Nat.div_one, lowFirst, List.nil_append]
  | succ width ih =>
      rw [Nat.succ_add, lowFirst, lowFirst, ih, Nat.div_div_eq_div_mul, Nat.pow_succ',
        List.cons_append]

theorem lowFirst_mod (width number : Nat) :
    lowFirst width (number % 2 ^ width) = lowFirst width number := by
  induction width generalizing number with
  | zero => rfl
  | succ width ih =>
      have hhead : number % 2 ^ (width + 1) % 2 = number % 2 :=
        Nat.mod_mod_of_dvd number (Nat.dvd_mul_left 2 (2 ^ width))
      have htail : number % 2 ^ (width + 1) / 2 = number / 2 % 2 ^ width := by
        rw [Nat.pow_succ', Nat.mod_mul_right_div_self]
      rw [lowFirst, lowFirst, hhead, htail, ih]

theorem bitsOf_littleEndian (count number : Nat) :
    bitsOf (littleEndian count number) = lowFirst (8 * count) number := by
  induction count generalizing number with
  | zero => rfl
  | succ count ih =>
      have hpower : (256 : Nat) = 2 ^ 8 := rfl
      have hbyte : (UInt8.ofNat (number % 256)).toNat = number % 2 ^ 8 := by
        rw [UInt8.toNat_ofNat']
        omega
      rw [littleEndian, bitsOf_cons, hbyte, lowFirst_mod, ih, Nat.mul_succ, Nat.add_comm (8 * count) 8,
        lowFirst_add, hpower]

/-- Numbers that agree in their low bytes are written in the same way. -/
theorem littleEndian_mod (count number : Nat) :
    littleEndian count (number % 256 ^ count) = littleEndian count number := by
  induction count generalizing number with
  | zero => rfl
  | succ count ih =>
      have hhead : number % 256 ^ (count + 1) % 256 = number % 256 :=
        Nat.mod_mod_of_dvd number (Nat.dvd_mul_left 256 (256 ^ count))
      have htail : number % 256 ^ (count + 1) / 256 = number / 256 % 256 ^ count := by
        rw [Nat.pow_succ', Nat.mod_mul_right_div_self]
      rw [littleEndian, littleEndian, hhead, htail, ih]

/-- Any bytes are a number. -/
theorem exists_littleEndian (bytes : List UInt8) :
    ∃ number < 256 ^ bytes.length, bytes = littleEndian bytes.length number := by
  induction bytes with
  | nil => exact ⟨0, Nat.one_pos, rfl⟩
  | cons byte bytes ih =>
      obtain ⟨number, hnumber, hbytes⟩ := ih
      have hbyte := byte.toNat_lt
      refine ⟨256 * number + byte.toNat, ?_, ?_⟩
      · rw [List.length_cons, Nat.pow_succ]
        omega
      · have hhead : (256 * number + byte.toNat) % 256 = byte.toNat := by omega
        have htail : (256 * number + byte.toNat) / 256 = number := by omega
        rw [List.length_cons, littleEndian, hhead, htail, ← hbytes, UInt8.ofNat_toNat]

theorem length_bitsOf_le_append (bytes more : List UInt8) :
    (bitsOf bytes).length ≤ (bitsOf (bytes ++ more)).length := by
  rw [bitsOf_append, List.length_append]
  exact Nat.le_add_right _ _

theorem checksum_lt (bytes : List UInt8) : checksum bytes < 2 ^ 32 :=
  UInt32.toNat_lt _

/-! ### Trailers -/

/-- A trailer that announces a checksum and a length. -/
def announcement (announcedChecksum announcedLength : Nat) : List UInt8 :=
  littleEndian 4 announcedChecksum ++ littleEndian 4 announcedLength

theorem trailer_eq (content : List UInt8) :
    trailer content = announcement (checksum content) (content.length % 2 ^ 32) := by
  have hpower : (256 : Nat) ^ 4 = 2 ^ 32 := rfl
  rw [trailer, announcement, ← littleEndian_mod 4 content.length, hpower]

/-- Eight bytes always announce something. -/
theorem exists_announcement {ending : List UInt8} (h : ending.length = 8) :
    ∃ announcedChecksum announcedLength, announcedChecksum < 2 ^ 32 ∧ announcedLength < 2 ^ 32 ∧
      ending = announcement announcedChecksum announcedLength := by
  obtain ⟨announcedChecksum, hchecksum, hfirst⟩ := exists_littleEndian (ending.take 4)
  obtain ⟨announcedLength, hlength, hsecond⟩ := exists_littleEndian (ending.drop 4)
  have htake : (ending.take 4).length = 4 := by
    rw [List.length_take, h]
    rfl
  have hdrop : (ending.drop 4).length = 4 := by
    rw [List.length_drop, h]
  rw [htake] at hchecksum hfirst
  rw [hdrop] at hlength hsecond
  refine ⟨announcedChecksum, announcedLength, hchecksum, hlength, ?_⟩
  rw [announcement, ← hfirst, ← hsecond, List.take_append_drop]

/-! ### Running -/

/-- Behind valid data it only remains to compare what has been decoded with what is announced. -/
theorem run_member {data content : List UInt8} (h : Deflated data content)
    {announcedChecksum announcedLength : Nat} (hchecksum : announcedChecksum < 2 ^ 32)
    (hlength : announcedLength < 2 ^ 32) (behind : List UInt8) {bitCount : Nat}
    (hcount : (bitsOf data).length ≤ bitCount) :
    (member bitCount).run
        ⟨bitsOf (data ++ (announcement announcedChecksum announcedLength ++ behind)), #[]⟩ =
      (comparison announcedChecksum announcedLength).run ⟨bitsOf behind, content.toArray⟩ := by
  obtain ⟨bits, padding, hblocks, hdata, hshort⟩ := h
  have hbits : bitsOf (data ++ (announcement announcedChecksum announcedLength ++ behind)) =
      bits ++ (padding ++ (lowFirst 32 announcedChecksum ++
        (lowFirst 32 announcedLength ++ bitsOf behind))) := by
    rw [announcement]
    simp only [bitsOf_append, bitsOf_littleEndian, hdata, List.append_assoc]
  have hwhole : (bits ++ padding).length = 8 * data.length := by
    rw [← hdata, length_bitsOf]
  have hbehind := length_bitsOf behind
  rw [List.length_append] at hwhole
  rw [hdata, List.length_append] at hcount
  have hblocks := @Blocks.takes 0 [] content bits hblocks bitCount bitCount (by omega) (by omega)
  have halign := @takes_align bits.length content padding hshort (by omega)
  rw [hbits, member_eq, run_bind_of_ok (hblocks _ ?_), run_bind_of_ok (halign _ ?_),
    run_bind_of_ok (@takes_number 0 content 32 _ hchecksum _ ?_),
    run_bind_of_ok (@takes_number 0 content 32 _ hlength _ ?_)]
  all_goals
    simp only [List.length_append, length_lowFirst]
    omega

/-- Behind the data of a content, its trailer is accepted -/
theorem run_member_trailer {data content : List UInt8} (h : Deflated data content)
    (behind : List UInt8) {bitCount : Nat} (hcount : (bitsOf data).length ≤ bitCount) :
    (member bitCount).run ⟨bitsOf (data ++ (trailer content ++ behind)), #[]⟩ =
      .ok () ⟨bitsOf behind, content.toArray⟩ := by
  rw [trailer_eq, run_member h (checksum_lt content) (Nat.mod_lt _ (Nat.two_pow_pos 32)) behind hcount,
    run_comparison]
  dsimp only
  rw [List.size_toArray, if_neg (not_not_intro rfl), if_neg (not_not_intro rfl)]

/-- and nothing else. -/
theorem eq_trailer_of_run {data content ending : List UInt8} (h : Deflated data content)
    (hending : ending.length = 8) {bitCount : Nat} (hcount : (bitsOf data).length ≤ bitCount)
    {state : State} (hrun : (member bitCount).run ⟨bitsOf (data ++ ending), #[]⟩ = .ok () state) :
    ending = trailer content := by
  obtain ⟨announcedChecksum, announcedLength, hchecksum, hlength, rfl⟩ := exists_announcement hending
  rw [← List.append_nil (announcement _ _), run_member h hchecksum hlength [] hcount,
    run_comparison] at hrun
  split at hrun
  · cases hrun
  · rename_i hsameChecksum
    split at hrun
    · cases hrun
    · rename_i hsameLength
      rw [trailer_eq, ← Decidable.not_not.1 hsameChecksum, ← Decidable.not_not.1 hsameLength]
      rfl

/-! ### Decompressing -/

theorem decompress_of_run {file : ByteStream} {body : List UInt8} {state : State}
    (hheader : skipHeader file.bytes = .ok body)
    (hrun : (member (bitsOf body).length).run ⟨bitsOf body, #[]⟩ = .ok () state) :
    decompress file = .whole state.output.toList := by
  unfold decompress
  rw [hheader]
  dsimp only
  rw [hrun]

/-- Where nothing breaks off, a header and a member have been decoded. -/
theorem exists_run_of_decompress {file : ByteStream} (h : (decompress file).failure? = none) :
    ∃ body state, skipHeader file.bytes = .ok body ∧
      (member (bitsOf body).length).run ⟨bitsOf body, #[]⟩ = .ok () state := by
  unfold decompress at h
  cases hheader : skipHeader file.bytes with
  | error fault =>
      rw [hheader] at h
      cases h
  | ok body =>
      rw [hheader] at h
      dsimp only at h
      cases hrun : (member (bitsOf body).length).run ⟨bitsOf body, #[]⟩ with
      | error fault state =>
          rw [hrun] at h
          cases h
      | ok value state => exact ⟨body, state, rfl, hrun⟩

/-- A member is decompressed to its content, and what stands behind it is ignored. -/
theorem decompress_member {file content : List UInt8} (h : Member file content)
    (behind : List UInt8) (failure? : Option String) :
    decompress ⟨file ++ behind, failure?⟩ = .whole content := by
  obtain ⟨front, deflated⟩ := h
  rename_i data
  have hheader : skipHeader (front.bytes ++ data ++ trailer content ++ behind) =
      .ok (data ++ (trailer content ++ behind)) := by
    rw [List.append_assoc, List.append_assoc]
    exact skipHeader_front front _
  exact decompress_of_run hheader
    (run_member_trailer deflated behind (length_bitsOf_le_append data (trailer content ++ behind)))

/-- With another trailer the decompression breaks off. -/
theorem failure?_decompress_trailer (front : Front) {data content ending : List UInt8}
    (h : Deflated data content) (hlength : ending.length = 8) (hne : ending ≠ trailer content) :
    (decompress (.whole (front.bytes ++ data ++ ending))).failure? ≠ none := by
  intro hnone
  obtain ⟨body, state, hheader, hrun⟩ := exists_run_of_decompress hnone
  have hbody : body = data ++ ending := by
    rw [ByteStream.whole, List.append_assoc, skipHeader_front] at hheader
    exact (Except.ok.inj hheader).symm
  rw [hbody] at hrun
  exact hne (eq_trailer_of_run h hlength (length_bitsOf_le_append data ending) hrun)

/-- In a member that is cut the decompression breaks off, wherever the cut is. -/
theorem failure?_decompress_cut {file content cut : List UInt8} (h : Member file content)
    (hcut : cut <+: file) (hne : cut ≠ file) : (decompress (.whole cut)).failure? ≠ none := by
  intro hnone
  obtain ⟨body, state, hheader, hrun⟩ := exists_run_of_decompress hnone
  obtain ⟨tail, htail⟩ := hcut
  obtain ⟨front, deflated⟩ := h
  rename_i data
  -- Put back what was cut off: it would be left over behind the member.
  have hbody : body ++ tail = data ++ (trailer content ++ []) := by
    have hwhole := skipHeader_append hheader tail
    rw [ByteStream.whole, htail, List.append_assoc, skipHeader_front] at hwhole
    rw [List.append_nil]
    exact (Except.ok.inj hwhole).symm
  have hcount : (bitsOf data).length ≤ (bitsOf (body ++ tail)).length := by
    rw [hbody]
    exact length_bitsOf_le_append data _
  have htailBits := length_bitsOf tail
  have hextended := @extends_member _ _ (length_bitsOf_le_append body tail) _ _ _ (bitsOf tail)
    (by omega) hrun
  have hstate : State.followedBy ⟨bitsOf body, #[]⟩ (bitsOf tail) =
      ⟨bitsOf (data ++ (trailer content ++ [])), #[]⟩ := by
    rw [← hbody, bitsOf_append]
    rfl
  rw [hstate, run_member_trailer deflated [] hcount] at hextended
  injection hextended with _ hsame
  have hleft : [] = state.bits ++ bitsOf tail := congrArg State.bits hsame
  have htailNil : tail = [] := by
    have hempty := (List.append_eq_nil_iff.1 hleft.symm).2
    rw [hempty, List.length_nil] at htailBits
    exact List.eq_nil_of_length_eq_zero (by omega)
  rw [htailNil, List.append_nil] at htail
  exact hne htail

end EvalCharts.Gzip
