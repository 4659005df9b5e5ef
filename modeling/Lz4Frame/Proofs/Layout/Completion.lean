import Lz4Frame.Proofs.Layout.Remainder

/-! What is cut short can be written to its end. Enough bytes of any kind behind a cut make a whole
block or an end mark of it, so the bytes in front of the cut are the start of one,
`Front.exists_of_read_eq_cut`. From there an end mark and a content checksum complete the frame. The
blocks in front of the cut stay as they are, `Remainder.exists_completion`. -/

namespace Lz4Frame

open BlockLayout (encodeAll_cons encodeAll_nil)

/-- A checksum word of some value where one is announced. -/
theorem Word.exists_isSome_eq (announced : Bool) :
    ∃ word : Option UInt32, word.isSome = announced := by
  cases announced with
  | true => exact ⟨some 0, rfl⟩
  | false => exact ⟨none, rfl⟩

namespace Front

/-- The size word of a block gives its size before its body is there, so with enough bytes behind
it nothing is cut short. -/
theorem read_append_ne_cut {checksums : Bool} {bytes padding : List UInt8} {cut : Cut}
    (h : Format.storedFlag + 2 * Format.wordSize ≤ padding.length) :
    read checksums (bytes ++ padding) ≠ .cut cut := by
  intro hcut
  have hlength : padding.length ≤ (bytes ++ padding).length := by
    rw [List.length_append]
    exact Nat.le_add_left _ _
  rcases read_eq_cut hcut with ⟨hword, -⟩ | ⟨word, behind, -, hbytes, hbehind⟩
  · omega
  have hsize := sizeOfWord_lt word
  rw [hbytes, List.length_append, Word.length_encode] at hlength
  simp only [Format.wordSize] at *
  rcases hbehind with ⟨hbody, -⟩ | ⟨-, -, hchecksum, -⟩
  · omega
  · omega

/-- Where the front is cut short, it is the start of an end mark or of a block. -/
theorem exists_of_read_eq_cut {checksums : Bool} {bytes : List UInt8} {cut : Cut}
    (h : read checksums bytes = .cut cut) :
    bytes <+: Format.endMark ∨
      ∃ block : BlockLayout, block.checksum.isSome = checksums ∧ bytes <+: block.encode := by
  obtain ⟨padding, hpadding⟩ : ∃ padding : List UInt8,
      padding.length = Format.storedFlag + 2 * Format.wordSize :=
    ⟨List.replicate _ 0, List.length_replicate⟩
  -- something whole is read of the longer bytes, and it cannot end within the ones that were cut
  rcases hread : read checksums (bytes ++ padding) with rest | ⟨block, rest⟩ | cut'
  · have hbytes := read_eq_endMark_iff.1 hread
    rcases List.append_eq_append_iff.1 hbytes with ⟨suffix, hmark, -⟩ | ⟨behind, rfl, -⟩
    · exact .inl ⟨suffix, hmark.symm⟩
    · rw [read_eq_endMark_iff.2 rfl] at h
      cases h
  · obtain ⟨hsome, hbytes⟩ := read_eq_block_iff.1 hread
    rcases List.append_eq_append_iff.1 hbytes with ⟨suffix, hblock, -⟩ | ⟨behind, rfl, -⟩
    · exact .inr ⟨block, hsome, suffix, hblock.symm⟩
    · rw [read_eq_block_iff.2 ⟨hsome, rfl⟩] at h
      cases h
  · exact absurd hread (read_append_ne_cut hpadding.ge)

end Front

/-- A checksum word that is cut short is the start of one. -/
theorem Word.exists_of_readOptional?_eq_none {announced : Bool} {bytes : List UInt8}
    (h : readOptional? announced bytes = none) :
    ∃ word : Option UInt32, word.isSome = announced ∧ bytes <+: encodeOptional word := by
  obtain ⟨rfl, hlength⟩ := readOptional?_eq_none_iff.1 h
  refine ⟨some (UInt32.ofNat (value (bytes ++ List.replicate (4 - bytes.length) 0))), rfl, ?_⟩
  rw [encodeOptional, Option.elim_some, encode_ofNat_value_word]
  · exact List.prefix_append _ _
  · rw [List.length_append, List.length_replicate]
    omega

namespace Remainder

variable {header : Header} {bytes : List UInt8}

/-- What does not read as a complete frame is the start of one. -/
theorem exists_completion
    (h : ∀ contentChecksum trailing,
      (read header.descriptor bytes).ending ≠ .complete contentChecksum trailing) :
    ∃ frame : FrameLayout, frame.header = header ∧
      (read header.descriptor bytes).blocks <+: frame.blocks ∧ bytes <+: frame.remainder := by
  obtain ⟨rest, hbytes, hrest, hblocks⟩ := exists_rest header.descriptor bytes
  generalize read header.descriptor bytes = remainder at *
  obtain ⟨blocks, ending⟩ := remainder
  dsimp only at *
  obtain ⟨contentChecksum, hsome⟩ := Word.exists_isSome_eq header.descriptor.hasContentChecksum
  cases hfront : Front.read header.descriptor.hasBlockChecksums rest with
  | endMark behind =>
    -- all blocks are there, and of the content checksum only a part
    rw [read_of_endMark hfront, Ending.ofRest] at hrest
    split at hrest
    next hnone =>
      obtain ⟨checksum, hsome, hprefix⟩ := Word.exists_of_readOptional?_eq_none hnone
      refine ⟨⟨header, blocks, checksum, hblocks, hsome⟩, rfl, List.prefix_rfl, ?_⟩
      rw [hbytes, Front.read_eq_endMark_iff.1 hfront, FrameLayout.remainder]
      exact (List.prefix_append_right_inj _).2 ((List.prefix_append_right_inj _).2 hprefix)
    next checksum trailing hsome =>
      cases hrest
      exact absurd rfl (h checksum trailing)
  | cut cut =>
    rw [hbytes]
    rcases Front.exists_of_read_eq_cut hfront with hmark | ⟨block, hchecksum, hblock⟩
    · refine ⟨⟨header, blocks, contentChecksum, hblocks, hsome⟩, rfl, List.prefix_rfl, ?_⟩
      rw [FrameLayout.remainder, List.prefix_append_right_inj]
      exact hmark.trans (List.prefix_append _ _)
    · have hall : ∀ written ∈ blocks ++ [block],
          written.checksum.isSome = header.descriptor.hasBlockChecksums := by
        intro written hwritten
        rcases List.mem_append.1 hwritten with hwritten | hwritten
        · exact hblocks written hwritten
        · rwa [List.mem_singleton.1 hwritten]
      refine ⟨⟨header, blocks ++ [block], contentChecksum, hall, hsome⟩, rfl,
        List.prefix_append _ _, ?_⟩
      rw [FrameLayout.remainder, BlockLayout.encodeAll_append, List.append_assoc,
        List.prefix_append_right_inj, encodeAll_cons, encodeAll_nil, List.append_nil]
      exact hblock.trans (List.prefix_append _ _)
  | block block behind =>
    rw [read_of_block hfront] at hrest
    cases hrest

end Remainder

end Lz4Frame
