import Mathlib.Order.Bounds.Defs
import Lz4Frame.Proofs.Layout.Remainder

/-! What is left of a written frame that is cut short. The blocks in front of the cut read as they
were written, and the part in which the cut falls tells how the reading ends,
`Remainder.read_take_of_block` and its siblings. Located in the input, the blocks in front of the
cut are the ones that end there or before. -/

namespace Lz4Frame

open BlockLayout (encodeAll encodeAll_cons locateAll)

namespace BlockLayout

/-- Located blocks lie between the start of the first and the end of the last one. -/
theorem bounds_of_mem_locateAll {index offset : ℕ} {blocks : List BlockLayout} {block : Block}
    (h : block ∈ locateAll index offset blocks) :
    offset ≤ block.offset ∧ block.offset + Format.wordSize ≤ block.endOffset ∧
      block.endOffset ≤ offset + (encodeAll blocks).length := by
  induction blocks generalizing index offset with
  | nil => cases h
  | cons first blocks ih =>
    rw [encodeAll_cons, List.length_append]
    rcases List.mem_cons.1 h with rfl | h
    · rw [endOffset_locate]
      have := first.length_encode
      refine ⟨Nat.le_refl _, ?_, by omega⟩
      simp only [locate, Format.wordSize]
      omega
    · obtain ⟨hstart, hword, hend⟩ := ih h
      refine ⟨by omega, hword, by omega⟩

/-- Where the size words are, the one of the end mark included. -/
def boundaries (offset : ℕ) : List BlockLayout → List ℕ
  | [] => [offset]
  | block :: blocks => offset :: boundaries (offset + block.encode.length) blocks

theorem map_offset_locateAll (index offset : ℕ) (blocks : List BlockLayout) :
    (locateAll index offset blocks).map Block.offset ++ [offset + (encodeAll blocks).length] =
      boundaries offset blocks := by
  induction blocks generalizing index offset with
  | nil => rfl
  | cons block blocks ih =>
    rw [boundaries, ← ih (index + 1), encodeAll_cons, List.length_append, ← Nat.add_assoc]
    rfl

theorem mem_boundaries (offset : ℕ) (blocks : List BlockLayout) :
    offset ∈ boundaries offset blocks := by
  cases blocks <;> exact List.mem_cons_self

theorem le_of_mem_boundaries {offset boundary : ℕ} {blocks : List BlockLayout}
    (h : boundary ∈ boundaries offset blocks) : offset ≤ boundary := by
  induction blocks generalizing offset with
  | nil => exact (List.mem_singleton.1 h).ge
  | cons block blocks ih =>
    rcases List.mem_cons.1 h with rfl | h
    · exact Nat.le_refl _
    · exact (Nat.le_add_right _ _).trans (ih h)

theorem boundaries_append (index offset : ℕ) (front behind : List BlockLayout) :
    boundaries offset (front ++ behind) =
      (locateAll index offset front).map Block.offset ++
        boundaries (offset + (encodeAll front).length) behind := by
  rw [← map_offset_locateAll index, locateAll_append, List.map_append, encodeAll_append,
    List.length_append, ← Nat.add_assoc, List.append_assoc, map_offset_locateAll]

/-- A boundary behind some blocks is one of these blocks, or it lies behind all of them. -/
theorem le_or_ge_of_mem_boundaries {offset boundary : ℕ} {front behind : List BlockLayout}
    (h : boundary ∈ boundaries offset (front ++ behind)) :
    boundary + Format.wordSize ≤ offset + (encodeAll front).length ∨
      boundary ∈ boundaries (offset + (encodeAll front).length) behind := by
  rw [boundaries_append 0, List.mem_append] at h
  rcases h with h | h
  · left
    obtain ⟨block, hblock, rfl⟩ := List.mem_map.1 h
    obtain ⟨-, hword, hend⟩ := bounds_of_mem_locateAll hblock
    exact hword.trans hend
  · right
    exact h

/-- A cut within a size word makes that one the first that cannot be read. -/
theorem isLeast_boundary_of_word {offset length : ℕ} {front behind : List BlockLayout}
    (hle : offset + (encodeAll front).length ≤ length)
    (hlt : length < offset + (encodeAll front).length + Format.wordSize) :
    IsLeast {boundary | boundary ∈ boundaries offset (front ++ behind) ∧
      length < boundary + Format.wordSize} (offset + (encodeAll front).length) := by
  constructor
  · refine ⟨?_, hlt⟩
    rw [boundaries_append 0]
    exact List.mem_append_right _ (mem_boundaries _ _)
  · rintro boundary ⟨hmem, hlength⟩
    rcases le_or_ge_of_mem_boundaries hmem with h | h
    · omega
    · exact le_of_mem_boundaries h

/-- A cut behind the size word of a block makes the next one the first that cannot be read. -/
theorem isLeast_boundary_of_block {offset length : ℕ} {front behind : List BlockLayout}
    {block : BlockLayout}
    (hle : offset + (encodeAll front).length + Format.wordSize ≤ length)
    (hlt : length < offset + (encodeAll front).length + block.encode.length) :
    IsLeast {boundary | boundary ∈ boundaries offset (front ++ block :: behind) ∧
      length < boundary + Format.wordSize}
        (offset + (encodeAll front).length + block.encode.length) := by
  constructor
  · refine ⟨?_, by omega⟩
    rw [boundaries_append 0]
    exact List.mem_append_right _ (List.mem_cons_of_mem _ (mem_boundaries _ _))
  · rintro boundary ⟨hmem, hlength⟩
    rcases le_or_ge_of_mem_boundaries hmem with h | h
    · omega
    · rcases List.mem_cons.1 h with rfl | h
      · omega
      · exact le_of_mem_boundaries h

/-- The blocks in front of a cut are the ones that end there or before. -/
theorem countP_locateAll {offset length : ℕ} {front behind : List BlockLayout}
    (hle : offset + (encodeAll front).length ≤ length)
    (hlt : ∀ block ∈ behind.head?,
      length < offset + (encodeAll front).length + block.encode.length) :
    (locateAll 0 offset (front ++ behind)).countP (·.endOffset ≤ length) = front.length := by
  rw [locateAll_append, List.countP_append]
  have hfront : (locateAll 0 offset front).countP (·.endOffset ≤ length) = front.length := by
    rw [← length_locateAll 0 offset front, List.countP_eq_length]
    intro block hblock
    obtain ⟨-, -, hend⟩ := bounds_of_mem_locateAll hblock
    exact decide_eq_true (hend.trans hle)
  rw [hfront, Nat.add_eq_left, List.countP_eq_zero]
  intro located hlocated
  cases behind with
  | nil => cases hlocated
  | cons block behind =>
    have hlt := hlt block rfl
    rcases List.mem_cons.1 hlocated with rfl | hlocated
    · simp only [endOffset_locate, decide_eq_true_eq]
      omega
    · obtain ⟨hstart, hword, -⟩ := bounds_of_mem_locateAll hlocated
      simp only [decide_eq_true_eq]
      omega

/-- A cut before the end of the blocks falls within one of them. -/
theorem exists_of_lt_length {blocks : List BlockLayout} {length : ℕ}
    (h : length < (encodeAll blocks).length) :
    ∃ front block behind, blocks = front ++ block :: behind ∧
      (encodeAll front).length ≤ length ∧
      length < (encodeAll front).length + block.encode.length := by
  induction blocks generalizing length with
  | nil => cases h
  | cons first blocks ih =>
    rw [encodeAll_cons, List.length_append] at h
    by_cases hfirst : length < first.encode.length
    · exact ⟨[], first, blocks, rfl, Nat.zero_le _, by simpa using hfirst⟩
    · have hlt : length - first.encode.length < (encodeAll blocks).length := by omega
      obtain ⟨front, block, behind, rfl, hle, hlt⟩ := ih hlt
      refine ⟨first :: front, block, behind, rfl, ?_⟩
      rw [encodeAll_cons, List.length_append]
      omega

end BlockLayout

namespace Remainder

variable {descriptor : Descriptor} {blocks front behind : List BlockLayout} {block : BlockLayout}
  {rest : List UInt8} {length : ℕ}

theorem take_encodeAll_append (h : (encodeAll blocks).length ≤ length) :
    (encodeAll blocks ++ rest).take length =
      encodeAll blocks ++ rest.take (length - (encodeAll blocks).length) := by
  rw [List.take_append, List.take_of_length_le h]

/-- The cut falls within a block. -/
theorem read_take_of_block
    (hblocks : ∀ written ∈ front ++ block :: behind,
      written.checksum.isSome = descriptor.hasBlockChecksums)
    (hle : (encodeAll front).length ≤ length)
    (hlt : length < (encodeAll front).length + block.encode.length) :
    read descriptor ((encodeAll (front ++ block :: behind) ++ rest).take length) =
      ⟨front, .cutBlock (block.cut (length - (encodeAll front).length))⟩ := by
  have hfront : ∀ written ∈ front, written.checksum.isSome = descriptor.hasBlockChecksums :=
    fun written hmem => hblocks written (List.mem_append_left _ hmem)
  have hsome := hblocks block (List.mem_append_right _ List.mem_cons_self)
  have hcut : Front.read block.checksum.isSome
      (block.encode.take (length - (encodeAll front).length)) = _ :=
    Front.read_take_encode block (by omega)
  rw [BlockLayout.encodeAll_append, encodeAll_cons, List.append_assoc, List.append_assoc,
    take_encodeAll_append hle, List.take_append_of_le_length (by omega),
    read_encodeAll_append hfront, read_of_cut (hsome ▸ hcut), List.append_nil]

/-- The cut falls within the end mark. -/
theorem read_take_of_endMark
    (hblocks : ∀ block ∈ blocks, block.checksum.isSome = descriptor.hasBlockChecksums)
    (hle : (encodeAll blocks).length ≤ length)
    (hlt : length < (encodeAll blocks).length + Format.wordSize) :
    read descriptor ((encodeAll blocks ++ rest).take length) = ⟨blocks, .cutBlock .word⟩ := by
  have hcut : Front.read descriptor.hasBlockChecksums
      (rest.take (length - (encodeAll blocks).length)) = .cut .word :=
    Front.read_of_length_lt (by rw [List.length_take]; omega)
  rw [take_encodeAll_append hle, read_encodeAll_append hblocks, read_of_cut hcut, List.append_nil]

/-- The cut falls within the content checksum. -/
theorem read_take_of_checksum {contentChecksum : Option UInt32}
    (hblocks : ∀ block ∈ blocks, block.checksum.isSome = descriptor.hasBlockChecksums)
    (hchecksum : contentChecksum.isSome = descriptor.hasContentChecksum)
    (hle : (encodeAll blocks).length + Format.wordSize ≤ length)
    (hlt : length < (encodeAll blocks ++
      (Format.endMark ++ Word.encodeOptional contentChecksum)).length) :
    read descriptor ((encodeAll blocks ++
        (Format.endMark ++ Word.encodeOptional contentChecksum)).take length) =
      ⟨blocks, .cutChecksum⟩ := by
  simp only [List.length_append, Format.endMark, Word.length_encode,
    Word.length_encodeOptional, Format.wordSize] at hle hlt
  have hsome : contentChecksum.isSome = true := by
    by_contra hnone
    rw [if_neg hnone] at hlt
    omega
  rw [if_pos hsome] at hlt
  have htake : (Format.endMark ++ Word.encodeOptional contentChecksum).take
      (length - (encodeAll blocks).length) = Format.endMark ++
        (Word.encodeOptional contentChecksum).take (length - (encodeAll blocks).length - 4) := by
    rw [List.take_append, List.take_of_length_le (by
      simp only [Format.endMark, Word.length_encode]
      omega)]
    rfl
  have hnone : Word.readOptional? descriptor.hasContentChecksum
      ((Word.encodeOptional contentChecksum).take
        (length - (encodeAll blocks).length - 4)) = none := by
    refine Word.readOptional?_eq_none_iff.2 ⟨hchecksum ▸ hsome, ?_⟩
    rw [List.length_take]
    omega
  rw [take_encodeAll_append (by omega), htake, read_encodeAll_append hblocks,
    read_of_endMark (Front.read_eq_endMark_iff.2 rfl), Ending.ofRest, hnone, List.append_nil]

end Remainder

end Lz4Frame
