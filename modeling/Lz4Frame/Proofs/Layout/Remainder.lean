import Lz4Frame.Proofs.Layout.Reading

/-! Everything behind a header, read front to back: `Remainder.read` gives the blocks that are whole
and says how they end. It undoes `FrameLayout.remainder`, whatever follows the frame, and nothing
else reads as a complete frame: `Remainder.read_eq_complete_iff`. -/

namespace Lz4Frame

open BlockLayout (encodeAll)

/-- How the bytes behind a header end. -/
inductive Remainder.Ending where
  /-- With an end mark and the content checksum, if there is to be one. -/
  | complete (contentChecksum : Option UInt32) (trailing : List UInt8)
  /-- Within a block or an end mark. -/
  | cutBlock (cut : Cut)
  /-- Within the content checksum. -/
  | cutChecksum

/-- What lies behind a header. -/
structure Remainder where
  blocks : List BlockLayout
  ending : Remainder.Ending

namespace Remainder

/-- What the bytes behind an end mark are. -/
def Ending.ofRest (descriptor : Descriptor) (rest : List UInt8) : Ending :=
  match Word.readOptional? descriptor.hasContentChecksum rest with
  | none => .cutChecksum
  | some (contentChecksum, trailing) => .complete contentChecksum trailing

theorem Ending.ofRest_eq_complete_iff {descriptor : Descriptor} {rest trailing : List UInt8}
    {contentChecksum : Option UInt32} :
    ofRest descriptor rest = .complete contentChecksum trailing ↔
      contentChecksum.isSome = descriptor.hasContentChecksum ∧
        rest = Word.encodeOptional contentChecksum ++ trailing := by
  rw [← Word.readOptional?_eq_some_iff, ofRest]
  split
  next hnone => simp [hnone]
  next hsome => simp [hsome]

theorem length_lt_of_read {checksums : Bool} {bytes rest : List UInt8} {block : BlockLayout}
    (h : Front.read checksums bytes = .block block rest) : rest.length < bytes.length := by
  obtain ⟨-, rfl⟩ := Front.read_eq_block_iff.1 h
  rw [List.length_append, BlockLayout.length_encode]
  omega

/-- The blocks at the front of `bytes` and what follows them. -/
def read (descriptor : Descriptor) (bytes : List UInt8) : Remainder :=
  match _hfront : Front.read descriptor.hasBlockChecksums bytes with
  | .endMark rest => ⟨[], .ofRest descriptor rest⟩
  | .cut cut => ⟨[], .cutBlock cut⟩
  | .block block rest =>
    let remainder := read descriptor rest
    ⟨block :: remainder.blocks, remainder.ending⟩
termination_by bytes.length
decreasing_by exact length_lt_of_read _hfront

variable {descriptor : Descriptor} {bytes rest trailing : List UInt8}

theorem read_of_endMark (h : Front.read descriptor.hasBlockChecksums bytes = .endMark rest) :
    read descriptor bytes = ⟨[], .ofRest descriptor rest⟩ := by
  rw [read]
  split <;> simp_all

theorem read_of_cut {cut : Cut} (h : Front.read descriptor.hasBlockChecksums bytes = .cut cut) :
    read descriptor bytes = ⟨[], .cutBlock cut⟩ := by
  rw [read]
  split <;> simp_all

theorem read_of_block {block : BlockLayout}
    (h : Front.read descriptor.hasBlockChecksums bytes = .block block rest) :
    read descriptor bytes =
      ⟨block :: (read descriptor rest).blocks, (read descriptor rest).ending⟩ := by
  rw [read]
  split <;> simp_all

/-- Whole blocks at the front are read as they were written. -/
theorem read_encodeAll_append {blocks : List BlockLayout}
    (h : ∀ block ∈ blocks, block.checksum.isSome = descriptor.hasBlockChecksums) :
    read descriptor (encodeAll blocks ++ rest) =
      ⟨blocks ++ (read descriptor rest).blocks, (read descriptor rest).ending⟩ := by
  induction blocks with
  | nil => rfl
  | cons block blocks ih =>
    obtain ⟨hblock, hblocks⟩ := List.forall_mem_cons.1 h
    rw [BlockLayout.encodeAll_cons, List.append_assoc,
      read_of_block (Front.read_eq_block_iff.2 ⟨hblock, rfl⟩), ih hblocks]
    rfl

/-- The blocks that are read lie at the front, and behind them there is no other. -/
theorem exists_rest (descriptor : Descriptor) (bytes : List UInt8) :
    ∃ rest, bytes = encodeAll (read descriptor bytes).blocks ++ rest ∧
      read descriptor rest = ⟨[], (read descriptor bytes).ending⟩ ∧
      ∀ block ∈ (read descriptor bytes).blocks,
        block.checksum.isSome = descriptor.hasBlockChecksums := by
  fun_induction read descriptor bytes with
  | case1 bytes rest hfront => exact ⟨bytes, rfl, read_of_endMark hfront, nofun⟩
  | case2 bytes cut hfront => exact ⟨bytes, rfl, read_of_cut hfront, nofun⟩
  | case3 bytes block rest hfront remainder ih =>
    obtain ⟨hsome, rfl⟩ := Front.read_eq_block_iff.1 hfront
    obtain ⟨rest', hrest, hread, hall⟩ := ih
    refine ⟨rest', ?_, hread, List.forall_mem_cons.2 ⟨hsome, hall⟩⟩
    rw [BlockLayout.encodeAll_cons, List.append_assoc, ← hrest]

/-- Exactly the bytes of a frame read as a complete one. -/
theorem read_eq_complete_iff {blocks : List BlockLayout} {contentChecksum : Option UInt32} :
    read descriptor bytes = ⟨blocks, .complete contentChecksum trailing⟩ ↔
      (∀ block ∈ blocks, block.checksum.isSome = descriptor.hasBlockChecksums) ∧
        contentChecksum.isSome = descriptor.hasContentChecksum ∧
        bytes = encodeAll blocks ++
          (Format.endMark ++ (Word.encodeOptional contentChecksum ++ trailing)) := by
  constructor
  · intro h
    obtain ⟨rest, hbytes, hrest, hall⟩ := exists_rest descriptor bytes
    rw [h] at hbytes hrest hall
    have hending : ∃ behind, rest = Format.endMark ++ behind ∧
        Ending.ofRest descriptor behind = .complete contentChecksum trailing := by
      cases hfront : Front.read descriptor.hasBlockChecksums rest with
      | endMark behind =>
        rw [read_of_endMark hfront] at hrest
        exact ⟨behind, Front.read_eq_endMark_iff.1 hfront, congrArg Remainder.ending hrest⟩
      | cut cut =>
        rw [read_of_cut hfront] at hrest
        cases hrest
      | block block behind =>
        rw [read_of_block hfront] at hrest
        cases hrest
    obtain ⟨behind, rfl, hbehind⟩ := hending
    obtain ⟨hsome, rfl⟩ := Ending.ofRest_eq_complete_iff.1 hbehind
    exact ⟨hall, hsome, hbytes⟩
  · rintro ⟨hall, hsome, rfl⟩
    rw [read_encodeAll_append hall, read_of_endMark (Front.read_eq_endMark_iff.2 rfl),
      Ending.ofRest_eq_complete_iff.2 ⟨hsome, rfl⟩, List.append_nil]

end Remainder

end Lz4Frame
