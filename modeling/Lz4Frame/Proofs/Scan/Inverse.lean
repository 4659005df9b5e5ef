import Lz4Frame.Content
import Lz4Frame.Proofs.Scan

/-! Scanning undoes writing, and only that. A written frame is found as it was written, whatever
follows it, and the bytes up to the end of a complete frame are the ones that its fields and its
bodies in the input make up again, `Frame.encode`. -/

namespace Lz4Frame

open BlockLayout (encodeAll encodeAll_cons locateAll)

namespace Block

/-- The size word of a block. -/
def word (block : Block) : ℕ :=
  match block.kind with
  | .compressed => block.size
  | .uncompressed => Format.storedFlag + block.size

/-- The bytes of a block, written again with its body in `input`. -/
def encode (input : Bytes) (block : Block) : List UInt8 :=
  Word.encode 4 block.word ++ (block.body input).toList ++ Word.encodeOptional block.checksum

end Block

/-- The bytes of a frame, written again with its bodies in `input`. -/
def Frame.encode (input : Bytes) (frame : Frame) : List UInt8 :=
  frame.header.encode ++ frame.blocks.flatMap (Block.encode input) ++ Format.endMark ++
    Word.encodeOptional frame.contentChecksum

/-! ### Bodies -/

theorem BlockLayout.slice?_locate {input : Bytes} {block : BlockLayout} {offset : ℕ}
    {rest : List UInt8} (index : ℕ) (h : input.toList.drop offset = block.encode ++ rest) :
    input.slice? (block.locate index offset).bodyOffset block.body.size = some block.body := by
  have hsize := Scanner.add_length_le_size h (by
    intro hnil
    have := congrArg List.length hnil
    rw [BlockLayout.length_encode, List.length_nil] at this
    omega)
  rw [BlockLayout.length_encode] at hsize
  have hdrop : input.toList.drop (offset + 4) =
      block.body.toList ++ (Word.encodeOptional block.checksum ++ rest) := by
    rw [← List.drop_drop, h, BlockLayout.encode, List.append_assoc, List.append_assoc,
      List.drop_left' (Word.length_encode 4 _)]
  rw [Bytes.slice?_eq_some_iff]
  simp only [BlockLayout.locate, Format.wordSize]
  refine ⟨by omega, Array.toList_inj.1 ?_⟩
  rw [Array.toList_extract, List.extract_eq_take_drop, hdrop, Nat.add_sub_cancel_left,
    ← Array.length_toList, List.take_left]

theorem BlockLayout.body_locate {input : Bytes} {block : BlockLayout} {offset : ℕ}
    {rest : List UInt8} (index : ℕ) (h : input.toList.drop offset = block.encode ++ rest) :
    (block.locate index offset).body input = block.body := by
  rw [Block.body, show (block.locate index offset).size = block.body.size from rfl,
    slice?_locate index h]
  rfl

namespace BlockLayout

variable {input : Bytes} {blocks : List BlockLayout} {rest : List UInt8} {index offset : ℕ}

/-- Each block is located where it was written. -/
theorem getElem?_locateAll (h : input.toList.drop offset = encodeAll blocks ++ rest) {i : ℕ}
    {block : Block} {written : BlockLayout}
    (hblock : (locateAll index offset blocks)[i]? = some block)
    (hwritten : blocks[i]? = some written) :
    ∃ position behind, block = written.locate (index + i) position ∧
      input.toList.drop position = written.encode ++ behind := by
  induction blocks generalizing index offset i with
  | nil => cases hwritten
  | cons first blocks ih =>
    rw [encodeAll_cons, List.append_assoc] at h
    cases i with
    | zero =>
      cases hblock
      cases hwritten
      exact ⟨offset, _, rfl, h⟩
    | succ i =>
      have hdrop : input.toList.drop (offset + first.encode.length) =
          encodeAll blocks ++ rest := by
        rw [← List.drop_drop, h, List.drop_left]
      obtain ⟨position, behind, rfl, hposition⟩ := ih hdrop hblock hwritten
      exact ⟨position, behind, by rw [Nat.add_assoc, Nat.add_comm 1], hposition⟩

/-- What holds of a written block and the one that is located there holds of all of them. -/
theorem map_locateAll {α : Type} {f : Block → α} {g : BlockLayout → α}
    (hf : ∀ (block : BlockLayout) (index position : ℕ) (behind : List UInt8),
      input.toList.drop position = block.encode ++ behind →
        f (block.locate index position) = g block)
    (h : input.toList.drop offset = encodeAll blocks ++ rest) :
    (locateAll index offset blocks).map f = blocks.map g := by
  apply List.ext_getElem
  · simp
  · intro i hi hi'
    rw [List.length_map] at hi hi'
    rw [List.getElem_map, List.getElem_map]
    obtain ⟨position, behind, hblock, hposition⟩ :=
      getElem?_locateAll h (List.getElem?_eq_getElem hi) (List.getElem?_eq_getElem hi')
    rw [hblock, hf _ _ _ _ hposition]

theorem encode_locate {block : BlockLayout} (index : ℕ)
    (h : input.toList.drop offset = block.encode ++ rest) :
    (block.locate index offset).encode input = block.encode := by
  rw [Block.encode, body_locate index h]
  rfl

end BlockLayout

/-! ### Frames -/

namespace FrameLayout

theorem drop_length_header {input : Bytes} {frame : FrameLayout} {trailing : List UInt8}
    (h : input.toList = frame.encode ++ trailing) :
    input.toList.drop frame.header.length = encodeAll frame.blocks ++
      (Format.endMark ++ (Word.encodeOptional frame.contentChecksum ++ trailing)) := by
  rw [h, encode, List.append_assoc, ← Header.length_encode, List.drop_left]
  simp only [remainder, List.append_assoc]

theorem encode_locate {input : Bytes} {frame : FrameLayout} {trailing : List UInt8}
    (h : input.toList = frame.encode ++ trailing) : frame.locate.encode input = frame.encode := by
  have hblocks : frame.locate.blocks.map (Block.encode input) =
      frame.blocks.map BlockLayout.encode :=
    BlockLayout.map_locateAll (fun _ index _ _ => BlockLayout.encode_locate index)
      (drop_length_header h)
  rw [Frame.encode, List.flatMap_def, hblocks, ← List.flatMap_def]
  simp [encode, remainder, locate, encodeAll]

/-- What lies behind the header of a written frame and something that follows it. -/
def found (frame : FrameLayout) (trailing : List UInt8) : Remainder :=
  ⟨frame.blocks, .complete frame.contentChecksum trailing⟩

theorem read_of_encode {input : Bytes} {frame : FrameLayout} {trailing : List UInt8}
    (h : input.toList = frame.encode ++ trailing) :
    frame.header.encode <+: input.toList ∧
      Remainder.read frame.header.descriptor (input.toList.drop frame.header.length) =
        frame.found trailing := by
  refine ⟨⟨_, by rw [h, encode, List.append_assoc]⟩, ?_⟩
  exact Remainder.read_eq_complete_iff.2
    ⟨frame.isSome_checksum, frame.isSome_contentChecksum, drop_length_header h⟩

theorem outcome_found (frame : FrameLayout) (trailing : List UInt8) :
    (frame.found trailing).outcome frame.header [] frame.header.length =
      { frame := some frame.locate } := by
  simp only [found, Remainder.outcome, locate, encode, remainder, List.length_append,
    Header.length_encode, Format.endMark, Word.length_encode, List.nil_append, List.length_nil,
    Nat.add_assoc, Format.wordSize]

/-- A written frame is found as it was written, whatever follows it. -/
theorem scan_encode_append {input : Bytes} {frame : FrameLayout} {trailing : List UInt8}
    (h : input.toList = frame.encode ++ trailing) :
    Id.run (scan (pure false) input) = { frame := some frame.locate } := by
  obtain ⟨hheader, hread⟩ := read_of_encode h
  rw [scan_of_header hheader, hread, outcome_found]

theorem scan_encode (frame : FrameLayout) :
    Id.run (scan (pure false) frame.encode.toArray) = { frame := some frame.locate } :=
  scan_encode_append (List.append_nil _).symm

/-- An input starts with a written frame, or its scan ends with an error before the end of one. -/
theorem exists_or_fatal (input : Bytes) :
    (∃ frame : FrameLayout, ∃ trailing, input.toList = frame.encode ++ trailing) ∨
      (Id.run (scan (pure false) input)).fatal.isSome ∧
        (Id.run (scan (pure false) input)).frame.bind Frame.endOffset = none := by
  by_cases hheader : ∃ header : Header, header.encode <+: input.toList
  · obtain ⟨header, hheader⟩ := hheader
    obtain ⟨behind, hbehind⟩ := hheader
    have hdrop := Header.drop_length hbehind.symm
    rw [scan_of_header ⟨behind, hbehind⟩, hdrop]
    rcases hread : Remainder.read header.descriptor behind with ⟨blocks, ending⟩
    cases ending with
    | cutBlock cut => exact .inr ⟨rfl, rfl⟩
    | cutChecksum => exact .inr ⟨rfl, rfl⟩
    | complete contentChecksum trailing =>
      obtain ⟨hblocks, hchecksum, rfl⟩ := Remainder.read_eq_complete_iff.1 hread
      let frame : FrameLayout := ⟨header, blocks, contentChecksum, hblocks, hchecksum⟩
      exact .inl ⟨frame, trailing, by rw [← hbehind]; simp [frame, encode, remainder]⟩
  · obtain ⟨error, hscan⟩ := scan_of_not_header (not_exists.1 hheader)
    rw [hscan]
    exact .inr ⟨rfl, rfl⟩

/-- Each complete frame that a scan finds was written there. -/
theorem exists_of_scan {input : Bytes} {found : Frame} {endOffset : ℕ}
    (hfound : (Id.run (scan (pure false) input)).frame = some found)
    (hend : found.endOffset = some endOffset) :
    ∃ frame : FrameLayout, ∃ trailing,
      found = frame.locate ∧ input.toList = frame.encode ++ trailing := by
  rcases exists_or_fatal input with ⟨frame, trailing, hinput⟩ | ⟨-, hnone⟩
  · rw [scan_encode_append hinput] at hfound
    cases hfound
    exact ⟨frame, trailing, rfl, hinput⟩
  · rw [hfound, Option.bind_some, hend] at hnone
    cases hnone

variable {input : Bytes} {frame : FrameLayout} {trailing : List UInt8}

/-- Each block that is located in an input has its body there. -/
theorem slice?_body_locate (h : input.toList = frame.encode ++ trailing) {i : ℕ} {block : Block}
    {written : BlockLayout} (hblock : frame.locate.blocks[i]? = some block)
    (hwritten : frame.blocks[i]? = some written) :
    ∃ position, block = written.locate i position ∧
      input.slice? block.bodyOffset block.size = some written.body := by
  obtain ⟨position, behind, rfl, hposition⟩ :=
    BlockLayout.getElem?_locateAll (drop_length_header h) hblock hwritten
  exact ⟨position, by rw [Nat.zero_add], BlockLayout.slice?_locate _ hposition⟩

theorem slice?_of_mem_locate (h : input.toList = frame.encode ++ trailing) {block : Block}
    (hmem : block ∈ frame.locate.blocks) :
    input.slice? block.bodyOffset block.size = some (block.body input) := by
  obtain ⟨i, hi⟩ := List.mem_iff_getElem?.1 hmem
  have hlt : i < frame.blocks.length := by
    rw [← BlockLayout.length_locateAll 0 frame.header.length]
    exact (List.getElem?_eq_some_iff.1 hi).1
  obtain ⟨position, -, hslice⟩ := slice?_body_locate h hi (List.getElem?_eq_getElem hlt)
  rw [Block.body, hslice, Option.getD_some]

theorem extract_encode (h : input.toList = frame.encode ++ trailing) :
    frame.encode.length ≤ input.size ∧
      (input.extract 0 frame.encode.length).toList = frame.encode := by
  constructor
  · rw [← Array.length_toList, h, List.length_append]
    exact Nat.le_add_right _ _
  · rw [Array.toList_extract, List.extract_eq_take_drop, h, List.drop_zero, Nat.sub_zero,
      List.take_left]

end FrameLayout

/-- Scanning is the exact inverse of writing a frame: a written frame is found with everything that
was written, whatever follows it, and a complete frame is found only where its bytes are. -/
theorem scan_inverse :
    (∀ (frame : FrameLayout) (trailing : List UInt8),
      let input : Bytes := (frame.encode ++ trailing).toArray
      ∃ found : Frame, Id.run (scan (pure false) input) = { frame := some found } ∧
        found.header = frame.header ∧ found.contentChecksum = frame.contentChecksum ∧
        found.endOffset = some frame.encode.length ∧ found.blocks.length = frame.blocks.length ∧
        ∀ (i : ℕ) (block : Block) (written : BlockLayout),
          found.blocks[i]? = some block → frame.blocks[i]? = some written →
            block.index = i ∧ block.kind = written.kind ∧ block.size = written.body.size ∧
              block.checksum = written.checksum ∧
              input.slice? block.bodyOffset block.size = some written.body) ∧
      ∀ (input : Bytes) (found : Frame) (endOffset : ℕ),
        (Id.run (scan (pure false) input)).frame = some found →
          found.endOffset = some endOffset →
            endOffset ≤ input.size ∧
              (∀ block ∈ found.blocks,
                input.slice? block.bodyOffset block.size = some (block.body input)) ∧
              (input.extract 0 endOffset).toList = found.encode input := by
  constructor
  · intro frame trailing input
    have hinput : input.toList = frame.encode ++ trailing := rfl
    refine ⟨frame.locate, FrameLayout.scan_encode_append hinput, rfl, rfl, rfl,
      BlockLayout.length_locateAll _ _ _, ?_⟩
    intro i block written hblock hwritten
    obtain ⟨position, rfl, hslice⟩ := FrameLayout.slice?_body_locate hinput hblock hwritten
    exact ⟨rfl, rfl, rfl, rfl, hslice⟩
  · intro input found endOffset hfound hend
    obtain ⟨frame, trailing, rfl, hinput⟩ := FrameLayout.exists_of_scan hfound hend
    cases hend
    obtain ⟨hle, hextract⟩ := FrameLayout.extract_encode hinput
    refine ⟨hle, ?_, ?_⟩
    · intro block hmem
      exact FrameLayout.slice?_of_mem_locate hinput hmem
    · rw [hextract, FrameLayout.encode_locate hinput]

/-- A frame of one letter. -/
def FrameLayout.letter : FrameLayout where
  header := ⟨⟨0x60, 0x40, by decide, by decide⟩, none, none, by decide, by decide⟩
  blocks := [⟨.uncompressed, #[0x61], none, by decide, nofun⟩]
  contentChecksum := none
  isSome_checksum := by decide
  isSome_contentChecksum := by decide

/-- Four letters as they are, a run of letters, and a block of nothing. -/
def BlockLayout.letters : BlockLayout :=
  ⟨.uncompressed, #[0x61, 0x62, 0x63, 0x64], some 0xA3643705, by decide, by decide⟩

def BlockLayout.repeated : BlockLayout :=
  ⟨.compressed, #[0x11, 0x78, 0x01, 0x00, 0x10, 0x79], some 0x56DA1D6C, by decide, by decide⟩

def BlockLayout.nothing : BlockLayout :=
  ⟨.uncompressed, #[], some 0x02CC5D05, by decide, by decide⟩

/-- Three blocks with everything that a frame can announce. The content is abcdxxxxxxy. -/
def FrameLayout.phrase : FrameLayout where
  header := ⟨⟨0x7D, 0x40, by decide, by decide⟩, some 11, some 7, by decide, by decide⟩
  blocks := [.letters, .repeated, .nothing]
  contentChecksum := some 0xA6673EC4
  isSome_checksum := by decide
  isSome_contentChecksum := by decide

/-- Its bytes. -/
def FrameLayout.phraseBytes : Bytes :=
  #[0x04, 0x22, 0x4D, 0x18, 0x7D, 0x40, 0x0B, 0x00, 0x00, 0x00, 0x00, 0x00, 0x00, 0x00, 0x07, 0x00,
    0x00, 0x00, 0x58, 0x04, 0x00, 0x00, 0x80, 0x61, 0x62, 0x63, 0x64, 0x05, 0x37, 0x64, 0xA3, 0x06,
    0x00, 0x00, 0x00, 0x11, 0x78, 0x01, 0x00, 0x10, 0x79, 0x6C, 0x1D, 0xDA, 0x56, 0x00, 0x00, 0x00,
    0x80, 0x05, 0x5D, 0xCC, 0x02, 0x00, 0x00, 0x00, 0x00, 0xC4, 0x3E, 0x67, 0xA6]

theorem FrameLayout.phraseBytes_eq : phraseBytes = phrase.encode.toArray := by decide +kernel

theorem FrameLayout.scan_phraseBytes :
    Id.run (scan (pure false) phraseBytes) = { frame := some phrase.locate } := by
  rw [phraseBytes_eq, scan_encode]

theorem scan_inverse_phrase :
    let input := FrameLayout.phraseBytes ++ #[0xFF]
    ∃ found block, (Id.run (scan (pure false) input)).frame = some found ∧
      found.header = FrameLayout.phrase.header ∧ found.contentChecksum = some 0xA6673EC4 ∧
      found.blocks.length = 3 ∧ found.blocks[1]? = some block ∧ block.index = 1 ∧
      block.kind = .compressed ∧ block.checksum = some 0x56DA1D6C ∧
      input.slice? block.bodyOffset block.size = some #[0x11, 0x78, 0x01, 0x00, 0x10, 0x79] ∧
      found.endOffset = some 61 ∧ (input.extract 0 61).toList = found.encode input := by
  intro input
  have hinput : input = (FrameLayout.phrase.encode ++ [0xFF]).toArray := by
    rw [← List.append_toArray, ← FrameLayout.phraseBytes_eq]
  obtain ⟨found, hscan, hheader, hchecksum, hend, hlength, hblocks⟩ := scan_inverse.1 .phrase [0xFF]
  rw [← hinput] at hscan hblocks
  have hlt : 1 < found.blocks.length := by
    rw [hlength]
    decide
  have hblock := List.getElem?_eq_getElem hlt
  obtain ⟨hindex, hkind, -, hstored, hslice⟩ := hblocks 1 _ _ hblock rfl
  have hfound : (Id.run (scan (pure false) input)).frame = some found := by rw [hscan]
  obtain ⟨-, -, hextract⟩ := scan_inverse.2 input found 61 hfound hend
  exact ⟨found, _, hfound, hheader, hchecksum, hlength, hblock, hindex, hkind, hstored, hslice, hend,
    hextract⟩

end Lz4Frame
