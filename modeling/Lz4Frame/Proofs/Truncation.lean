import Lz4Frame.Proofs.Analysis
import Lz4Frame.Proofs.Layout.Truncation

/-! The analysis of a complete frame that is cut short behind its header. It names the first size
word that cannot be read any more, reports the blocks in front of the cut as it does for the whole
frame, and has no content. -/

namespace Lz4Frame

open BlockLayout (encodeAll encodeAll_cons locateAll boundaries)

/-- The block that a part of a frame belongs to. -/
def Part.blockIndex : Part → Option ℕ
  | .blockSize index => some index
  | .blockBody index => some index
  | .blockChecksum index => some index
  | _ => none

namespace Frame

/-- Where the end mark of a complete frame starts. -/
def endMarkOffset (frame : Frame) : ℕ :=
  frame.blocks.getLast?.elim frame.header.length Block.endOffset

/-- Where the size words of a complete frame start, the one of the end mark included. -/
def sizeWordOffsets (frame : Frame) : List ℕ :=
  frame.blocks.map Block.offset ++ [frame.endMarkOffset]

end Frame

namespace FrameLayout

theorem endMarkOffset_locate (frame : FrameLayout) :
    frame.locate.endMarkOffset = frame.header.length + (encodeAll frame.blocks).length := by
  unfold Frame.endMarkOffset locate
  rcases List.eq_nil_or_concat frame.blocks with hnil | ⟨front, block, hconcat⟩
  · rw [hnil]
    rfl
  · rw [hconcat, List.concat_eq_append, BlockLayout.locateAll_append,
      BlockLayout.encodeAll_append, List.length_append, ← Nat.add_assoc]
    simp [locateAll, BlockLayout.endOffset_locate]

theorem sizeWordOffsets_locate (frame : FrameLayout) :
    frame.locate.sizeWordOffsets = boundaries frame.header.length frame.blocks := by
  rw [Frame.sizeWordOffsets, endMarkOffset_locate]
  exact BlockLayout.map_offset_locateAll 0 _ _

end FrameLayout

/-! ### Incomplete frames -/

namespace Remainder

/-- What a scan says about such an ending behind `index` blocks that end at `offset`. -/
def Ending.error? (descriptor : Descriptor) (index offset : ℕ) : Ending → Option ScanError
  | .complete .. => none
  | .cutBlock cut => some (cut.error descriptor index offset)
  | .cutChecksum => some (.unexpectedEnd (offset + Format.wordSize) .contentChecksum)

/-- A frame that ends with an error has an invalid report without any content. -/
theorem report_of_error {header : Header} {blocks : List BlockLayout} {ending : Ending}
    {error : ScanError} (decompressor : Decompressor) (options : Options) (input : Bytes)
    (h : ending.error? header.descriptor blocks.length
      (header.length + (encodeAll blocks).length) = some error) :
    let report := Report.of input (outcome header [] header.length ⟨blocks, ending⟩)
      (content decompressor options header ⟨blocks, ending⟩)
    report.verdict = .invalid (.scan error) ∧ report.frameEnd = none ∧
      report.contentSize = none ∧ report.content = none ∧
      ∀ check, report.contentChecksum ≠ .checked check := by
  intro report
  have hchecksum : ∀ check, CheckOutcome.ofContent header.descriptor.hasContentChecksum
      options.verifyChecksums none none ≠ .checked check := by
    intro check
    cases hannounced : header.descriptor.hasContentChecksum <;> simp [CheckOutcome.ofContent]
  have hcontent : (if options.keepContent then (none : Option Bytes) else none) = none := ite_self _
  cases ending with
  | complete contentChecksum trailing => cases h
  | cutBlock cut =>
    obtain rfl := Option.some.inj h
    refine ⟨?_, rfl, rfl, hcontent, hchecksum⟩
    simp [report, Report.of, outcome, Verdict.ofFindings]
  | cutChecksum =>
    obtain rfl := Option.some.inj h
    exact ⟨rfl, rfl, rfl, hcontent, hchecksum⟩

end Remainder

/-! ### Rows -/

theorem BlockRow.of_extract {input : Bytes} {block : Block} {length : ℕ}
    (h : block.endOffset ≤ length) (outcome : BlockOutcome) :
    BlockRow.of (input.extract 0 length) block outcome = BlockRow.of input block outcome := by
  have hsample : block.bodyOffset + min Format.sampleSize block.size ≤ length := by
    rw [Block.endOffset, Block.bodyEnd] at h
    omega
  simp only [BlockRow.of, Bytes.sample, Array.extract_extract, Nat.zero_add,
    Nat.min_eq_left hsample]

/-- Rows of blocks that lie in front of a cut are the same for the whole input. -/
theorem BlockRow.zipWith_of_extract {input : Bytes} {blocks : List Block} {length : ℕ}
    (h : ∀ block ∈ blocks, block.endOffset ≤ length) (outcomes : List BlockOutcome) :
    blocks.zipWith (BlockRow.of (input.extract 0 length)) outcomes =
      blocks.zipWith (BlockRow.of input) outcomes := by
  induction blocks generalizing outcomes with
  | nil => rfl
  | cons block blocks ih =>
    obtain ⟨hblock, hblocks⟩ := List.forall_mem_cons.1 h
    cases outcomes with
    | nil => rfl
    | cons outcome outcomes =>
      rw [List.zipWith_cons_cons, List.zipWith_cons_cons, BlockRow.of_extract hblock, ih hblocks]

theorem BlockLayout.take_decodeAll (decompressor : Decompressor) (options : Options)
    (linked : Bool) (maxSize index : ℕ) (history : Bytes) (front behind : List BlockLayout) :
    (decodeAll decompressor options linked maxSize index history (front ++ behind)).take
        front.length =
      decodeAll decompressor options linked maxSize index history front := by
  induction front generalizing index history with
  | nil => rfl
  | cons block front ih =>
    simp only [List.cons_append, decodeAll, List.length_cons, List.take_succ_cons, ih]

/-- The rows of the blocks in front of a cut are the first rows of the whole frame. -/
theorem Remainder.rows_of_front {header : Header} {input : Bytes} {length : ℕ}
    {front behind : List BlockLayout} {ending ending' : Ending} (decompressor : Decompressor)
    (options : Options) (hle : header.length + (encodeAll front).length ≤ length) :
    let cut : Remainder := ⟨front, ending⟩
    let whole : Remainder := ⟨front ++ behind, ending'⟩
    (cut.outcome header [] header.length).rows (input.extract 0 length)
        (cut.content decompressor options header) =
      ((whole.outcome header [] header.length).rows input
        (whole.content decompressor options header)).take front.length := by
  intro cut whole
  have hlocated : (locateAll 0 header.length (front ++ behind)).take front.length =
      locateAll 0 header.length front := by
    rw [BlockLayout.locateAll_append, List.take_left' (BlockLayout.length_locateAll _ _ _)]
  have hle' : ∀ block ∈ locateAll 0 header.length front, block.endOffset ≤ length := by
    intro block hblock
    obtain ⟨-, -, hend⟩ := BlockLayout.bounds_of_mem_locateAll hblock
    exact hend.trans hle
  rw [rows_outcome, rows_outcome, blocks_content, blocks_content, List.take_zipWith,
    ← List.map_take, decoded, decoded, BlockLayout.take_decodeAll, hlocated,
    BlockRow.zipWith_of_extract hle']

/-! ### The cut -/

/-- The error of a block that is cut short names its own size word if that is cut, and else the one
behind it. -/
theorem BlockLayout.error_cut {descriptor : Descriptor} {block : BlockLayout} {length : ℕ}
    (hsome : block.checksum.isSome = descriptor.hasBlockChecksums)
    (h : length < block.encode.length) (index offset : ℕ) :
    ∃ part, Part.blockIndex part = some index ∧
      (block.cut length).error descriptor index offset =
        .unexpectedEnd (if length < Format.wordSize then offset else offset + block.encode.length)
          part := by
  have hlength := block.length_encode
  by_cases hword : length < Format.wordSize
  · rw [cut, if_pos hword, if_pos hword]
    exact ⟨_, rfl, rfl⟩
  rw [cut, if_neg hword, if_neg hword]
  by_cases hbody : length < Format.wordSize + block.body.size
  · rw [if_pos hbody]
    refine ⟨.blockBody index, rfl, ?_⟩
    rw [Cut.error, Descriptor.blockChecksumSize, ← hsome, hlength]
    simp only [Format.wordSize, Nat.add_assoc]
  · rw [if_neg hbody]
    refine ⟨.blockChecksum index, rfl, ?_⟩
    have hchecksum : block.checksum.isSome = true := by
      by_contra hnone
      rw [if_neg hnone] at hlength
      simp only [Format.wordSize] at hbody
      omega
    rw [Cut.error, hlength, if_pos hchecksum]
    simp only [Format.wordSize, Nat.add_assoc]

/-- A frame that is cut short behind its header: what there is in front of the cut and the error
that it leads to. -/
structure FrameLayout.Truncation (frame : FrameLayout) (length : ℕ) where
  front : List BlockLayout
  behind : List BlockLayout
  ending : Remainder.Ending
  offset : ℕ
  part : Part
  blocks_eq : frame.blocks = front ++ behind
  read_eq : Remainder.read frame.header.descriptor
    (frame.remainder.take (length - frame.header.length)) = ⟨front, ending⟩
  error_eq : ending.error? frame.header.descriptor front.length
    (frame.header.length + (encodeAll front).length) = some (.unexpectedEnd offset part)
  front_le : frame.header.length + (encodeAll front).length ≤ length
  lt_behind : ∀ block ∈ behind.head?,
    length < frame.header.length + (encodeAll front).length + block.encode.length
  blockIndex_eq : ∀ index, part.blockIndex = some index → index = front.length
  isLeast_offset :
    length < frame.header.length + (encodeAll frame.blocks).length + Format.wordSize →
      IsLeast {boundary | boundary ∈ boundaries frame.header.length frame.blocks ∧
        length < boundary + Format.wordSize} offset
  offset_eq :
    frame.header.length + (encodeAll frame.blocks).length + Format.wordSize ≤ length →
      offset = frame.header.length + (encodeAll frame.blocks).length + Format.wordSize

namespace FrameLayout

variable {frame : FrameLayout} {rest : ℕ}

/-- The cut falls within a block. -/
theorem truncation_of_block (h : rest < (encodeAll frame.blocks).length) :
    Nonempty (frame.Truncation (frame.header.length + rest)) := by
  obtain ⟨front, block, behind, hblocks, hfront, hbehind⟩ := BlockLayout.exists_of_lt_length h
  have hsome := frame.isSome_checksum
  rw [hblocks] at hsome
  have hread : Remainder.read frame.header.descriptor
      (frame.remainder.take (frame.header.length + rest - frame.header.length)) =
        ⟨front, .cutBlock (block.cut (rest - (encodeAll front).length))⟩ := by
    rw [remainder, hblocks, Nat.add_sub_cancel_left]
    exact Remainder.read_take_of_block hsome hfront hbehind
  have hlt : rest - (encodeAll front).length < block.encode.length := by omega
  obtain ⟨part, hindex, herror⟩ := BlockLayout.error_cut
    (hsome block (List.mem_append_right _ List.mem_cons_self)) hlt front.length
    (frame.header.length + (encodeAll front).length)
  refine ⟨⟨front, block :: behind, _, _, part, hblocks, hread, congrArg some herror, by omega, ?_,
    ?_, fun _ => ?_, fun hge => absurd hge (by omega)⟩⟩
  · intro first hfirst
    cases hfirst
    omega
  · intro index hpart
    rw [hindex] at hpart
    exact (Option.some.inj hpart).symm
  · rw [hblocks]
    split_ifs with hword
    · exact BlockLayout.isLeast_boundary_of_word (by omega) (by omega)
    · exact BlockLayout.isLeast_boundary_of_block (by omega) (by omega)

/-- The cut falls within the end mark. -/
theorem truncation_of_endMark (hle : (encodeAll frame.blocks).length ≤ rest)
    (hlt : rest < (encodeAll frame.blocks).length + Format.wordSize) :
    Nonempty (frame.Truncation (frame.header.length + rest)) := by
  have hread : Remainder.read frame.header.descriptor
      (frame.remainder.take (frame.header.length + rest - frame.header.length)) =
        ⟨frame.blocks, .cutBlock .word⟩ := by
    rw [remainder, Nat.add_sub_cancel_left]
    exact Remainder.read_take_of_endMark frame.isSome_checksum hle hlt
  refine ⟨⟨frame.blocks, [], _, _, _, (List.append_nil _).symm, hread, rfl, by omega, ?_, ?_,
    fun _ => ?_, fun hge => absurd hge (by omega)⟩⟩
  · intro block hblock
    cases hblock
  · intro index hpart
    exact (Option.some.inj hpart).symm
  · have hleast : IsLeast {boundary | boundary ∈ boundaries frame.header.length
        (frame.blocks ++ []) ∧ frame.header.length + rest < boundary + Format.wordSize} _ :=
      BlockLayout.isLeast_boundary_of_word (by omega) (by omega)
    rwa [List.append_nil] at hleast

/-- The cut falls within the content checksum. -/
theorem truncation_of_checksum
    (hle : (encodeAll frame.blocks).length + Format.wordSize ≤ rest)
    (hlt : rest < frame.remainder.length) :
    Nonempty (frame.Truncation (frame.header.length + rest)) := by
  have hread : Remainder.read frame.header.descriptor
      (frame.remainder.take (frame.header.length + rest - frame.header.length)) =
        ⟨frame.blocks, .cutChecksum⟩ := by
    rw [remainder, Nat.add_sub_cancel_left]
    exact Remainder.read_take_of_checksum frame.isSome_checksum frame.isSome_contentChecksum hle hlt
  refine ⟨⟨frame.blocks, [], _, _, _, (List.append_nil _).symm, hread, rfl, by omega, ?_, ?_,
    fun hgt => absurd hgt (by omega), fun _ => rfl⟩⟩
  · intro block hblock
    cases hblock
  · intro index hpart
    cases hpart

/-- Every frame can be cut anywhere behind its header. -/
theorem nonempty_truncation {length : ℕ} (hle : frame.header.length ≤ length)
    (hlt : length < frame.encode.length) : Nonempty (frame.Truncation length) := by
  obtain ⟨rest, rfl⟩ := Nat.exists_eq_add_of_le hle
  rw [encode, List.length_append, Header.length_encode, Nat.add_lt_add_iff_left] at hlt
  by_cases hblock : rest < (encodeAll frame.blocks).length
  · exact truncation_of_block hblock
  by_cases hendMark : rest < (encodeAll frame.blocks).length + Format.wordSize
  · exact truncation_of_endMark (Nat.not_lt.1 hblock) hendMark
  · exact truncation_of_checksum (Nat.not_lt.1 hendMark) hlt

/-- The input up to the cut. -/
theorem toList_extract_cut {input : Bytes} {trailing : List UInt8} {length : ℕ}
    (h : input.toList = frame.encode ++ trailing) (hle : frame.header.length ≤ length)
    (hlt : length < frame.encode.length) :
    (input.extract 0 length).toList =
      frame.header.encode ++ frame.remainder.take (length - frame.header.length) := by
  rw [Array.toList_extract, List.extract_eq_take_drop, List.drop_zero, Nat.sub_zero, h,
    List.take_append_of_le_length hlt.le, encode, List.take_append, Header.length_encode,
    List.take_of_length_le (by rw [Header.length_encode]; exact hle)]

/-- The report on what is in front of a cut. -/
theorem reportBy_cut (schedule : Schedule) (decompressor : Decompressor) (options : Options)
    {input : Bytes} {trailing : List UInt8} {length : ℕ}
    (h : input.toList = frame.encode ++ trailing) (hle : frame.header.length ≤ length)
    (hlt : length < frame.encode.length) (truncation : frame.Truncation length) :
    reportBy schedule decompressor options (input.extract 0 length) =
      .of (input.extract 0 length)
        (Remainder.outcome frame.header [] frame.header.length
          ⟨truncation.front, truncation.ending⟩)
        (Remainder.content decompressor options frame.header
          ⟨truncation.front, truncation.ending⟩) := by
  have hinput := toList_extract_cut h hle hlt
  have hdrop := Header.drop_length hinput
  rw [reportBy_of_header schedule decompressor options ⟨_, hinput.symm⟩, hdrop,
    truncation.read_eq]

end FrameLayout

/-- **Truncation.** A complete frame that is cut short behind its header has an invalid report. It
names the first size word that does not lie in front of the cut as a whole, or else the content
checksum. Its rows are the first rows of the report on the whole input, one for each block in front
of the cut, and there is no content. -/
theorem reportBy_of_truncated (schedule schedule' : Schedule) (decompressor : Decompressor)
    (options : Options) {input : Bytes} {frame : Frame} {endOffset length : ℕ}
    (hscan : (Id.run (scan (pure false) input)).frame = some frame)
    (hend : frame.endOffset = some endOffset) (hle : frame.header.length ≤ length)
    (hlt : length < endOffset) :
    let full := reportBy schedule decompressor options input
    let cut := reportBy schedule' decompressor options (input.extract 0 length)
    (∃ offset part, cut.verdict = .invalid (.scan (.unexpectedEnd offset part)) ∧
      (length < frame.endMarkOffset + Format.wordSize →
        IsLeast {boundary | boundary ∈ frame.sizeWordOffsets ∧
          length < boundary + Format.wordSize} offset) ∧
      (frame.endMarkOffset + Format.wordSize ≤ length →
        offset = frame.endMarkOffset + Format.wordSize) ∧
      ∀ index, part.blockIndex = some index → index = cut.rows.length) ∧
    cut.rows.length = frame.blocks.countP (·.endOffset ≤ length) ∧
    cut.rows = full.rows.take (frame.blocks.countP (·.endOffset ≤ length)) ∧
    cut.frameEnd = none ∧ cut.contentSize = none ∧ cut.content = none ∧
    ∀ check, cut.contentChecksum ≠ .checked check := by
  obtain ⟨layout, trailing, rfl, hinput⟩ := FrameLayout.exists_of_scan hscan hend
  obtain rfl : layout.encode.length = endOffset := Option.some.inj hend
  obtain ⟨truncation⟩ := FrameLayout.nonempty_truncation hle hlt
  intro full cut
  have hfull : full = _ := reportBy_of_encode schedule decompressor options hinput
  have hcut : cut = _ :=
    FrameLayout.reportBy_cut schedule' decompressor options hinput hle hlt truncation
  have hcount : layout.locate.blocks.countP (·.endOffset ≤ length) = truncation.front.length := by
    rw [FrameLayout.locate, truncation.blocks_eq]
    exact BlockLayout.countP_locateAll truncation.front_le truncation.lt_behind
  have hrows : cut.rows = full.rows.take truncation.front.length := by
    rw [hcut, hfull, ← FrameLayout.outcome_found layout trailing, FrameLayout.found,
      truncation.blocks_eq, Report.rows_of, Report.rows_of]
    exact Remainder.rows_of_front decompressor options truncation.front_le
  have hlength : cut.rows.length = truncation.front.length := by
    rw [hcut, Report.rows_of, Remainder.length_rows]
  obtain ⟨hverdict, hnothing⟩ := Remainder.report_of_error decompressor options
    (input.extract 0 length) truncation.error_eq
  rw [← hcut] at hverdict hnothing
  rw [hcount, FrameLayout.endMarkOffset_locate, FrameLayout.sizeWordOffsets_locate]
  refine ⟨⟨truncation.offset, truncation.part, hverdict, truncation.isLeast_offset,
    truncation.offset_eq, ?_⟩, hlength, hrows, hnothing⟩
  rw [hlength]
  exact truncation.blockIndex_eq

/-- Cut within the checksum of the third block, a report has the first two rows. Cut within the
content checksum, it has all of them. -/
theorem reportBy_of_truncated_phrase :
    let input := FrameLayout.phraseBytes
    let full := reportBy .standard .lz4 {} input
    let cut (length : ℕ) := reportBy .standard .lz4 {} (input.extract 0 length)
    (∃ part, (cut 50).verdict = .invalid (.scan (.unexpectedEnd 53 part)) ∧
        ∀ index, part.blockIndex = some index → index = 2) ∧
      (cut 50).rows.length = 2 ∧ (cut 50).rows = full.rows.take 2 ∧ (cut 50).frameEnd = none ∧
      (∃ part, (cut 58).verdict = .invalid (.scan (.unexpectedEnd 57 part))) ∧
      (cut 58).rows.length = 3 ∧ (cut 58).rows = full.rows.take 3 ∧
      (cut 58).contentSize = none := by
  intro input full cut
  have hscan : (Id.run (scan (pure false) input)).frame = some FrameLayout.phrase.locate := by
    rw [FrameLayout.scan_phraseBytes]
  have hend : FrameLayout.phrase.locate.endOffset = some 61 := by decide
  have hwords : FrameLayout.phrase.locate.sizeWordOffsets = [19, 31, 45, 53] := by decide
  have htwo : FrameLayout.phrase.locate.blocks.countP (·.endOffset ≤ 50) = 2 := by decide
  have hthree : FrameLayout.phrase.locate.blocks.countP (·.endOffset ≤ 58) = 3 := by decide
  obtain ⟨⟨offset, part, hverdict, hleast, -, hindex⟩, hlength, hrows, hframeEnd, -⟩ :=
    reportBy_of_truncated .standard .standard .lz4 {} hscan hend
      (by decide : FrameLayout.phrase.locate.header.length ≤ 50) (by decide : 50 < 61)
  obtain ⟨⟨offset', part', hverdict', -, hbehind, -⟩, hlength', hrows', -, hsize', -⟩ :=
    reportBy_of_truncated .standard .standard .lz4 {} hscan hend
      (by decide : FrameLayout.phrase.locate.header.length ≤ 58) (by decide : 58 < 61)
  have hoffset : offset = 53 := by
    obtain ⟨⟨hmem, hlt⟩, -⟩ := hleast (by decide)
    rw [hwords] at hmem
    simp only [Format.wordSize, List.mem_cons, List.not_mem_nil, or_false] at hlt hmem
    omega
  have hoffset' : offset' = 57 := hbehind (by decide)
  rw [htwo] at hlength hrows
  rw [hthree] at hlength' hrows'
  rw [hoffset] at hverdict
  rw [hoffset'] at hverdict'
  rw [hlength] at hindex
  exact ⟨⟨part, hverdict, hindex⟩, hlength, hrows, hframeEnd, ⟨part', hverdict'⟩, hlength', hrows',
    hsize'⟩

end Lz4Frame
