import Lz4Frame.Analysis
import Lz4Frame.Proofs.Content

/-! A whole analysis as a function of what its input holds. An input that starts with a header is
that header and what `Remainder.read` finds behind it, and both phases of the analysis follow from
these, in whatever order independent blocks are taken. Any other input has nothing to decode. -/

namespace Lz4Frame

open BlockLayout (encodeAll locateAll)

/-- The report on `input` in surroundings where time stands still and nobody cancels. -/
def reportBy (schedule : Schedule) (decompressor : Decompressor) (options : Options)
    (input : Bytes) : Report :=
  Id.run (analyze (.steady decompressor schedule) options input)

theorem report_eq_reportBy_standard : report = reportBy .standard := rfl

namespace Remainder

/-- The blocks behind `header`, decoded front to back. -/
def decoded (decompressor : Decompressor) (options : Options) (header : Header)
    (remainder : Remainder) : List DecodedBlock :=
  BlockLayout.decodeAll decompressor options (!header.descriptor.independentBlocks)
    header.maxBlockSize 0 (Frame.initialHistory { header } options) remainder.blocks

/-- The content of a frame that ends like this. Only a complete frame has any. -/
def Ending.content (options : Options) (descriptor : Descriptor) (outcomes : List BlockOutcome)
    (content : Option Bytes) : Ending → ContentOutcome
  | .complete contentChecksum _ => .of options descriptor contentChecksum outcomes content
  | _ => .of options descriptor none outcomes none

/-- The content of what lies behind `header`. -/
def content (decompressor : Decompressor) (options : Options) (header : Header)
    (remainder : Remainder) : ContentOutcome :=
  let decoded := remainder.decoded decompressor options header
  remainder.ending.content options header.descriptor (decoded.map DecodedBlock.outcome)
    (whole (decoded.map DecodedBlock.content))

end Remainder

/-- Both phases run one after the other. -/
theorem reportBy_of_scan {schedule : Schedule} {decompressor : Decompressor} {options : Options}
    {input : Bytes} {scanned : ScanOutcome} (h : Id.run (scan (pure false) input) = scanned) :
    reportBy schedule decompressor options input =
      .of input scanned
        (Id.run (scanned.decode (.steady decompressor schedule) options input)) := by
  subst h
  rfl

/-- The analysis of an input that starts with a header. -/
theorem reportBy_of_header (schedule : Schedule) (decompressor : Decompressor) (options : Options)
    {header : Header} {input : Bytes} (h : header.encode <+: input.toList) :
    let remainder := Remainder.read header.descriptor (input.toList.drop header.length)
    reportBy schedule decompressor options input =
      .of input (remainder.outcome header [] header.length)
        (remainder.content decompressor options header) := by
  intro remainder
  obtain ⟨rest, hrest, -, -⟩ :=
    Remainder.exists_rest header.descriptor (input.toList.drop header.length)
  have hscan : Id.run (scan (pure false) input) = remainder.outcome header [] header.length :=
    scan_of_header h
  have hdecode : Id.run ((remainder.outcome header [] header.length).decode
      (.steady decompressor schedule) options input) =
        remainder.content decompressor options header := by
    unfold Remainder.outcome Remainder.content
    cases remainder.ending with
    | complete contentChecksum trailing => exact Frame.decode_eq _ _ _ rfl hrest
    | cutBlock cut => exact Frame.decode_eq _ _ _ rfl hrest
    | cutChecksum => exact Frame.decode_eq _ _ _ rfl hrest
  rw [reportBy_of_scan hscan, hdecode]

/-- The analysis of an input that starts with a written frame. -/
theorem reportBy_of_encode (schedule : Schedule) (decompressor : Decompressor) (options : Options)
    {frame : FrameLayout} {input : Bytes} {trailing : List UInt8}
    (h : input.toList = frame.encode ++ trailing) :
    reportBy schedule decompressor options input =
      .of input { frame := some frame.locate }
        ((frame.found trailing).content decompressor options frame.header) := by
  obtain ⟨hheader, hread⟩ := FrameLayout.read_of_encode h
  rw [reportBy_of_header schedule decompressor options hheader, hread, FrameLayout.outcome_found]

/-- The analysis of any other input. -/
theorem reportBy_of_not_header (schedule : Schedule) (decompressor : Decompressor)
    (options : Options) {input : Bytes} (h : ∀ header : Header, ¬ header.encode <+: input.toList) :
    ∃ error, reportBy schedule decompressor options input =
      .of input { fatal := some (.header error) } {} := by
  obtain ⟨error, hscan⟩ := scan_of_not_header h
  exact ⟨error, reportBy_of_scan hscan⟩

/-! ### Rows -/

/-- What a row says about the content of its block. -/
def BlockRow.outcome (row : BlockRow) : BlockOutcome := ⟨row.checksum, row.decompression⟩

theorem map_outcome_zipWith {input : Bytes} {blocks : List Block} {outcomes : List BlockOutcome}
    (h : outcomes.length = blocks.length) :
    (blocks.zipWith (BlockRow.of input) outcomes).map BlockRow.outcome = outcomes := by
  apply List.ext_getElem
  · simp [h]
  · intro i _ _
    rw [List.getElem_map, List.getElem_zipWith]
    rfl

namespace Remainder

theorem rows_outcome (header : Header) (offset : ℕ) (remainder : Remainder) (input : Bytes)
    (decoded : ContentOutcome) :
    (remainder.outcome header [] offset).rows input decoded =
      (locateAll 0 offset remainder.blocks).zipWith (BlockRow.of input) decoded.blocks := by
  unfold outcome
  cases remainder.ending <;> rfl

theorem blocks_content (decompressor : Decompressor) (options : Options) (header : Header)
    (remainder : Remainder) :
    (remainder.content decompressor options header).blocks =
      (remainder.decoded decompressor options header).map DecodedBlock.outcome := by
  unfold content
  cases remainder.ending <;> rfl

/-- Every block has a row with the outcome of its decoding. -/
theorem map_outcome_rows (decompressor : Decompressor) (options : Options) (header : Header)
    (remainder : Remainder) (offset : ℕ) (input : Bytes) :
    ((remainder.outcome header [] offset).rows input
        (remainder.content decompressor options header)).map BlockRow.outcome =
      (remainder.content decompressor options header).blocks := by
  rw [rows_outcome, map_outcome_zipWith]
  rw [blocks_content, List.length_map, decoded, BlockLayout.length_decodeAll,
    BlockLayout.length_locateAll]

theorem length_rows (decompressor : Decompressor) (options : Options) (header : Header)
    (remainder : Remainder) (offset : ℕ) (input : Bytes) :
    ((remainder.outcome header [] offset).rows input
        (remainder.content decompressor options header)).length = remainder.blocks.length := by
  rw [← List.length_map BlockRow.outcome, map_outcome_rows, blocks_content, List.length_map,
    decoded, BlockLayout.length_decodeAll]

end Remainder

theorem Report.rows_of (input : Bytes) (scanned : ScanOutcome) (decoded : ContentOutcome) :
    (of input scanned decoded).rows = scanned.rows input decoded := rfl

end Lz4Frame
