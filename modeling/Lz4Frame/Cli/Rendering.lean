import Lz4Frame.ByteSize
import Lz4Frame.Ratio

/-! A report as lines of text. -/

namespace Lz4Frame.Cli

open Text

def yesNo (value : Bool) : String := if value then "yes" else "no"

def verdictText : Verdict → String
  | .ok => "OK"
  | .partiallyValid _ => "PARTIALLY VALID"
  | .invalid _ => "INVALID"

def checkText : CheckOutcome → String
  | .absent => "absent"
  | .skipped => "skipped"
  | .checked check => if check.passed then "ok" else "mismatch"

def decompressionText : Decompression → String
  | .notAttempted => "-"
  | .decompressed size => toString size
  | .failed _ => "failed"

/-- A ratio with two decimals. -/
def ratioText : Option Binary64 → String
  | none => "-"
  | some ratio => ratio.toFixed 2

/-- A line of the report, with its label in a column. -/
def labelled (label value : String) : String := "  " ++ alignLeft 18 label ++ value

def headerLines (header : Header) : List String :=
  let descriptor := header.descriptor
  [labelled "descriptor:"
      (s!"FLG 0x{hexByte descriptor.flags}, BD 0x{hexByte descriptor.sizes}, " ++
        s!"version {descriptor.version}"),
    labelled "independent:" (yesNo descriptor.independentBlocks),
    labelled "block checksums:" (yesNo descriptor.hasBlockChecksums),
    labelled "content checksum:" (yesNo descriptor.hasContentChecksum),
    labelled "max block size:" descriptor.maxSize.text] ++
  (header.contentSize.map fun size => labelled "content size:" (toString size)).toList ++
  (header.dictionaryId.map fun id => labelled "dictionary id:" s!"0x{hexWord id}").toList ++
  [labelled "header checksum:" s!"0x{hexByte header.checksum}"]

/-- The lines on the blocks as a whole, if there are any. -/
def statsLines (stats : BlockStats) : List String :=
  if stats.count = 0 then
    []
  else
    [labelled "blocks:"
        s!"{stats.count} ({stats.compressed} compressed, {stats.uncompressed} uncompressed)",
      labelled "block sizes:"
        (s!"total {stats.totalSize}, " ++
          s!"avg {(stats.averageSize.getD .zero).toFixed 1}, " ++
          s!"min {stats.minSize.getD 0}, max {stats.maxSize.getD 0}")]

/-- The columns of the block table. The kind of a block takes only the room that it needs. -/
def tableLine (index offset kind size checksum output ratio max sample : String) : String :=
  "  " ++ " ".intercalate
    [alignRight 5 index, alignRight 10 offset, kind, alignRight 8 size, alignLeft 10 checksum,
      alignRight 8 output, alignRight 8 ratio, alignRight 8 max, " " ++ sample]

def tableHead : String :=
  tableLine "index" "offset" (alignLeft 12 "type") "size" "checksum" "output" "ratio" "max" "sample"

def rowLine (maxBlockSize : Nat) (row : BlockRow) : String :=
  tableLine (toString row.block.index) (toString row.block.offset) row.block.kind.text
    (toString row.block.size) (checkText row.checksum) (decompressionText row.decompression)
    (ratioText row.ratio) (ratioText (row.maxRatio maxBlockSize)) (hexBytes row.sample)

def tableLines (report : Report) : List String :=
  if report.rows.isEmpty then
    []
  else
    tableHead :: report.rows.map (rowLine (report.header.elim 0 Header.maxBlockSize))

/-- What makes the verdict less than good. -/
def verdictLines : Verdict → List String
  | .ok => []
  | .partiallyValid issues => issues.map fun issue => "  " ++ issue.message
  | .invalid error => ["  " ++ error.message]

def reportLines (name : String) (showBlocks : Bool) (report : Report) : List String :=
  [s!"{name} {verdictText report.verdict}",
    labelled "file size:" (ByteSize.text report.inputSize),
    labelled "magic number:" (yesNo report.magicValid)] ++
  report.header.elim [] headerLines ++
  statsLines report.stats ++
  (report.contentSize.map fun size =>
    labelled "decompressed:" s!"{ByteSize.text size} ({size} bytes)").toList ++
  (report.declaredRatio.map fun ratio => labelled "declared ratio:" (ratio.toFixed 3)).toList ++
  (report.compressionRatio.map fun ratio => labelled "ratio:" (ratio.toFixed 3)).toList ++
  (report.header.map fun _ =>
    labelled "content checksum:" (checkText report.contentChecksum)).toList ++
  (if showBlocks then tableLines report else []) ++
  verdictLines report.verdict

/-- The report on the input with a name, each line with its end. -/
def render (name : String) (showBlocks : Bool) (report : Report) : String :=
  String.join ((reportLines name showBlocks report).map (· ++ "\n"))

end Lz4Frame.Cli
