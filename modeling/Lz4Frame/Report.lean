import Lz4Frame.Content

/-! The report on one input: what the scan and the decoding found, row by row, and every issue in a
fixed order. The blocks come first, each with its failure before its checksum, then the content
checksum, the content size, data behind the frame and a cancellation. A report can be made of any
two outcomes, also of ones that stopped early or do not belong together. -/

namespace Lz4Frame

/-- One row of the block table. -/
structure BlockRow where
  block : Block
  checksum : CheckOutcome
  decompression : Decompression
  /-- The first bytes of the body as stored. -/
  sample : Bytes
  deriving DecidableEq

/-- The size of the content, if there is some. -/
def Decompression.size? : Decompression → Option Nat
  | .decompressed size => some size
  | _ => none

/-- Totals over the rows. -/
structure BlockStats where
  count : Nat := 0
  compressed : Nat := 0
  uncompressed : Nat := 0
  /-- The sum of the stored sizes. -/
  totalSize : Nat := 0
  minSize : Option Nat := none
  maxSize : Option Nat := none
  /-- The sum of the sizes of all contents. -/
  contentSize : Nat := 0
  deriving DecidableEq, Repr

namespace BlockStats

def add (stats : BlockStats) (row : BlockRow) : BlockStats where
  count := stats.count + 1
  compressed := stats.compressed + if row.block.isUncompressed then 0 else 1
  uncompressed := stats.uncompressed + if row.block.isUncompressed then 1 else 0
  totalSize := stats.totalSize + row.block.size
  minSize := some (stats.minSize.elim row.block.size (min row.block.size))
  maxSize := some (stats.maxSize.elim row.block.size (max row.block.size))
  contentSize := stats.contentSize + row.decompression.size?.getD 0

def ofRows (rows : List BlockRow) : BlockStats := rows.foldl add {}

end BlockStats

/-- The worst of all findings. -/
inductive Verdict where
  | ok
  /-- The frame is intact, but some checks failed or were cut short. -/
  | partiallyValid (issues : List Issue)
  | invalid (error : FrameError)
  deriving DecidableEq

namespace Verdict

def isOk : Verdict → Bool
  | .ok => true
  | _ => false

def isInvalid : Verdict → Bool
  | .invalid _ => true
  | _ => false

/-- An error makes a frame invalid, and without one, any issue makes it partially valid. -/
def ofFindings (fatal : Option FrameError) (issues : List Issue) : Verdict :=
  match fatal, issues with
  | some error, _ => .invalid error
  | none, [] => .ok
  | none, issues => .partiallyValid issues

section

variable {fatal : Option FrameError} {issues : List Issue}

theorem ofFindings_eq_invalid_iff {error : FrameError} :
    ofFindings fatal issues = .invalid error ↔ fatal = some error := by
  cases fatal <;> cases issues <;> simp [ofFindings]

theorem ofFindings_eq_partiallyValid_iff {listed : List Issue} :
    ofFindings fatal issues = .partiallyValid listed ↔
      fatal = none ∧ issues = listed ∧ issues ≠ [] := by
  cases fatal <;> cases issues <;> simp [ofFindings]

theorem ofFindings_eq_ok_iff : ofFindings fatal issues = .ok ↔ fatal = none ∧ issues = [] := by
  cases fatal <;> cases issues <;> simp [ofFindings]

/-- With an issue, a report is about a frame that is not all right. -/
theorem ofFindings_of_ne_nil (h : issues ≠ []) :
    ofFindings fatal issues = fatal.elim (.partiallyValid issues) .invalid := by
  cases fatal <;> cases issues <;> trivial

end

end Verdict

structure Report where
  inputSize : Nat
  magicValid : Bool
  /-- Nothing if there is no good header. -/
  header : Option Header
  rows : List BlockRow
  stats : BlockStats
  /-- Where the frame ends, if the scan got that far. -/
  frameEnd : Option Nat
  contentSize : Option Nat
  contentChecksum : CheckOutcome
  content : Option Bytes
  issues : List Issue
  verdict : Verdict
  deriving DecidableEq

/-! ### Rows and issues -/

def BlockRow.of (input : Bytes) (block : Block) (outcome : BlockOutcome) : BlockRow where
  block := block
  checksum := outcome.checksum
  decompression := outcome.decompression
  sample := input.sample block.bodyOffset (min Format.sampleSize block.size)

/-- The issues of one row. -/
def BlockRow.issues (row : BlockRow) : List Issue :=
  let failure := match row.decompression with
    | .failed issue => [issue]
    | _ => []
  let mismatch := match row.checksum with
    | .checked check => if check.passed then [] else [.blockChecksumMismatch row.block.index check]
    | _ => []
  failure ++ mismatch

/-- The issue of a content checksum. -/
def CheckOutcome.contentIssues : CheckOutcome → List Issue
  | .checked check => if check.passed then [] else [.contentChecksumMismatch check]
  | _ => []

/-- The issue of a content that does not have the size that the header declares. -/
def sizeIssues (declared actual : Option Nat) : List Issue :=
  match declared, actual with
  | some declared, some actual =>
    if declared = actual then [] else [.contentSizeMismatch declared actual]
  | _, _ => []

/-- The issue of an input that goes on behind its frame. -/
def trailingIssues (inputSize : Nat) : (frameEnd : Option Nat) → List Issue
  | some frameEnd =>
    if frameEnd < inputSize then [.trailingData frameEnd (inputSize - frameEnd)] else []
  | none => []

/-- The issue of a cancellation. One in the scan comes before one in the decoding. -/
def cancellationIssues (scan decoding : Option Nat) : List Issue :=
  match scan, decoding with
  | some nextBlock, _ => [.cancelled .scan nextBlock]
  | none, some nextBlock => [.cancelled .decompression nextBlock]
  | none, none => []

/-! ### The report -/

/-- The rows of a frame, as many as there are outcomes for. -/
def ScanOutcome.rows (scan : ScanOutcome) (input : Bytes) (decoded : ContentOutcome) :
    List BlockRow :=
  scan.frame.elim [] fun frame => frame.blocks.zipWith (BlockRow.of input) decoded.blocks

namespace Report

/-- The content size that a header declares. -/
def declaredSize (header : Option Header) : Option Nat :=
  header.bind fun header => header.contentSize.map UInt64.toNat

def issuesOf (inputSize : Nat) (scan : ScanOutcome) (decoded : ContentOutcome)
    (rows : List BlockRow) : List Issue :=
  rows.flatMap BlockRow.issues ++
    decoded.contentChecksum.contentIssues ++
    sizeIssues (declaredSize (scan.frame.map Frame.header)) decoded.size ++
    trailingIssues inputSize (scan.frame.bind Frame.endOffset) ++
    cancellationIssues scan.cancelledAt decoded.cancelledAt

/-- The report on `input` from what the scan and the decoding found. -/
def of (input : Bytes) (scan : ScanOutcome) (decoded : ContentOutcome) : Report :=
  let rows := scan.rows input decoded
  let issues := issuesOf input.size scan decoded rows
  { inputSize := input.size
    magicValid := !scan.fatal.any FrameError.isNotAFrame
    header := scan.frame.map Frame.header
    rows
    stats := .ofRows rows
    frameEnd := scan.frame.bind Frame.endOffset
    contentSize := decoded.size
    contentChecksum := decoded.contentChecksum
    content := decoded.content
    issues
    verdict := .ofFindings scan.fatal issues }

def declaredContentSize (report : Report) : Option Nat := declaredSize report.header

/-- What makes the input invalid, if it is. -/
def fatalError (report : Report) : Option FrameError :=
  match report.verdict with
  | .invalid error => some error
  | _ => none

end Report

end Lz4Frame
