import Lz4Frame.Analysis

/-! The log of an analysis. It tells nothing that the outcomes of its phases do not hold, so it is
made from them: the scan first, then the decoding by blocks, then one line on the report. A message
may quote a name, which is free to hold any character, so what a terminal would act on is escaped
when the message is written. -/

namespace Lz4Frame.Log

open Text

inductive Level where
  | error
  | warn
  | info
  | debug
  | trace
  deriving DecidableEq, Repr

namespace Level

/-- Higher ranks are more talkative. -/
def rank : Level → Nat
  | .error => 0
  | .warn => 1
  | .info => 2
  | .debug => 3
  | .trace => 4

def text : Level → String
  | .error => "ERROR"
  | .warn => "WARN"
  | .info => "INFO"
  | .debug => "DEBUG"
  | .trace => "TRACE"

end Level

/-- Whether a character is escaped in a message: the bell, the backspace, the form feed, the escape,
the delete and the eight-bit controls behind it, with which a terminal can be steered. Line breaks,
tabs and the other seven-bit controls stay as they are. -/
def isTerminalControl (char : Char) : Bool :=
  char ∈ ['\x07', '\x08', '\x0c', '\x1b', '\x7f'] || (0x80 ≤ char.toNat && char.toNat ≤ 0x9f)

/-- A character in a message. A control is written as its number, in two digits for a seven-bit
control and in braces for any other. -/
def escapeChar (char : Char) : String :=
  if isTerminalControl char then
    if char.toNat < 0x80 then
      "\\x" ++ digits 16 2 char.toNat
    else
      "\\u\x7b" ++ digits 16 1 char.toNat ++ "\x7d"
  else
    char.toString

/-- A text with its terminal controls made visible. A backslash stays single, so the escaped text
is meant for reading and does not determine the text. -/
def escape (text : String) : String := String.join (text.toList.map escapeChar)

structure Entry where
  level : Level
  target : String
  message : String
  deriving DecidableEq, Repr

/-- The line for an entry. -/
def Entry.line (entry : Entry) : String :=
  if entry.message.isEmpty then
    s!"{entry.level.text} {entry.target}:"
  else
    s!"{entry.level.text} {entry.target}: {escape entry.message}"

/-- The entries that are wanted at a level. -/
def filter (level : Level) (entries : List Entry) : List Entry :=
  entries.filter fun entry => entry.level.rank ≤ level.rank

/-- A value that may be missing. -/
def optional (value : Option Nat) : String :=
  match value with
  | none => "None"
  | some value => s!"Some({value})"

/-! ### The scan -/

def ofHeader (header : Header) : Entry where
  level := .debug
  target := "lz4scan::frame"
  message :=
    s!"frame header: flg=0x{hexByte header.descriptor.flags} " ++
      s!"bd=0x{hexByte header.descriptor.sizes} " ++
      s!"content_size={optional (header.contentSize.map UInt64.toNat)} " ++
      s!"dict_id={optional (header.dictionaryId.map UInt32.toNat)}"

def ofBlock (block : Block) : Entry where
  level := .debug
  target := "lz4scan::blocks::block_iter"
  message := s!"block {block.index}: {block.size} bytes {block.kind.text} at offset {block.offset}"

/-- The end mark lies behind the last block, or behind the header if there is none. -/
def ofEndMark (frame : Frame) : Entry where
  level := .debug
  target := "lz4scan::blocks::block_iter"
  message :=
    s!"end mark at offset {(frame.blocks.getLast?.map Block.endOffset).getD frame.header.length}"

def analyzer (level : Level) (message : String) : Entry :=
  ⟨level, "lz4scan::decoding::frame_analyzer", message⟩

/-- How the scan of a frame ended. A content checksum is only looked for behind an end mark. -/
def ofEnding (scan : ScanOutcome) (frame : Frame) : List Entry :=
  match scan.fatal, scan.cancelledAt with
  | some (.scan (.unexpectedEnd _ .contentChecksum)), _ => [ofEndMark frame]
  | some error, _ => [analyzer .warn s!"block scan stopped: {error.cause}"]
  | none, some nextBlock => [analyzer .debug s!"scan cancelled before block {nextBlock}"]
  | none, none => [ofEndMark frame]

def ofScan (scan : ScanOutcome) : List Entry :=
  match scan.frame, scan.fatal with
  | some frame, _ => ofHeader frame.header :: frame.blocks.map ofBlock ++ ofEnding scan frame
  | none, some error => [analyzer .warn s!"not a valid frame header: {error.cause}"]
  | none, none => []

/-! ### The decoding -/

/-- What went wrong with one block, its checksum first. -/
def ofOutcome (block : Block) (outcome : BlockOutcome) : List Entry :=
  let mismatch := match outcome.checksum with
    | .checked check =>
      if check.passed then
        []
      else
        [⟨.warn, "lz4scan::checksum",
          s!"checksum of block {block.index} does not match: " ++
            s!"stored 0x{hexWord check.stored}, computed 0x{hexWord check.computed}"⟩]
    | _ => []
  let failure := match outcome.decompression with
    | .failed (.decompressionFailure index reason) =>
      [⟨.warn, "lz4scan::decoding::block_decoder",
        s!"block {index} could not be decompressed: {reason.message}"⟩]
    | _ => []
  mismatch ++ failure

def ofDecoding (frame : Frame) (decoded : ContentOutcome) : List Entry :=
  (frame.blocks.zipWith ofOutcome decoded.blocks).flatten

/-! ### The report -/

def ofReport (report : Report) : Entry where
  level := .debug
  target := "lz4scan::report"
  message :=
    s!"analysed {report.inputSize} bytes: {report.stats.count} blocks, " ++
      s!"{report.issues.length} issues, ok: {report.verdict.isOk}"

/-- The log of a whole analysis of `input`. -/
def ofFindings (input : Bytes) (findings : Findings) : List Entry :=
  ofScan findings.scan ++
    findings.scan.frame.elim [] (ofDecoding · findings.decoded) ++
    [ofReport (findings.report input)]

end Lz4Frame.Log
