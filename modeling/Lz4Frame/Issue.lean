import Lz4Frame.Checksum
import Lz4Frame.Text

/-! Findings that do not end an analysis. Each is local to one block or to one check, and the
analysis goes on after it. -/

namespace Lz4Frame

open Text

/-- Why the content of a block could not be had. Times are in nanoseconds. -/
inductive FailureReason where
  | corrupted (detail : String)
  /-- It took longer than a block may take. -/
  | timeout (elapsed limit : Nat)
  deriving DecidableEq, Repr

def milliseconds (nanoseconds : Nat) : Nat := nanoseconds / 1000000

def FailureReason.message : FailureReason → String
  | .corrupted detail => s!"corrupted data: {detail}"
  | .timeout elapsed limit =>
    s!"timed out after {milliseconds elapsed}ms (limit {milliseconds limit}ms)"

/-- The part of an analysis that a cancellation interrupts. -/
inductive Phase where
  | scan
  | decompression
  deriving DecidableEq, Repr

def Phase.text : Phase → String
  | .scan => "scan"
  | .decompression => "decompression"

inductive Issue where
  | oversizedBlock (index size max : Nat)
  | decompressionFailure (index : Nat) (reason : FailureReason)
  | blockChecksumMismatch (index : Nat) (check : Check)
  | contentChecksumMismatch (check : Check)
  | contentSizeMismatch (declared actual : Nat)
  | trailingData (offset length : Nat)
  | cancelled (phase : Phase) (nextBlock : Nat)
  deriving DecidableEq, Repr

namespace Issue

/-- The block that the issue is about, if it is about one. -/
def blockIndex : Issue → Option Nat
  | .oversizedBlock index .. => some index
  | .decompressionFailure index _ => some index
  | .blockChecksumMismatch index _ => some index
  | _ => none

def message : Issue → String
  | .oversizedBlock index size max =>
    s!"Block {index} is bigger than the maximum block size. Is: {size}, " ++
      s!"Should be at most: {max}"
  | .decompressionFailure index reason =>
    s!"Block {index} could not be decompressed: {reason.message}"
  | .blockChecksumMismatch index check =>
    s!"Checksum of block {index} does not match. Stored: 0x{hexWord check.stored}, " ++
      s!"Computed: 0x{hexWord check.computed}"
  | .contentChecksumMismatch check =>
    s!"Content checksum does not match. Stored: 0x{hexWord check.stored}, " ++
      s!"Computed: 0x{hexWord check.computed}"
  | .contentSizeMismatch declared actual =>
    s!"Decompressed size does not match the header. Declared: {declared}, Actual: {actual}"
  | .trailingData offset length =>
    s!"{length} bytes of trailing data after the frame at offset {offset}"
  | .cancelled phase nextBlock =>
    s!"Cancelled during {phase.text} before block {nextBlock}"

end Issue

end Lz4Frame
