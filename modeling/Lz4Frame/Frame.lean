import Lz4Frame.Block
import Lz4Frame.Header

/-! A frame as a scan finds it, and what else a scan can tell. -/

namespace Lz4Frame

structure Frame where
  header : Header
  /-- The blocks in the order in which they lie in the input. -/
  blocks : List Block := []
  contentChecksum : Option UInt32 := none
  /-- Where the frame ends, if the scan got that far. -/
  endOffset : Option Nat := none
  deriving DecidableEq

def Frame.isComplete (frame : Frame) : Bool := frame.endOffset.isSome

structure ScanOutcome where
  /-- Nothing if there is no good header. -/
  frame : Option Frame := none
  fatal : Option FrameError := none
  /-- The first block that was not looked for, if the analysis was cancelled. -/
  cancelledAt : Option Nat := none
  deriving DecidableEq

end Lz4Frame
