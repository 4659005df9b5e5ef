import Lz4Frame.Bytes

/-! What an analysis does beyond the structural scan. -/

namespace Lz4Frame

structure Options where
  /-- Expand the blocks. Without this, only the structure and the block checksums are checked. -/
  decompress : Bool := true
  verifyChecksums : Bool := true
  /-- Refuse blocks whose body is bigger than the maximum block size. -/
  strictBlockSize : Bool := true
  /-- Take independent blocks by windows, in the order that the surroundings prefer. -/
  parallel : Bool := true
  /-- The most nanoseconds that one block may take. -/
  blockTimeout : Option Nat := none
  /-- What comes before the first block in frames with a dictionary id. -/
  dictionary : Option Bytes := none
  /-- Put the content into the report. -/
  keepContent : Bool := false
  deriving DecidableEq

end Lz4Frame
