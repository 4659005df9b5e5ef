/-! One block of a frame as it lies in the input: a size word, a body and, in some frames, a
checksum of the body. Finding a block takes only its size word, never its body. -/

namespace Lz4Frame

/-- How the body of a block holds its content. -/
inductive BlockKind where
  | compressed
  | uncompressed
  deriving DecidableEq, Repr

def BlockKind.text : BlockKind → String
  | .compressed => "Compressed"
  | .uncompressed => "Uncompressed"

structure Block where
  /-- The number of blocks before it. -/
  index : Nat
  /-- Where its size word starts. -/
  offset : Nat
  /-- The size of its body. -/
  size : Nat
  kind : BlockKind
  /-- Where its body starts. -/
  bodyOffset : Nat
  /-- The checksum after its body, in frames with block checksums. -/
  checksum : Option UInt32
  deriving DecidableEq, Repr

namespace Block

def isUncompressed (block : Block) : Bool := block.kind == .uncompressed

/-- Where its body ends. -/
def bodyEnd (block : Block) : Nat := block.bodyOffset + block.size

/-- Where the next size word starts. -/
def endOffset (block : Block) : Nat :=
  block.bodyEnd + if block.checksum.isSome then 4 else 0

end Block

end Lz4Frame
