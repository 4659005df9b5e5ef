import Lz4Frame.Block
import Lz4Frame.Descriptor
import Lz4Frame.Source
import Lz4Frame.Word

/-! The blocks of a frame, found one after the other. Only size words and checksums are read, bodies
are skipped by a seek. A scan ends with the end mark, a size word of zero, or with its first error,
and stays ended. -/

namespace Lz4Frame

/-- What a size word says about its block. -/
def Block.kindOfWord (word : UInt32) : BlockKind :=
  if Format.storedFlag ≤ word.toNat then .uncompressed else .compressed

def Block.sizeOfWord (word : UInt32) : Nat := word.toNat % Format.storedFlag

namespace Scanner

inductive State where
  | scanning
  /-- The end mark was found at this offset. -/
  | ended (endMark : Nat)
  | failed
  deriving DecidableEq, Repr

end Scanner

structure Scanner where
  source : Source
  descriptor : Descriptor
  /-- Where the next field starts. -/
  offset : Nat
  /-- The size of the input as the source gives it. -/
  inputSize : Nat
  /-- The number of blocks found so far. -/
  found : Nat := 0
  state : Scanner.State := .scanning

namespace Scanner

/-- A scan of the blocks from the position of `source` on. -/
def start (source : Source) (descriptor : Descriptor) : Except ScanError Scanner :=
  match Source.tell source with
  | .error error _ => .error (.io 0 error)
  | .ok offset source =>
    let sized : Reading IoError Nat := do
      let size ← Source.seekToEnd
      let _ ← Source.seekTo offset
      pure size
    match sized source with
    | .error error _ => .error (.io offset error)
    | .ok inputSize source => .ok { source, descriptor, offset, inputSize }

/-- Where the end mark was found. -/
def endMark? (scanner : Scanner) : Option Nat :=
  match scanner.state with
  | .ended endMark => some endMark
  | _ => none

def isFinished (scanner : Scanner) : Bool := scanner.state != .scanning

/-- The word at the source's position, which is `offset`. -/
def readWord (offset : Nat) : Reading ScanError UInt32 :=
  (UInt32.ofNat ∘ Word.value) <$> (Source.readExact Format.wordSize).adaptExcept (.io offset)

/-- The checksum after a body that ends at `bodyEnd`, where blocks have one. -/
def readBlockChecksum (descriptor : Descriptor) (inputSize index bodyEnd : Nat) :
    Reading ScanError (Option UInt32) :=
  if descriptor.hasBlockChecksums then
    if inputSize < bodyEnd + Format.wordSize then
      throw (.unexpectedEnd (bodyEnd + Format.wordSize) (.blockChecksum index))
    else
      some <$> readWord bodyEnd
  else
    pure none

/-- The block whose size word starts at `offset`, or nothing at the end mark. -/
def readBlock (descriptor : Descriptor) (inputSize index offset : Nat) :
    Reading ScanError (Option Block) := do
  if inputSize < offset + Format.wordSize then
    throw (.unexpectedEnd offset (.blockSize index))
  else
    let word ← readWord offset
    if word = 0 then
      pure none
    else
      let bodyOffset := offset + Format.wordSize
      let size := Block.sizeOfWord word
      let bodyEnd := bodyOffset + size
      if inputSize < bodyEnd then
        throw (.unexpectedEnd (bodyEnd + descriptor.blockChecksumSize) (.blockBody index))
      else
        let _ ← (Source.seekTo bodyEnd).adaptExcept (.io bodyOffset)
        let checksum ← readBlockChecksum descriptor inputSize index bodyEnd
        pure (some { index, offset, size, kind := Block.kindOfWord word, bodyOffset, checksum })

/-- The next block or the error in its place. Nothing follows the end mark or an error. -/
def next (scanner : Scanner) : Option (Except ScanError Block) × Scanner :=
  match scanner.state with
  | .scanning =>
    match readBlock scanner.descriptor scanner.inputSize scanner.found scanner.offset
        scanner.source with
    | .ok none source =>
      (none, { scanner with
        source, offset := scanner.offset + Format.wordSize, state := .ended scanner.offset })
    | .ok (some block) source =>
      (some (.ok block),
        { scanner with source, offset := block.endOffset, found := scanner.found + 1 })
    | .error error source => (some (.error error), { scanner with source, state := .failed })
  | _ => (none, scanner)

/-- The content checksum after the end mark, in frames that have one. Each call reads one word. -/
def readContentChecksum (scanner : Scanner) : Except ScanError (Option UInt32) × Scanner :=
  if scanner.descriptor.hasContentChecksum && scanner.endMark?.isSome then
    if scanner.inputSize < scanner.offset + Format.wordSize then
      (.error (.unexpectedEnd scanner.offset .contentChecksum), scanner)
    else
      match readWord scanner.offset scanner.source with
      | .error error source => (.error error, { scanner with source })
      | .ok word source =>
        (.ok (some word), { scanner with source, offset := scanner.offset + Format.wordSize })
  else
    (.ok none, scanner)

end Scanner

end Lz4Frame
