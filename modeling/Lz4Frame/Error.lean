import Lz4Frame.Format
import Lz4Frame.Text

/-! Why a frame cannot be read on. A header error means that there is no frame to speak of, a scan
error that the blocks after some point cannot be found. Both end an analysis. -/

namespace Lz4Frame

open Text

/-- What can go wrong while reading from a source. -/
inductive IoError where
  | notFound
  | permissionDenied
  | connectionReset
  | brokenPipe
  | invalidInput
  | invalidData
  | timedOut
  | wouldBlock
  | interrupted
  | unexpectedEof
  | unsupported
  | other
  /-- Any other kind of error, by its description. -/
  | kind (description : String)
  deriving DecidableEq, Repr

def IoError.message : IoError → String
  | .notFound => "entity not found"
  | .permissionDenied => "permission denied"
  | .connectionReset => "connection reset"
  | .brokenPipe => "broken pipe"
  | .invalidInput => "invalid input parameter"
  | .invalidData => "invalid data"
  | .timedOut => "timed out"
  | .wouldBlock => "operation would block"
  | .interrupted => "operation interrupted"
  | .unexpectedEof => "unexpected end of file"
  | .unsupported => "unsupported"
  | .other => "other error"
  | .kind description => description

/-- A part of a frame that is read as one field. -/
inductive Part where
  | skippableFrameSize
  | frameDescriptor
  | blockDescriptor
  | contentSize
  | dictionaryId
  | headerChecksum
  | blockSize (index : Nat)
  | blockBody (index : Nat)
  | blockChecksum (index : Nat)
  | contentChecksum
  deriving DecidableEq, Repr

def Part.text : Part → String
  | .skippableFrameSize => "skippable frame size"
  | .frameDescriptor => "frame descriptor (FLG)"
  | .blockDescriptor => "block descriptor (BD)"
  | .contentSize => "content size"
  | .dictionaryId => "dictionary id"
  | .headerChecksum => "header checksum"
  | .blockSize index => s!"size word of block {index}"
  | .blockBody index => s!"body of block {index}"
  | .blockChecksum index => s!"checksum of block {index}"
  | .contentChecksum => "content checksum"

inductive HeaderError where
  /-- The first word is not the magic number of a frame, or there is no full word. -/
  | invalidMagic (found : Option UInt32)
  | skippableFrame (magic size : UInt32)
  | unsupportedVersion (version : UInt8)
  | reservedBitsSet (part : Part) (value : UInt8)
  | invalidBlockMaxSize (code : UInt8)
  | checksumMismatch (stored computed : UInt8)
  /-- The input ends within the field that starts at `offset`. -/
  | unexpectedEnd (offset : Nat) (part : Part)
  | io (offset : Nat) (error : IoError)
  deriving DecidableEq, Repr

def HeaderError.message : HeaderError → String
  | .invalidMagic (some magic) =>
    s!"Read wrong magic number: 0x{hexWord magic}, Should be: 0x{hexWord Format.magic}"
  | .invalidMagic none => "Input is too short to contain a magic number"
  | .skippableFrame magic size =>
    s!"SkippableFrame encountered with MagicNumber 0x{hex 1 magic.toNat} and length {size} bytes"
  | .unsupportedVersion version =>
    s!"Unsupported frame version. Is: {binary 2 version.toNat}, " ++
      s!"Should be: {binary 2 Format.version.toNat}"
  | .reservedBitsSet part value =>
    s!"Reserved bits set in {part.text}: 0b{binary 8 value.toNat}"
  | .invalidBlockMaxSize code =>
    s!"Invalid block max size code. Is: {code}, Should be one of: 4, 5, 6, 7"
  | .checksumMismatch stored computed =>
    s!"Header checksum does not match. Stored: 0x{hexByte stored}, " ++
      s!"Computed: 0x{hexByte computed}"
  | .unexpectedEnd offset part =>
    s!"Input ended at offset {offset} while reading the {part.text}"
  | .io offset error =>
    s!"Error while reading the header at offset {offset}: {error.message}"

inductive ScanError where
  /-- The input ends within a block or within the content checksum. `offset` is the first place
  for a size word that cannot be read: the one of the word itself if that is cut, the one after
  the block if the body or its checksum is cut, and for the content checksum its own. -/
  | unexpectedEnd (offset : Nat) (part : Part)
  | io (offset : Nat) (error : IoError)
  deriving DecidableEq, Repr

def ScanError.message : ScanError → String
  | .unexpectedEnd offset part =>
    s!"Input ended while reading the {part.text}, " ++
      s!"next boundary at offset {offset} is unreachable"
  | .io offset error =>
    s!"Error while reading the source at offset {offset}: {error.message}"

/-- What ends an analysis early. The blocks found before it are still reported. -/
inductive FrameError where
  | header (error : HeaderError)
  | scan (error : ScanError)
  deriving DecidableEq, Repr

namespace FrameError

/-- The message of the error within. -/
def cause : FrameError → String
  | .header error => error.message
  | .scan error => error.message

def message : FrameError → String
  | .header error => s!"Invalid frame header: {error.message}"
  | .scan error => s!"Block sequence broken: {error.message}"

/-- The input is no frame at all, as opposed to a broken one. -/
def isNotAFrame : FrameError → Bool
  | .header (.invalidMagic _) => true
  | .header (.skippableFrame ..) => true
  | _ => false

/-- The offset reported for an input that is cut short. -/
def truncationOffset : FrameError → Option Nat
  | .header (.unexpectedEnd offset _) => some offset
  | .scan (.unexpectedEnd offset _) => some offset
  | _ => none

end FrameError

end Lz4Frame
