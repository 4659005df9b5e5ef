import Lz4Frame.Checksum
import Lz4Frame.Descriptor
import Lz4Frame.Source
import Lz4Frame.Word

/-! Frame headers: what they hold, how they are written and how they are read from a source. A
header has its optional fields exactly when its flag byte announces them, and its checksum follows
from the fields, so the bytes of a header are determined by it. A frame with another header in its
place is no different: decoding looks at the descriptor alone, a report at the content size alone,
and there is a header with any one of them.

Reading stops at the first field that is wrong. The flag byte is judged before the next byte is
read, so a bad one is reported even where the input ends right after it. -/

namespace Lz4Frame

structure Header where
  descriptor : Descriptor
  contentSize : Option UInt64
  dictionaryId : Option UInt32
  isSome_contentSize : contentSize.isSome = descriptor.hasContentSize
  isSome_dictionaryId : dictionaryId.isSome = descriptor.hasDictionaryId
  deriving DecidableEq

namespace Header

/-! ### The bytes of a header -/

/-- Everything between the magic number and the header checksum. -/
def fields (header : Header) : List UInt8 :=
  [header.descriptor.flags, header.descriptor.sizes] ++
    (header.contentSize.elim [] fun size => Word.encode 8 size.toNat) ++
    (header.dictionaryId.elim [] fun id => Word.encode 4 id.toNat)

/-- The checksum that a reader computes. -/
def checksum (header : Header) : UInt8 := Check.headerByte header.fields

/-- The bytes that the format has for a header: the magic number, the fields and the second-lowest
byte of their hash. -/
def encode (header : Header) : List UInt8 :=
  ([0x04, 0x22, 0x4D, 0x18] : List UInt8) ++ header.fields ++
    [(XxHash32.digest header.fields >>> 8).toUInt8]

/-- What a reader looks for: the word of the magic number, the fields and the checksum that it
computes. -/
theorem encode_eq (header : Header) :
    header.encode = Word.encode 4 Format.magic.toNat ++ header.fields ++ [header.checksum] := rfl

/-- The length of the header with its magic number, which is where the blocks start. -/
def length (header : Header) : Nat :=
  Format.minHeaderSize + header.descriptor.contentSizeSize + header.descriptor.dictionaryIdSize

theorem length_encode (header : Header) : header.encode.length = header.length := by
  obtain ⟨descriptor, contentSize, dictionaryId, hsize, hid⟩ := header
  simp only [length, Descriptor.contentSizeSize, Descriptor.dictionaryIdSize, ← hsize, ← hid]
  cases contentSize <;> cases dictionaryId <;> simp [encode, fields, Format.minHeaderSize]

/-- The most content that one block of the frame may hold. -/
def maxBlockSize (header : Header) : Nat := header.descriptor.maxSize.bytes

/-! ### Reading -/

/-- The number in the field of `width` bytes that starts at `offset`. -/
def readNumber (width offset : Nat) (part : Part) : Reading HeaderError Nat :=
  Word.value <$> (Source.readExact width).adaptExcept fun
    | .unexpectedEof => .unexpectedEnd offset part
    | error => .io offset error

/-- The first word. An input too short for one has no magic number. -/
def readMagic : Reading HeaderError UInt32 :=
  (UInt32.ofNat ∘ Word.value) <$> (Source.readExact Format.wordSize).adaptExcept fun
    | .unexpectedEof => .invalidMagic none
    | error => .io 0 error

/-- A field that is there only if it is announced. -/
def readAnnounced {α : Type} (announced : Bool) (field : Reading HeaderError α) :
    Reading HeaderError { value : Option α // value.isSome = announced } :=
  match announced with
  | true => (fun value => ⟨some value, rfl⟩) <$> field
  | false => pure ⟨none, rfl⟩

/-- The two descriptor bytes. -/
def readDescriptor : Reading HeaderError Descriptor := do
  let flags ← UInt8.ofNat <$> readNumber 1 4 .frameDescriptor
  match Descriptor.flagsError? flags with
  | some error => throw error
  | none =>
    let sizes ← UInt8.ofNat <$> readNumber 1 5 .blockDescriptor
    match Descriptor.ofBytes flags sizes with
    | .error error => throw error
    | .ok descriptor => pure descriptor

/-- The header after its magic number. -/
def readFields : Reading HeaderError Header := do
  let descriptor ← readDescriptor
  let ⟨contentSize, hsize⟩ ← readAnnounced descriptor.hasContentSize
    (UInt64.ofNat <$> readNumber 8 6 .contentSize)
  let ⟨dictionaryId, hid⟩ ← readAnnounced descriptor.hasDictionaryId
    (UInt32.ofNat <$> readNumber 4 (6 + descriptor.contentSizeSize) .dictionaryId)
  let header : Header := ⟨descriptor, contentSize, dictionaryId, hsize, hid⟩
  let stored ← UInt8.ofNat <$> readNumber 1 (header.length - 1) .headerChecksum
  if stored = header.checksum then
    pure header
  else
    throw (.checksumMismatch stored header.checksum)

/-- A whole header. It leaves the source at the first block. -/
def read : Reading HeaderError Header := do
  let magic ← readMagic
  if Format.isSkippable magic then
    let size ← readNumber 4 4 .skippableFrameSize
    throw (.skippableFrame magic (UInt32.ofNat size))
  else if magic = Format.magic then
    readFields
  else
    throw (.invalidMagic (some magic))

end Header

end Lz4Frame
