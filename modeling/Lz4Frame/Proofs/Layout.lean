import Lz4Frame.Block.Scanner
import Lz4Frame.Frame
import Lz4Frame.Proofs.Word

/-! The layout of a frame: what its writer chose, and the bytes and offsets that follow from it. A
frame is its header, its blocks, an end mark and, where it is announced, a content checksum. A block
is a size word, a body and, where they are announced, a checksum word. The checksum words are
arbitrary here; whether they fit their data is not a matter of layout. -/

namespace Lz4Frame

/-- A block as it is written. -/
@[ext]
structure BlockLayout where
  kind : BlockKind
  body : Bytes
  checksum : Option UInt32
  size_lt : body.size < Format.storedFlag
  /-- The size word of an empty compressed body would be an end mark. -/
  size_pos : kind = .compressed → 0 < body.size

namespace BlockLayout

/-- The size word. Its highest bit marks a body that is stored as it is. -/
def word (block : BlockLayout) : ℕ :=
  match block.kind with
  | .compressed => block.body.size
  | .uncompressed => Format.storedFlag + block.body.size

def encode (block : BlockLayout) : List UInt8 :=
  Word.encode 4 block.word ++ block.body.toList ++ Word.encodeOptional block.checksum

/-- The block that a scan finds where this one is written. -/
def locate (index offset : ℕ) (block : BlockLayout) : Block where
  index := index
  offset := offset
  size := block.body.size
  kind := block.kind
  bodyOffset := offset + Format.wordSize
  checksum := block.checksum

theorem word_pos (block : BlockLayout) : 0 < block.word := by
  unfold word
  split
  next hkind => exact block.size_pos hkind
  next => simp [Format.storedFlag]

theorem word_lt (block : BlockLayout) : block.word < 2 * Format.storedFlag := by
  have := block.size_lt
  unfold word
  split <;> omega

theorem toNat_ofNat_word (block : BlockLayout) : (UInt32.ofNat block.word).toNat = block.word :=
  UInt32.toNat_ofNat_of_lt' block.word_lt

@[simp] theorem kindOfWord_word (block : BlockLayout) :
    Block.kindOfWord (UInt32.ofNat block.word) = block.kind := by
  have := block.size_lt
  rw [Block.kindOfWord, toNat_ofNat_word, word]
  cases block.kind <;> simp
  omega

@[simp] theorem sizeOfWord_word (block : BlockLayout) :
    Block.sizeOfWord (UInt32.ofNat block.word) = block.body.size := by
  rw [Block.sizeOfWord, toNat_ofNat_word, word]
  cases block.kind <;> simp [Nat.mod_eq_of_lt block.size_lt]

/-- Only one word has the kind and the size of a block. -/
theorem word_eq {block : BlockLayout} {word : UInt32} (hkind : block.kind = Block.kindOfWord word)
    (hsize : block.body.size = Block.sizeOfWord word) : block.word = word.toNat := by
  have := word.toNat_lt
  unfold Block.kindOfWord at hkind
  rw [Block.sizeOfWord] at hsize
  split at hkind
  all_goals
    simp only [BlockLayout.word, hkind, Format.storedFlag] at *
    omega

theorem length_encode (block : BlockLayout) :
    block.encode.length = 4 + block.body.size + if block.checksum.isSome then 4 else 0 := by
  simp only [encode, List.length_append, Word.length_encode, Word.length_encodeOptional,
    Array.length_toList]

theorem endOffset_locate (block : BlockLayout) (index offset : ℕ) :
    (block.locate index offset).endOffset = offset + block.encode.length := by
  by_cases h : block.checksum.isSome <;>
    simp [Block.endOffset, Block.bodyEnd, locate, length_encode, Format.wordSize, h] <;> omega

/-- Blocks one behind the other, from an offset on. -/
def locateAll (index offset : ℕ) : List BlockLayout → List Block
  | [] => []
  | block :: blocks =>
    block.locate index offset :: locateAll (index + 1) (offset + block.encode.length) blocks

def encodeAll (blocks : List BlockLayout) : List UInt8 := blocks.flatMap encode

@[simp] theorem encodeAll_nil : encodeAll [] = [] := rfl

@[simp] theorem encodeAll_cons (block : BlockLayout) (blocks : List BlockLayout) :
    encodeAll (block :: blocks) = block.encode ++ encodeAll blocks := rfl

@[simp] theorem length_locateAll (index offset : ℕ) (blocks : List BlockLayout) :
    (locateAll index offset blocks).length = blocks.length := by
  induction blocks generalizing index offset with
  | nil => rfl
  | cons block blocks ih => simp [locateAll, ih]

theorem encodeAll_append (front behind : List BlockLayout) :
    encodeAll (front ++ behind) = encodeAll front ++ encodeAll behind := List.flatMap_append

theorem locateAll_append (index offset : ℕ) (front behind : List BlockLayout) :
    locateAll index offset (front ++ behind) =
      locateAll index offset front ++
        locateAll (index + front.length) (offset + (encodeAll front).length) behind := by
  induction front generalizing index offset with
  | nil => rfl
  | cons block front ih =>
    simp only [List.cons_append, locateAll, ih, encodeAll_cons, List.length_cons,
      List.length_append]
    congr 3 <;> omega

end BlockLayout

/-- The size word behind the last block. -/
def Format.endMark : List UInt8 := Word.encode 4 0

/-- A frame as it is written. -/
structure FrameLayout where
  header : Header
  blocks : List BlockLayout
  contentChecksum : Option UInt32
  isSome_checksum : ∀ block ∈ blocks,
    block.checksum.isSome = header.descriptor.hasBlockChecksums
  isSome_contentChecksum : contentChecksum.isSome = header.descriptor.hasContentChecksum

namespace FrameLayout

/-- The bytes behind the header. -/
def remainder (frame : FrameLayout) : List UInt8 :=
  BlockLayout.encodeAll frame.blocks ++
    (Format.endMark ++ Word.encodeOptional frame.contentChecksum)

def encode (frame : FrameLayout) : List UInt8 := frame.header.encode ++ frame.remainder

/-- The frame that a scan finds where this one is written. -/
def locate (frame : FrameLayout) : Frame where
  header := frame.header
  blocks := BlockLayout.locateAll 0 frame.header.length frame.blocks
  contentChecksum := frame.contentChecksum
  endOffset := some frame.encode.length

end FrameLayout

end Lz4Frame
