import Lz4Frame.Proofs.Content
import Lz4Frame.Proofs.Expansion

/-! The history of linked blocks is cut to a window on the way, and so is a dictionary. No outcome
of a block can tell, not even by the message of its failure: decoding behind a window of history is
decoding behind all of it, `BlockLayout.decodeAll_tail`. -/

namespace Lz4Frame

/-- The history for the block behind one with `content`, with nothing dropped from its front. It
starts again from nothing behind a block without content. -/
def Decoder.extendUnbounded (history : Bytes) : Option Bytes → Bytes
  | some content => history ++ content
  | none => #[]

theorem Decoder.extendHistory_tail (history : Bytes) (content : Option Bytes) :
    extendHistory (history.tail Format.windowSize) content =
      (extendUnbounded history content).tail Format.windowSize := by
  cases content with
  | none => exact (Bytes.tail_of_size_le (Nat.zero_le _)).symm
  | some content => rw [extendHistory, extendUnbounded, Bytes.tail_append_tail]

theorem Decompressor.lz4_tail (body history : Bytes) (maxSize : ℕ) :
    lz4 body (history.tail Format.windowSize) maxSize = lz4 body history maxSize := by
  unfold lz4
  rw [Block.decompress_eq_expand, Block.decompress_eq_expand, Block.expand_tail]

namespace BlockLayout

theorem decode_tail (options : Options) (maxSize index : ℕ) (history : Bytes)
    (block : BlockLayout) :
    block.decode .lz4 options maxSize index (history.tail Format.windowSize) =
      block.decode .lz4 options maxSize index history := by
  unfold decode content
  rw [Decompressor.lz4_tail]

/-- All blocks, front to back, each behind everything that it may refer to. -/
def decodeUnbounded (options : Options) (linked : Bool) (maxSize : ℕ) :
    (index : ℕ) → (history : Bytes) → List BlockLayout → List DecodedBlock
  | _, _, [] => []
  | index, history, block :: blocks =>
    let decoded := block.decode .lz4 options maxSize index history
    decoded :: decodeUnbounded options linked maxSize (index + 1)
      (if linked then Decoder.extendUnbounded history decoded.content else history) blocks

/-- A window of history is as good as all of it, and it stays one from block to block. -/
theorem decodeAll_tail (options : Options) (linked : Bool) (maxSize index : ℕ) (history : Bytes)
    (blocks : List BlockLayout) :
    decodeAll .lz4 options linked maxSize index (history.tail Format.windowSize) blocks =
      decodeUnbounded options linked maxSize index history blocks := by
  induction blocks generalizing index history with
  | nil => rfl
  | cons block blocks ih =>
    rw [decodeAll, decodeUnbounded, decode_tail, ← ih]
    cases linked with
    | true => rw [if_pos rfl, if_pos rfl, Decoder.extendHistory_tail]
    | false => rw [if_neg Bool.false_ne_true, if_neg Bool.false_ne_true]

end BlockLayout

end Lz4Frame
