import Lz4Frame.Block.Expansion
import Lz4Frame.Issue

/-! What an analysis needs from its surroundings: something that expands compressed blocks, a clock,
a way to be cancelled and the order in which independent blocks are taken. The computations may be
of any monad. A pure analysis has a decompressor that is a function, a clock that stands still and
nobody who cancels. -/

namespace Lz4Frame

/-- How blocks that do not need each other are taken: a window of blocks at a time, and the blocks
of a window in any order. -/
structure Schedule where
  window : Nat
  /-- The order in which a window of `count` blocks is taken that has `front` blocks before it. -/
  order : (front count : Nat) → List Nat
  window_pos : 0 < window
  order_perm : ∀ front count, (order front count).Perm (List.range count)

/-- A few blocks at a time, in the order in which they lie in the input. -/
def Schedule.standard : Schedule where
  window := 4
  order _ := List.range
  window_pos := by decide
  order_perm _ _ := .refl _

/-- A function from a body, the history before it and the most bytes of content it may have. -/
abbrev Decompressor := (body history : Bytes) → (maxSize : Nat) → Except FailureReason Bytes

/-- The decompressor for the blocks of this format. -/
def Decompressor.lz4 : Decompressor := fun body history maxSize =>
  (Block.decompress body history maxSize).mapError fun error => .corrupted error.message

structure Environment (m : Type → Type) where
  decompress : (body history : Bytes) → (maxSize : Nat) → m (Except FailureReason Bytes)
  /-- The time in nanoseconds. -/
  now : m Nat
  cancelled : m Bool
  schedule : Schedule := .standard

/-- The surroundings that only decompress. -/
def Environment.ofDecompressor {m : Type → Type} [Monad m] (decompressor : Decompressor) :
    Environment m where
  decompress body history maxSize := pure (decompressor body history maxSize)
  now := pure 0
  cancelled := pure false

end Lz4Frame
