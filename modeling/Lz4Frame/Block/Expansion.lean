import Lz4Frame.Bytes
import Lz4Frame.Block.Sequence

/-! The content of a compressed body. Literals are taken over and matches are copied from what came
before them, the history of the block included. The history is what the content of a block may
refer to without holding it: earlier blocks or a dictionary.

The content is bounded. Since no byte of a body stands for more than 255 bytes of content, a larger
bound than that asks for makes no difference. -/

namespace Lz4Frame.Block

/-- The window with `length` more bytes, each copied from `offset` bytes back. A match may reach
into what it has itself just written. -/
def copyMatch (offset : Nat) : (length : Nat) → Bytes → Bytes
  | 0, window => window
  | length + 1, window =>
    copyMatch offset length (window.push (window.getD (window.size - offset) 0))

/-- The sequences of `input` carried out behind `window`, whose first `start` bytes are history. At
most `limit` bytes may follow them. -/
def expandFrom (start limit : Nat) (window : Bytes) (input : List UInt8) :
    Except BodyError Bytes :=
  match _hread : Sequence.read input with
  | .error error => .error error
  | .ok sequence =>
    let size := window.size - start + sequence.literals.length
    if limit < size then
      .error (.outputTooSmall limit size)
    else
      let window := window ++ sequence.literals.toArray
      match _hnext : sequence.continuation with
      | .ended => .ok window
      | .malformed error => .error error
      | .matching offset length rest =>
        if limit < size + length then
          .error (.outputTooSmall limit (size + length))
        else if window.size < offset then
          .error .offsetOutOfBounds
        else
          expandFrom start limit (copyMatch offset length window) rest
termination_by input.length
decreasing_by exact Sequence.length_of_read _hread _hnext

/-- The content of a body behind `history`, if it has at most `limit` bytes. -/
def expand (limit : Nat) (body history : Bytes) : Except BodyError Bytes :=
  (expandFrom history.size limit history body.toList).map fun window =>
    window.extract history.size window.size

/-- A bound that the content of a body never exceeds. -/
def sizeBound (body : Bytes) : Nat := 255 * body.size + 16

/-- The content of a body behind `history`, if it has at most `maxSize` bytes. -/
def decompress (body history : Bytes) (maxSize : Nat) : Except BodyError Bytes :=
  expand (min maxSize (sizeBound body)) body history

@[simp] theorem size_copyMatch (offset length : Nat) (window : Bytes) :
    (copyMatch offset length window).size = window.size + length := by
  induction length generalizing window with
  | zero => rfl
  | succ length ih => simp [copyMatch, ih, Nat.add_assoc, Nat.add_comm 1]

end Lz4Frame.Block
