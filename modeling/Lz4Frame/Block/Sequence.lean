/-! The body of a compressed block is a list of sequences. Each one has some literal bytes and,
unless it is the last, a match: an offset back into the content so far and a length to copy from
there. A token byte gives both lengths in four bits each, and further bytes extend them.

A body ends right after the literals of a sequence, so what follows them is read only if there is
more input. Errors there are kept in the sequence: its literals are still good. -/

namespace Lz4Frame.Block

/-- Why a compressed body cannot be expanded. -/
inductive BodyError where
  /-- The body ends where another byte has to follow. -/
  | missingByte
  | literalsOutOfBounds
  | zeroOffset
  /-- A match starts before everything there is to copy from. -/
  | offsetOutOfBounds
  /-- The content would take `expected` bytes where `actual` are allowed. -/
  | outputTooSmall (actual expected : Nat)
  deriving DecidableEq, Repr

def BodyError.message : BodyError → String
  | .missingByte => "expected another byte, found none"
  | .literalsOutOfBounds => "literal is out of bounds of the input"
  | .zeroOffset => "0 is not a valid match offset"
  | .offsetOutOfBounds => "the offset to copy is not contained in the decompressed buffer"
  | .outputTooSmall actual expected =>
    "provided output is too small for the decompressed data, " ++
      s!"actual {actual}, expected {expected}"

/-- What follows the literals of a sequence. -/
inductive Continuation where
  /-- The end of the body. -/
  | ended
  | matching (offset length : Nat) (rest : List UInt8)
  | malformed (error : BodyError)
  deriving DecidableEq, Repr

/-- The literals of a sequence and what follows them. -/
structure Sequence where
  literals : List UInt8
  continuation : Continuation
  deriving DecidableEq, Repr

namespace Sequence

/-- The rest of a length: bytes are added while they are 255, and so is the first other one. -/
def readExtension : (length : Nat) → List UInt8 → Except BodyError (Nat × List UInt8)
  | _, [] => .error .missingByte
  | length, byte :: rest =>
    if byte = 255 then readExtension (length + 255) rest else .ok (length + byte.toNat, rest)

/-- A length of which a token holds four bits. Only the full four bits are extended. -/
def readLength (bits : Nat) (input : List UInt8) : Except BodyError (Nat × List UInt8) :=
  if bits = 15 then readExtension 15 input else .ok (bits, input)

/-- The first `count` bytes, if there are as many, and the bytes after them. -/
def splitExact? (count : Nat) (input : List UInt8) : Option (List UInt8 × List UInt8) :=
  let front := input.take count
  if front.length = count then some (front, input.drop count) else none

/-- The match of a sequence, of whose length the token holds `bits`. -/
def readMatch (bits : Nat) : List UInt8 → Continuation
  | [] => .ended
  | [_] => .malformed .missingByte
  | low :: high :: rest =>
    let offset := low.toNat + 256 * high.toNat
    if offset = 0 then
      .malformed .zeroOffset
    else
      match readLength bits rest with
      | .error error => .malformed error
      | .ok (length, rest) => .matching offset (4 + length) rest

/-- The sequence at the start of a body. -/
def read : List UInt8 → Except BodyError Sequence
  | [] => .error .missingByte
  | token :: input =>
    match readLength (token.toNat / 16) input with
    | .error error => .error error
    | .ok (count, input) =>
      match splitExact? count input with
      | none => .error .literalsOutOfBounds
      | some (literals, rest) => .ok ⟨literals, readMatch (token.toNat % 16) rest⟩

/-! ### Every sequence takes bytes away -/

theorem length_of_readExtension {length n : Nat} {input rest : List UInt8}
    (h : readExtension length input = .ok (n, rest)) : rest.length < input.length := by
  fun_induction readExtension length input with
  | case1 => cases h
  | case2 length rest ih => exact Nat.lt_succ_of_lt (ih h)
  | case3 => cases h; exact Nat.lt_succ_self _

theorem length_of_readLength {bits n : Nat} {input rest : List UInt8}
    (h : readLength bits input = .ok (n, rest)) : rest.length ≤ input.length := by
  unfold readLength at h
  split at h
  · exact Nat.le_of_lt (length_of_readExtension h)
  · cases h
    exact Nat.le_refl _

theorem splitExact?_eq_some_iff {count : Nat} {input front rest : List UInt8} :
    splitExact? count input = some (front, rest) ↔
      input = front ++ rest ∧ front.length = count := by
  unfold splitExact?
  constructor
  · intro h
    dsimp only at h
    split at h
    next hlength =>
      cases h
      exact ⟨(List.take_append_drop count input).symm, hlength⟩
    · cases h
  · rintro ⟨rfl, rfl⟩
    simp

theorem splitExact?_eq_none_iff {count : Nat} {input : List UInt8} :
    splitExact? count input = none ↔ input.length < count := by
  simp only [splitExact?, List.length_take]
  split <;> simp <;> omega

theorem length_of_readMatch {bits offset n : Nat} {input rest : List UInt8}
    (h : readMatch bits input = .matching offset n rest) : rest.length < input.length := by
  unfold readMatch at h
  split at h
  · cases h
  · cases h
  · dsimp only at h
    split at h
    · cases h
    · split at h
      · cases h
      next hlength =>
        cases h
        have := length_of_readLength hlength
        simp only [List.length_cons]
        omega

theorem length_of_read {input rest : List UInt8} {sequence : Sequence} {offset n : Nat}
    (h : read input = .ok sequence) (hc : sequence.continuation = .matching offset n rest) :
    rest.length < input.length := by
  unfold read at h
  split at h
  · cases h
  · split at h
    · cases h
    next hcount =>
      split at h
      · cases h
      next hsplit =>
        cases h
        have hlength := length_of_readLength hcount
        have hmatch := length_of_readMatch hc
        have hinput := (splitExact?_eq_some_iff.1 hsplit).1
        simp only [hinput, List.length_append, List.length_cons] at *
        omega

end Sequence

end Lz4Frame.Block
