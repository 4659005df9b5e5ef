import Mathlib.Algebra.Order.Ring.Nat
import Lz4Frame.Block.Sequence
import Lz4Frame.Word

/-! Words and their bytes. Writing a number keeps it modulo the range of its width, and reading the
bytes of a word gives the word back, so the words of a frame and their bytes determine each other.
-/

namespace Lz4Frame.Word

theorem value_encode (width n : ℕ) : value (encode width n) = n % 256 ^ width := by
  induction width generalizing n with
  | zero => simp [encode, value, Nat.mod_one]
  | succ width ih =>
    rw [encode, value, ih, pow_succ', Nat.mod_mul]
    simp

theorem value_lt (bytes : List UInt8) : value bytes < 256 ^ bytes.length := by
  have h := value_encode bytes.length (value bytes)
  rw [encode_value] at h
  rw [h]
  exact Nat.mod_lt _ (Nat.pow_pos (by decide))

/-! ### Words of four and of eight bytes -/

theorem ofNat_value_encode_word (word : UInt32) :
    UInt32.ofNat (value (encode 4 word.toNat)) = word := by
  rw [value_encode, Nat.mod_eq_of_lt (by simpa using word.toNat_lt)]
  simp

theorem ofNat_value_encode_long (long : UInt64) :
    UInt64.ofNat (value (encode 8 long.toNat)) = long := by
  rw [value_encode, Nat.mod_eq_of_lt (by simpa using long.toNat_lt)]
  simp

theorem toNat_ofNat_value_word {bytes : List UInt8} (h : bytes.length = 4) :
    (UInt32.ofNat (value bytes)).toNat = value bytes := by
  have hlt := value_lt bytes
  rw [h] at hlt
  exact UInt32.toNat_ofNat_of_lt' hlt

theorem encode_ofNat_value_word {bytes : List UInt8} (h : bytes.length = 4) :
    encode 4 (UInt32.ofNat (value bytes)).toNat = bytes := by
  rw [toNat_ofNat_value_word h, ← h, encode_value]

theorem encode_ofNat_value_long {bytes : List UInt8} (h : bytes.length = 8) :
    encode 8 (UInt64.ofNat (value bytes)).toNat = bytes := by
  have hlt := value_lt bytes
  rw [h] at hlt
  rw [UInt64.toNat_ofNat_of_lt' hlt, ← h, encode_value]

/-! ### Words that a frame may lack -/

open Block.Sequence (splitExact? splitExact?_eq_some_iff splitExact?_eq_none_iff)

/-- A word, or no bytes in its place. -/
def encodeOptional (word : Option UInt32) : List UInt8 :=
  word.elim [] fun word => encode 4 word.toNat

@[simp] theorem length_encodeOptional (word : Option UInt32) :
    (encodeOptional word).length = if word.isSome then 4 else 0 := by
  cases word <;> simp [encodeOptional]

/-- The word at the front of `bytes`, if it is announced, and the bytes behind it. -/
def readOptional? (announced : Bool) (bytes : List UInt8) :
    Option (Option UInt32 × List UInt8) :=
  if announced then
    (splitExact? 4 bytes).map fun (front, rest) => (some (UInt32.ofNat (value front)), rest)
  else
    some (none, bytes)

theorem readOptional?_eq_some_iff {announced : Bool} {bytes rest : List UInt8}
    {word : Option UInt32} :
    readOptional? announced bytes = some (word, rest) ↔
      word.isSome = announced ∧ bytes = encodeOptional word ++ rest := by
  unfold readOptional?
  cases announced with
  | false =>
    simp only [Bool.false_eq_true, if_false, Option.some.injEq, Prod.mk.injEq]
    constructor
    · rintro ⟨rfl, rfl⟩
      exact ⟨rfl, rfl⟩
    · rintro ⟨hnone, rfl⟩
      cases word with
      | none => exact ⟨rfl, rfl⟩
      | some word => cases hnone
  | true =>
    simp only [if_true, Option.map_eq_some_iff, Prod.exists, Prod.mk.injEq,
      splitExact?_eq_some_iff]
    constructor
    · rintro ⟨front, rest, ⟨rfl, hlen⟩, rfl, rfl⟩
      refine ⟨rfl, ?_⟩
      rw [encodeOptional, Option.elim_some, encode_ofNat_value_word hlen]
    · rintro ⟨hsome, rfl⟩
      obtain ⟨word, rfl⟩ := Option.isSome_iff_exists.1 hsome
      exact ⟨_, rest, ⟨rfl, by simp⟩, congrArg some (ofNat_value_encode_word word), rfl⟩

theorem readOptional?_eq_none_iff {announced : Bool} {bytes : List UInt8} :
    readOptional? announced bytes = none ↔ announced = true ∧ bytes.length < 4 := by
  cases announced <;> simp [readOptional?, splitExact?_eq_none_iff]

end Lz4Frame.Word
