/-! Little-endian words. Every number of a frame is stored with its lowest byte first, in one, four
or eight bytes. Writing a word that was read gives the bytes that were read, `encode_value`. -/

namespace Lz4Frame.Word

/-- The number spelled by `bytes`, lowest byte first. -/
def value : List UInt8 → Nat
  | [] => 0
  | byte :: rest => byte.toNat + 256 * value rest

/-- The lowest `width` bytes of `n`, lowest first. -/
def encode : (width n : Nat) → List UInt8
  | 0, _ => []
  | width + 1, n => UInt8.ofNat n :: encode width (n / 256)

@[simp] theorem length_encode (width n : Nat) : (encode width n).length = width := by
  induction width generalizing n with
  | zero => rfl
  | succ width ih => simp [encode, ih]

theorem encode_value (bytes : List UInt8) : encode bytes.length (value bytes) = bytes := by
  induction bytes with
  | nil => rfl
  | cons byte rest ih =>
    have := byte.toNat_lt
    have hdiv : (byte.toNat + 256 * value rest) / 256 = value rest := by omega
    simp [encode, value, hdiv, ih]

end Lz4Frame.Word
