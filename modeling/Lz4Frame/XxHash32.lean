/-! The 32-bit xxHash with a seed of zero, over a whole byte string and over one that arrives in
pieces. The input is taken in stripes of sixteen bytes, one word for each of four lanes. What is
left after the last full stripe is mixed in by words, then by bytes, and the result is scrambled
until every input bit can reach every output bit. The hash of a byte string does not depend on how
it is cut into pieces: `Hasher.update_append` and `Hasher.digest_update`. -/

namespace Lz4Frame.XxHash32

def prime1 : UInt32 := 0x9E3779B1
def prime2 : UInt32 := 0x85EBCA77
def prime3 : UInt32 := 0xC2B2AE3D
def prime4 : UInt32 := 0x27D4EB2F
def prime5 : UInt32 := 0x165667B1

/-- Rotation of a word by `count` bits, where `0 < count < 32`. -/
def rotateLeft (word count : UInt32) : UInt32 :=
  word <<< count ||| word >>> (32 - count)

/-- The little-endian word of four bytes. -/
def word (b₀ b₁ b₂ b₃ : UInt8) : UInt32 :=
  b₀.toUInt32 + b₁.toUInt32 * 0x100 + b₂.toUInt32 * 0x10000 + b₃.toUInt32 * 0x1000000

/-! ### Stripes -/

/-- The four running sums of the stripes. -/
structure Lanes where
  a : UInt32
  b : UInt32
  c : UInt32
  d : UInt32
  deriving DecidableEq, Repr

/-- The lanes before the first stripe. -/
def Lanes.start : Lanes := ⟨prime1 + prime2, prime2, 0, 0 - prime1⟩

/-- One lane after one word. -/
def round (lane word : UInt32) : UInt32 :=
  rotateLeft (lane + word * prime2) 13 * prime1

/-- The lanes after all full stripes of `data`, and the fewer than sixteen bytes left. -/
def stripes : Lanes → (data : List UInt8) → Lanes × List UInt8
  | lanes, a₀ :: a₁ :: a₂ :: a₃ :: b₀ :: b₁ :: b₂ :: b₃ :: c₀ :: c₁ :: c₂ :: c₃ ::
      d₀ :: d₁ :: d₂ :: d₃ :: rest =>
    stripes
      ⟨round lanes.a (word a₀ a₁ a₂ a₃), round lanes.b (word b₀ b₁ b₂ b₃),
        round lanes.c (word c₀ c₁ c₂ c₃), round lanes.d (word d₀ d₁ d₂ d₃)⟩ rest
  | lanes, rest => (lanes, rest)

theorem stripes_append (lanes : Lanes) (left right : List UInt8) :
    stripes lanes (left ++ right) =
      stripes (stripes lanes left).1 ((stripes lanes left).2 ++ right) := by
  fun_induction stripes lanes left with
  | case1 _ _ _ _ _ _ _ _ _ _ _ _ _ _ _ _ _ _ ih => simp [stripes, ih]
  | case2 lanes rest h => simp

/-! ### The end of the input -/

/-- The four lanes joined into one word. -/
def Lanes.join (lanes : Lanes) : UInt32 :=
  rotateLeft lanes.a 1 + rotateLeft lanes.b 7 + rotateLeft lanes.c 12 + rotateLeft lanes.d 18

/-- The bytes after the last full stripe, first as words and then one by one. -/
def mixRest : UInt32 → List UInt8 → UInt32
  | hash, b₀ :: b₁ :: b₂ :: b₃ :: rest =>
    mixRest (rotateLeft (hash + word b₀ b₁ b₂ b₃ * prime3) 17 * prime4) rest
  | hash, rest =>
    rest.foldl (fun hash byte => rotateLeft (hash + byte.toUInt32 * prime5) 11 * prime1) hash

/-- The final scrambling. -/
def avalanche (hash : UInt32) : UInt32 :=
  let hash := (hash ^^^ (hash >>> 15)) * prime2
  let hash := (hash ^^^ (hash >>> 13)) * prime3
  hash ^^^ (hash >>> 16)

/-- The hash of an input of `length` bytes whose full stripes gave `lanes` and left `rest`. -/
def finish (lanes : Lanes) (rest : List UInt8) (length : Nat) : UInt32 :=
  let start := if 16 ≤ length then lanes.join else prime5
  avalanche (mixRest (start + UInt32.ofNat length) rest)

/-- The hash of a byte string. -/
def digest (data : List UInt8) : UInt32 :=
  let (lanes, rest) := stripes .start data
  finish lanes rest data.length

/-! ### Input in pieces -/

/-- A hash in progress. -/
structure Hasher where
  lanes : Lanes := .start
  /-- The bytes after the last full stripe. -/
  pending : List UInt8 := []
  length : Nat := 0
  deriving DecidableEq, Repr

namespace Hasher

def update (hasher : Hasher) (data : List UInt8) : Hasher :=
  let (lanes, pending) := stripes hasher.lanes (hasher.pending ++ data)
  ⟨lanes, pending, hasher.length + data.length⟩

/-- Nothing was handed over so far. -/
def isEmpty (hasher : Hasher) : Bool := hasher.length == 0

/-- The hash of everything so far. -/
def digest (hasher : Hasher) : UInt32 :=
  finish hasher.lanes hasher.pending hasher.length

theorem update_append (hasher : Hasher) (left right : List UInt8) :
    hasher.update (left ++ right) = (hasher.update left).update right := by
  simp [update, ← List.append_assoc, stripes_append _ (hasher.pending ++ left), Nat.add_assoc]

theorem digest_update (data : List UInt8) :
    (update {} data).digest = XxHash32.digest data := by
  simp [update, digest, XxHash32.digest]

end Hasher

end Lz4Frame.XxHash32
