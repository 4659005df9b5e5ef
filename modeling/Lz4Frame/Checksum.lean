import Lz4Frame.XxHash32

/-! The checksums of a frame. A header carries one byte of the hash of its fields, a block the hash
of its body as stored, and the frame the hash of its whole content. -/

namespace Lz4Frame

/-- A checksum found in a frame beside the one its data has. -/
structure Check where
  stored : UInt32
  computed : UInt32
  deriving DecidableEq, Repr

namespace Check

def passed (check : Check) : Bool := check.stored == check.computed

/-- The second-lowest byte of the hash of the header fields. -/
def headerByte (fields : List UInt8) : UInt8 :=
  ((XxHash32.digest fields) >>> 8).toUInt8

def ofHeader (fields : List UInt8) (stored : UInt8) : Check :=
  ⟨stored.toUInt32, (headerByte fields).toUInt32⟩

/-- The check of a block body or of a content that is at hand as a whole. -/
def ofData (data : List UInt8) (stored : UInt32) : Check :=
  ⟨stored, XxHash32.digest data⟩

/-- The check of a content that was hashed block by block. -/
def ofHasher (hasher : XxHash32.Hasher) (stored : UInt32) : Check :=
  ⟨stored, hasher.digest⟩

end Check

/-- What is known about one checksum of a frame. -/
inductive CheckOutcome where
  /-- The frame does not carry it. -/
  | absent
  /-- It could not, or should not, be verified. -/
  | skipped
  | checked (check : Check)
  deriving DecidableEq, Repr

namespace CheckOutcome

def failed : CheckOutcome → Bool
  | .checked check => !check.passed
  | _ => false

end CheckOutcome

end Lz4Frame
