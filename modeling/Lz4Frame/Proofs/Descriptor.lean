import Mathlib.Data.Nat.Bitwise
import Lz4Frame.Descriptor

/-! What the two descriptor bytes say, in terms of their values. A pair of bytes is accepted exactly
if it is allowed, `exists_ofBytes_iff`, each announcement is a bit of the flag byte, and the maximum
block size is a power of four. -/

namespace Lz4Frame

/-- A field behind the magic number is there and has a value that it may not have. -/
def HeaderError.IsMistake : HeaderError → Prop
  | .unsupportedVersion _ => True
  | .reservedBitsSet .. => True
  | .invalidBlockMaxSize _ => True
  | .checksumMismatch .. => True
  | _ => False

namespace Descriptor

/-! ### Bytes that are refused -/

theorem isMistake_of_flagsError? {flags : UInt8} {error : HeaderError}
    (h : flagsError? flags = some error) : error.IsMistake := by
  unfold flagsError? at h
  split_ifs at h <;> cases h <;> trivial

theorem isMistake_of_sizesError? {sizes : UInt8} {error : HeaderError}
    (h : sizesError? sizes = some error) : error.IsMistake := by
  unfold sizesError? at h
  split_ifs at h <;> cases h <;> trivial

theorem isMistake_of_ofBytes {flags sizes : UInt8} {error : HeaderError}
    (h : ofBytes flags sizes = .error error) : error.IsMistake := by
  unfold ofBytes at h
  split at h
  next hflags =>
    cases h
    exact isMistake_of_flagsError? hflags
  next =>
    split at h
    next hsizes =>
      cases h
      exact isMistake_of_sizesError? hsizes
    next => cases h

/-! ### Bytes that are accepted -/

theorem ofBytes_eq_ok_iff {flags sizes : UInt8} {descriptor : Descriptor} :
    ofBytes flags sizes = .ok descriptor ↔
      descriptor.flags = flags ∧ descriptor.sizes = sizes := by
  obtain ⟨flags', sizes', hflags, hsizes⟩ := descriptor
  unfold ofBytes
  constructor
  · intro h
    split at h
    · cases h
    · split at h
      · cases h
      · cases h
        exact ⟨rfl, rfl⟩
  · rintro ⟨rfl, rfl⟩
    split
    next error herror => simp [hflags] at herror
    next =>
      split
      next error herror => simp [hsizes] at herror
      next => rfl

/-- The bytes that the format allows: version 1 in the two highest bits of the flag byte, a reserved
bit that is clear, and one of the four size codes with nothing beside it in the size byte. -/
structure Allowed (flags sizes : UInt8) : Prop where
  version : flags.toNat / 64 = 1
  reserved : flags.toNat.testBit 1 = false
  sizes : sizes ∈ [0x40, 0x50, 0x60, 0x70]

theorem forall_byte {p : UInt8 → Prop} (h : ∀ n : Fin 256, p (UInt8.ofFin n)) (byte : UInt8) :
    p byte := h byte.toFin

theorem flagsError?_eq_none_iff (flags : UInt8) :
    flagsError? flags = none ↔ flags.toNat / 64 = 1 ∧ flags.toNat.testBit 1 = false := by
  revert flags
  refine forall_byte ?_
  decide +kernel

theorem sizesError?_eq_none_iff (sizes : UInt8) :
    sizesError? sizes = none ↔ sizes ∈ [0x40, 0x50, 0x60, 0x70] := by
  revert sizes
  refine forall_byte ?_
  decide +kernel

theorem allowed (descriptor : Descriptor) : Allowed descriptor.flags descriptor.sizes :=
  have hflags := (flagsError?_eq_none_iff _).1 descriptor.flags_allowed
  ⟨hflags.1, hflags.2, (sizesError?_eq_none_iff _).1 descriptor.sizes_allowed⟩

theorem exists_ofBytes_iff {flags sizes : UInt8} :
    (∃ descriptor, ofBytes flags sizes = .ok descriptor) ↔ Allowed flags sizes := by
  simp only [ofBytes_eq_ok_iff]
  constructor
  · rintro ⟨descriptor, rfl, rfl⟩
    exact descriptor.allowed
  · rintro ⟨hversion, hreserved, hsizes⟩
    exact ⟨⟨flags, sizes, (flagsError?_eq_none_iff _).2 ⟨hversion, hreserved⟩,
      (sizesError?_eq_none_iff _).2 hsizes⟩, rfl, rfl⟩

/-! ### Announcements -/

theorem bit_eq_testBit (byte : UInt8) {i : UInt8} (h : i.toNat < 8) :
    ((byte >>> i) &&& 1 == 1) = byte.toNat.testBit i.toNat := by
  rw [Bool.eq_iff_iff, beq_iff_eq, ← UInt8.toNat_inj, UInt8.toNat_and, UInt8.toNat_shiftRight,
    Nat.mod_eq_of_lt h]
  simp [Nat.testBit, Nat.and_comm]

variable (descriptor : Descriptor)

theorem independentBlocks_eq :
    descriptor.independentBlocks = descriptor.flags.toNat.testBit 5 :=
  bit_eq_testBit _ (by decide)

theorem hasBlockChecksums_eq :
    descriptor.hasBlockChecksums = descriptor.flags.toNat.testBit 4 :=
  bit_eq_testBit _ (by decide)

theorem hasContentSize_eq : descriptor.hasContentSize = descriptor.flags.toNat.testBit 3 :=
  bit_eq_testBit _ (by decide)

theorem hasContentChecksum_eq :
    descriptor.hasContentChecksum = descriptor.flags.toNat.testBit 2 :=
  bit_eq_testBit _ (by decide)

theorem hasDictionaryId_eq : descriptor.hasDictionaryId = descriptor.flags.toNat.testBit 0 := by
  have h := bit_eq_testBit descriptor.flags (i := 0) (by decide)
  rwa [UInt8.shiftRight_zero] at h

/-- The size codes from 4 to 7 stand for 64 KiB and for four times as much with each step. -/
theorem bytes_of_ofCode? : ∀ sizes ∈ ([0x40, 0x50, 0x60, 0x70] : List UInt8),
    ∀ size ∈ BlockMaxSize.ofCode? (codeOf sizes), size.bytes = 4 ^ (sizes.toNat / 16 + 4) := by
  decide +kernel

theorem bytes_maxSize :
    descriptor.maxSize.bytes = 4 ^ (descriptor.sizes.toNat / 16 + 4) :=
  bytes_of_ofCode? _ descriptor.allowed.sizes _ (Option.get_mem _)

end Descriptor

end Lz4Frame
