import Lz4Frame.Error

/-! The two descriptor bytes of a frame header. The flag byte holds the version and says which
optional fields a frame has, the other one selects the maximum block size. A `Descriptor` holds only
pairs of bytes that the format allows. -/

namespace Lz4Frame

/-- The most content that one block may hold. -/
inductive BlockMaxSize where
  | kib64
  | kib256
  | mib1
  | mib4
  deriving DecidableEq, Repr

namespace BlockMaxSize

def ofCode? : UInt8 → Option BlockMaxSize
  | 4 => some .kib64
  | 5 => some .kib256
  | 6 => some .mib1
  | 7 => some .mib4
  | _ => none

def code : BlockMaxSize → UInt8
  | .kib64 => 4
  | .kib256 => 5
  | .mib1 => 6
  | .mib4 => 7

def bytes : BlockMaxSize → Nat
  | .kib64 => 64 * 1024
  | .kib256 => 256 * 1024
  | .mib1 => 1024 * 1024
  | .mib4 => 4 * 1024 * 1024

def text : BlockMaxSize → String
  | .kib64 => "64KiB"
  | .kib256 => "256KiB"
  | .mib1 => "1MiB"
  | .mib4 => "4MiB"

theorem ofCode?_code (size : BlockMaxSize) : ofCode? size.code = some size := by
  cases size <;> rfl

theorem code_of_ofCode? {code : UInt8} {size : BlockMaxSize} (h : ofCode? code = some size) :
    size.code = code := by
  unfold ofCode? at h
  split at h <;> simp_all [BlockMaxSize.code] <;> subst h <;> rfl

end BlockMaxSize

namespace Descriptor

/-- What is wrong with a flag byte. -/
def flagsError? (flags : UInt8) : Option HeaderError :=
  if flags >>> 6 ≠ Format.version then
    some (.unsupportedVersion (flags >>> 6))
  else if flags &&& 0b10 ≠ 0 then
    some (.reservedBitsSet .frameDescriptor flags)
  else
    none

/-- The block maximum size code of a size byte. -/
def codeOf (sizes : UInt8) : UInt8 := (sizes >>> 4) &&& 0b111

/-- What is wrong with a size byte. -/
def sizesError? (sizes : UInt8) : Option HeaderError :=
  if sizes &&& 0b10001111 ≠ 0 then
    some (.reservedBitsSet .blockDescriptor sizes)
  else if (BlockMaxSize.ofCode? (codeOf sizes)).isNone then
    some (.invalidBlockMaxSize (codeOf sizes))
  else
    none

end Descriptor

/-- A flag byte and a size byte that the format allows. -/
structure Descriptor where
  flags : UInt8
  sizes : UInt8
  flags_allowed : Descriptor.flagsError? flags = none
  sizes_allowed : Descriptor.sizesError? sizes = none
  deriving DecidableEq

namespace Descriptor

/-- The descriptor of two bytes. A wrong flag byte is reported before a wrong size byte. -/
def ofBytes (flags sizes : UInt8) : Except HeaderError Descriptor :=
  match hf : flagsError? flags with
  | some error => .error error
  | none =>
    match hs : sizesError? sizes with
    | some error => .error error
    | none => .ok ⟨flags, sizes, hf, hs⟩

def version (descriptor : Descriptor) : UInt8 := descriptor.flags >>> 6

/-- No block refers to the content of another one. -/
def independentBlocks (descriptor : Descriptor) : Bool := (descriptor.flags >>> 5) &&& 1 == 1

def hasBlockChecksums (descriptor : Descriptor) : Bool := (descriptor.flags >>> 4) &&& 1 == 1

def hasContentSize (descriptor : Descriptor) : Bool := (descriptor.flags >>> 3) &&& 1 == 1

def hasContentChecksum (descriptor : Descriptor) : Bool := (descriptor.flags >>> 2) &&& 1 == 1

def hasDictionaryId (descriptor : Descriptor) : Bool := descriptor.flags &&& 1 == 1

def maxSizeCode (descriptor : Descriptor) : UInt8 := codeOf descriptor.sizes

theorem isSome_ofCode?_maxSizeCode (descriptor : Descriptor) :
    (BlockMaxSize.ofCode? descriptor.maxSizeCode).isSome := by
  have h := descriptor.sizes_allowed
  unfold sizesError? at h
  split at h
  · cases h
  · split at h
    · cases h
    · cases hcode : BlockMaxSize.ofCode? descriptor.maxSizeCode with
      | none => exact absurd (Option.isNone_iff_eq_none.2 hcode) ‹_›
      | some size => rfl

def maxSize (descriptor : Descriptor) : BlockMaxSize :=
  (BlockMaxSize.ofCode? descriptor.maxSizeCode).get descriptor.isSome_ofCode?_maxSizeCode

/-- The width of the checksum after each block. -/
def blockChecksumSize (descriptor : Descriptor) : Nat :=
  if descriptor.hasBlockChecksums then 4 else 0

/-- The width of the content size in the header. -/
def contentSizeSize (descriptor : Descriptor) : Nat :=
  if descriptor.hasContentSize then 8 else 0

/-- The width of the dictionary id in the header. -/
def dictionaryIdSize (descriptor : Descriptor) : Nat :=
  if descriptor.hasDictionaryId then 4 else 0

end Descriptor

end Lz4Frame
