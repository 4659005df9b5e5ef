/-! The constants of the frame format: magic numbers, the version, field widths and the limits on
what a block may refer to. -/

namespace Lz4Frame.Format

/-- The first word of a frame. -/
def magic : UInt32 := 0x184D2204

/-- The first and the last magic number of a skippable frame. -/
def skippableFirst : UInt32 := 0x184D2A50
def skippableLast : UInt32 := 0x184D2A5F

def isSkippable (magic : UInt32) : Bool := skippableFirst ≤ magic && magic ≤ skippableLast

/-- The only version of the format, stored in the two high bits of the flag byte. -/
def version : UInt8 := 1

/-- Size words, checksums, the end mark and magic numbers take four bytes each. -/
def wordSize : Nat := 4

/-- A magic number, the two descriptor bytes and the header checksum. -/
def minHeaderSize : Nat := 7

/-- A minimal header with a content size and a dictionary id. -/
def maxHeaderSize : Nat := minHeaderSize + 8 + 4

/-- The bit of a size word that marks a block stored as it is. -/
def storedFlag : Nat := 0x80000000

/-- How far back a match may reach. -/
def windowSize : Nat := 64 * 1024

/-- How many bytes of each block body a report shows. -/
def sampleSize : Nat := 16

end Lz4Frame.Format
