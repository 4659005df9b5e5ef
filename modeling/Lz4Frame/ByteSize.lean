import Lz4Frame.Binary64

/-! Byte counts for people: the count itself below 1024, and else the count divided by the largest
unit that it reaches, with two decimals. The unit is chosen before the decimals are rounded. Counts
of more than 53 bits are rounded to that many bits first. -/

namespace Lz4Frame.ByteSize

def units : List String := ["B", "KiB", "MiB", "GiB", "TiB"]

/-- How often a count can be divided by 1024, up to the largest unit. -/
def unitIndex (count : Nat) : Nat := min 4 (count.log2 / 10)

/-- A hundred times the count in its unit, to the nearest natural number. -/
def hundredths (count : Nat) : Nat := roundDiv (count * 100) (1 <<< (10 * unitIndex count))

def text (bytes : Nat) : String :=
  if bytes < 1024 then
    s!"{bytes} B"
  else
    let count := roundNat bytes
    s!"{fixedPoint 2 (hundredths count)} {units.getD (unitIndex count) units[0]}"

end Lz4Frame.ByteSize
