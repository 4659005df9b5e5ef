import Lz4Frame.Bytes

/-! Numbers and bytes as text: padded columns, hexadecimal and binary digits. -/

namespace Lz4Frame.Text

/-- A text in a column of at least `width` characters, moved to the right. -/
def alignRight (width : Nat) (text : String) : String :=
  String.ofList (text.toList.leftpad width ' ')

/-- A text in a column of at least `width` characters, moved to the left. -/
def alignLeft (width : Nat) (text : String) : String :=
  String.ofList (text.toList.rightpad width ' ')

/-- The digits of `n` in `base`, with zeros in front up to `width` digits. -/
def digits (base width n : Nat) : String :=
  String.ofList ((Nat.toDigits base n).leftpad width '0')

/-- Hexadecimal digits in capitals, at least `width` of them. -/
def hex (width n : Nat) : String := (digits 16 width n).map Char.toUpper

/-- Binary digits, at least `width` of them. -/
def binary (width n : Nat) : String := digits 2 width n

/-- A word as eight hexadecimal digits. -/
def hexWord (word : UInt32) : String := hex 8 word.toNat

/-- A byte as two hexadecimal digits. -/
def hexByte (byte : UInt8) : String := hex 2 byte.toNat

/-- Two small hexadecimal digits for every byte. -/
def hexBytes (data : Bytes) : String :=
  data.foldl (fun text byte => text ++ digits 16 2 byte.toNat) ""

end Lz4Frame.Text
