import Lz4Frame.Bytes
import Lz4Frame.Error

/-! A seekable source of bytes and how it behaves when it is not well-behaved. Reads may give fewer
bytes than asked for, may be interrupted and may fail from some position on; a seek may fail, and
the source may be wrong about its own size. A source in memory does none of this.

`readExact` hides short reads and interruptions from the readers above it. An error leaves the
source where the last good read left it. -/

namespace Lz4Frame

/-- Bytes, a position among them and the faults to come. -/
structure Source where
  data : Bytes
  position : Nat := 0
  /-- The most bytes that a read at a position gives, where that is limited. -/
  limit : Nat → Option Nat := fun _ => none
  /-- The first read at or after this position is interrupted, once. -/
  interruptAt : Option Nat := none
  /-- Reads at or after this position fail, and reads before it stop there. -/
  failFrom : Option Nat := none
  /-- The number of seeks that still succeed before one fails. -/
  seeksLeft : Option Nat := none
  /-- What a failing read or seek reports. -/
  error : IoError := .other
  /-- The size that the source claims, if not its own. -/
  claimedSize : Option Nat := none

/-- A computation on a source. It keeps the source also when it fails. -/
abbrev Reading (ε α : Type) := EStateM ε Source α

namespace Reading

variable {ε α β : Type}

theorem bind_eq_ok {x : Reading ε α} {f : α → Reading ε β} {source source' : Source} {b : β} :
    (x >>= f) source = .ok b source' ↔
      ∃ a next, x source = .ok a next ∧ f a next = .ok b source' := by
  show EStateM.bind x f source = _ ↔ _
  unfold EStateM.bind
  cases h : x source with
  | error => simp
  | ok a next =>
    refine ⟨fun h' => ⟨a, next, rfl, h'⟩, ?_⟩
    rintro ⟨_, _, heq, h'⟩
    cases heq
    exact h'

theorem pure_eq_ok {a b : α} {source source' : Source} :
    (pure a : Reading ε α) source = .ok b source' ↔ a = b ∧ source = source' := by
  show EStateM.Result.ok a source = _ ↔ _
  simp

theorem throw_ne_ok {error : ε} {a : α} {source source' : Source} :
    (throw error : Reading ε α) source ≠ .ok a source' := nofun

end Reading

namespace Source

/-- The size that a seek to the end finds. -/
def size (source : Source) : Nat := source.claimedSize.getD source.data.size

/-- How many of `count` bytes one read is allowed to give. -/
def allowance (source : Source) (count : Nat) : Nat :=
  let count := match source.limit source.position with
    | none => count
    | some most => min count most
  match source.failFrom with
  | none => count
  | some stop => min count (stop - source.position)

/-- One read of at most `count` bytes. At the end of the data it gives none. -/
def read (count : Nat) : Reading IoError (List UInt8) := fun source =>
  if source.interruptAt.any (· ≤ source.position) then
    .error .interrupted { source with interruptAt := none }
  else if source.failFrom.any (· ≤ source.position) then
    .error source.error source
  else
    let bytes := source.data.extract source.position (source.position + source.allowance count)
    .ok bytes.toList { source with position := source.position + bytes.size }

/-- One read, tried again if it is interrupted. -/
def readUninterrupted (count : Nat) : Reading IoError (List UInt8) := fun source =>
  match read count source with
  | .error .interrupted source => read count source
  | result => result

/-- Exactly `count` bytes, by as many reads as that takes. -/
def readExact (count : Nat) : Reading IoError (List UInt8) := fun source =>
  match count with
  | 0 => .ok [] source
  | count + 1 =>
    match readUninterrupted (count + 1) source with
    | .error error source => .error error source
    | .ok [] source => .error .unexpectedEof source
    | .ok (byte :: bytes) source =>
      match readExact (count - bytes.length) source with
      | .error error source => .error error source
      | .ok rest source => .ok (byte :: bytes ++ rest) source
termination_by count

/-- One seek. `target` is the position that it goes to. -/
def seek (target : Source → Nat) : Reading IoError Nat := fun source =>
  match source.seeksLeft with
  | some 0 => .error source.error { source with seeksLeft := none }
  | left =>
    .ok (target source) { source with position := target source, seeksLeft := left.map (· - 1) }

/-- The position, found by a seek that stays where it is. -/
def tell : Reading IoError Nat := seek Source.position

def seekToEnd : Reading IoError Nat := seek Source.size

def seekTo (position : Nat) : Reading IoError Nat := seek fun _ => position

end Source

end Lz4Frame
