/-! Byte strings at rest, and the two views of them the rest of the library uses. Inputs, block
outputs, histories and dictionaries are arrays, because matches and block bodies are found by
position. The short fields of a header are lists, because they are read front to back. -/

namespace Lz4Frame

/-- A byte string. -/
abbrev Bytes := Array UInt8

namespace Bytes

/-- The `count` bytes from `start` on, if all of them are there. -/
def slice? (data : Bytes) (start count : Nat) : Option Bytes :=
  if start + count ≤ data.size then some (data.extract start (start + count)) else none

/-- At most `count` bytes from `start` on. -/
def sample (data : Bytes) (start count : Nat) : Bytes :=
  data.extract start (start + count)

/-- The last `count` bytes, or all of them if there are fewer. -/
def tail (data : Bytes) (count : Nat) : Bytes :=
  data.extract (data.size - count) data.size

theorem slice?_eq_some_iff {data part : Bytes} {start count : Nat} :
    data.slice? start count = some part ↔
      start + count ≤ data.size ∧ data.extract start (start + count) = part := by
  simp [slice?]

theorem size_of_slice? {data part : Bytes} {start count : Nat}
    (h : data.slice? start count = some part) : part.size = count := by
  obtain ⟨hle, rfl⟩ := slice?_eq_some_iff.1 h
  simp
  omega

theorem size_tail (data : Bytes) (count : Nat) : (data.tail count).size = min count data.size := by
  simp [tail]
  omega

theorem size_tail_le (data : Bytes) (count : Nat) : (data.tail count).size ≤ count := by
  rw [size_tail]
  exact Nat.min_le_left _ _

theorem tail_of_size_le {data : Bytes} {count : Nat} (h : data.size ≤ count) :
    data.tail count = data := by
  simp [tail, Nat.sub_eq_zero_of_le h]

end Bytes

end Lz4Frame
