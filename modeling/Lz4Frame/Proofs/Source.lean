import Mathlib.Data.List.Basic
import Lz4Frame.Block.Sequence
import Lz4Frame.Source

/-! Sources in memory. A read that asks for as many bytes as are left gives them and moves on, and
one that asks for more runs into the end. Nothing else can happen. -/

namespace Lz4Frame

namespace Bytes

/-- The bytes of `part` lie in `data` from `position` on. -/
def HasAt (data : Bytes) (position : ℕ) (part : List UInt8) : Prop :=
  part <+: data.toList.drop position

theorem hasAt_nil (data : Bytes) (position : ℕ) : data.HasAt position [] := List.nil_prefix

/-- Two parts lie behind each other. -/
theorem hasAt_append {data : Bytes} {position : ℕ} {left right : List UInt8} :
    data.HasAt position (left ++ right) ↔
      data.HasAt position left ∧ data.HasAt (position + left.length) right := by
  unfold HasAt
  constructor
  · rintro ⟨rest, hrest⟩
    rw [List.append_assoc] at hrest
    refine ⟨⟨_, hrest⟩, ⟨rest, ?_⟩⟩
    rw [← List.drop_drop, ← hrest, List.drop_left]
  · rintro ⟨⟨rest, hrest⟩, ⟨rest', hrest'⟩⟩
    rw [← List.drop_drop, ← hrest, List.drop_left] at hrest'
    exact ⟨rest', by rw [List.append_assoc, hrest', hrest]⟩

theorem HasAt.append {data : Bytes} {position : ℕ} {part : List UInt8}
    (h : data.HasAt position part) (more : Bytes) : (data ++ more).HasAt position part := by
  unfold HasAt at *
  rw [Array.toList_append, List.drop_append]
  exact h.trans (List.prefix_append _ _)

end Bytes

namespace Reading

variable {ε ε' α β : Type}

theorem map_eq_ok {x : Reading ε α} {f : α → β} {source source' : Source} {b : β} :
    (f <$> x) source = .ok b source' ↔ ∃ a, x source = .ok a source' ∧ f a = b := by
  show EStateM.map f x source = _ ↔ _
  unfold EStateM.map
  cases x source with
  | error => simp
  | ok a next => simp [and_comm]

theorem adaptExcept_eq_ok {x : Reading ε α} {f : ε → ε'} {source source' : Source} {a : α} :
    x.adaptExcept f source = .ok a source' ↔ x source = .ok a source' := by
  unfold EStateM.adaptExcept
  cases x source <;> simp

theorem bind_of_ok {x : Reading ε α} {f : α → Reading ε β} {source source' : Source} {a : α}
    (h : x source = .ok a source') : (x >>= f) source = f a source' := by
  show EStateM.bind x f source = _
  rw [EStateM.bind, h]

theorem bind_of_error {x : Reading ε α} {f : α → Reading ε β} {source source' : Source}
    {error : ε} (h : x source = .error error source') :
    (x >>= f) source = .error error source' := by
  show EStateM.bind x f source = _
  rw [EStateM.bind, h]

/-! ### Errors -/

theorem throw_eq_error {error error' : ε} {source source' : Source} :
    (throw error : Reading ε α) source = .error error' source' ↔
      error = error' ∧ source = source' := by
  show EStateM.Result.error error source = _ ↔ _
  simp

theorem bind_eq_error {x : Reading ε α} {f : α → Reading ε β} {source source' : Source}
    {error : ε} :
    (x >>= f) source = .error error source' ↔
      x source = .error error source' ∨
        ∃ a next, x source = .ok a next ∧ f a next = .error error source' := by
  show EStateM.bind x f source = _ ↔ _
  unfold EStateM.bind
  cases x source <;> simp

theorem map_eq_error {x : Reading ε α} {f : α → β} {source source' : Source} {error : ε} :
    (f <$> x) source = .error error source' ↔ x source = .error error source' := by
  show EStateM.map f x source = _ ↔ _
  unfold EStateM.map
  cases x source <;> simp

theorem adaptExcept_eq_error {x : Reading ε α} {f : ε → ε'} {source source' : Source}
    {error : ε'} :
    x.adaptExcept f source = .error error source' ↔
      ∃ error', x source = .error error' source' ∧ f error' = error := by
  unfold EStateM.adaptExcept
  cases x source <;> simp [and_comm]

end Reading

namespace Source

open Block.Sequence (splitExact? splitExact?_eq_some_iff)

/-- The source of `data`, read up to `position`. -/
def memory (data : Bytes) (position : ℕ) : Source := { data, position }

theorem readUninterrupted_memory (data : Bytes) (position count : ℕ) :
    readUninterrupted count (memory data position) =
      .ok ((data.toList.drop position).take count)
        (memory data (position + min count (data.size - position))) := by
  have hsize : (data.extract position (position + count)).size =
      min count (data.size - position) := by
    simp only [Array.size_extract]
    omega
  simp [readUninterrupted, read, memory, allowance, hsize, List.extract_eq_take_drop]

/-- At the end of the data there is nothing to read. -/
theorem readExact_memory_of_size_le {data : Bytes} {position : ℕ} (count : ℕ)
    (h : data.size ≤ position) :
    readExact (count + 1) (memory data position) =
      .error .unexpectedEof (memory data position) := by
  have hnil : data.toList.drop position = [] := List.drop_eq_nil_of_le (by simpa using h)
  rw [readExact, readUninterrupted_memory, hnil]
  simp [Nat.sub_eq_zero_of_le h]

/-- What an exact read gives, and where it leaves the source. -/
theorem readExact_memory (data : Bytes) (position count : ℕ) :
    readExact count (memory data position) =
      match splitExact? count (data.toList.drop position) with
      | some (front, _) => .ok front (memory data (position + count))
      | none => .error .unexpectedEof (memory data (max position data.size)) := by
  rcases count with _ | count
  · simp [readExact, splitExact?]
  have hlen : (data.toList.drop position).length = data.size - position := by simp
  rw [readExact, readUninterrupted_memory]
  rcases hfront : (data.toList.drop position).take (count + 1) with _ | ⟨byte, bytes⟩
  · have hle : data.size ≤ position := by
      have := congrArg List.length hfront
      simp only [List.length_take, List.length_nil, hlen] at this
      omega
    simp [splitExact?, hfront, Nat.sub_eq_zero_of_le hle, Nat.max_eq_left hle]
  · have hbytes : bytes.length + 1 = min (count + 1) (data.size - position) := by
      have := congrArg List.length hfront
      simpa [hlen] using this.symm
    by_cases henough : count + 1 ≤ data.size - position
    · have hcount : bytes.length = count := by omega
      simp [splitExact?, hfront, hcount, henough, readExact]
    · -- the first read stops at the end of the data, where the second one fails
      obtain ⟨more, hmore⟩ : ∃ more, count - bytes.length = more + 1 :=
        ⟨count - bytes.length - 1, by omega⟩
      have hend : position + min (count + 1) (data.size - position) = data.size := by omega
      have hmax : max position data.size = data.size := by omega
      simp only [hend, hmore, readExact_memory_of_size_le more (Nat.le_refl data.size)]
      have hne : bytes.length ≠ count := by omega
      simp [splitExact?, hfront, hmax, hne]

/-- An exact read that starts within the data and asks for more than is left takes all of it. -/
theorem readExact_memory_of_size_lt {data : Bytes} {position count : ℕ} (hle : position ≤ data.size)
    (hlt : data.size < position + count) :
    readExact count (memory data position) = .error .unexpectedEof (memory data data.size) := by
  have hnone : splitExact? count (data.toList.drop position) = none := by
    rw [Block.Sequence.splitExact?_eq_none_iff, List.length_drop, Array.length_toList]
    omega
  rw [readExact_memory, hnone, Nat.max_eq_right hle]

/-- The one thing that can be wrong is that the data ends. -/
theorem eq_unexpectedEof_of_readExact_memory {data : Bytes} {position count : ℕ} {error : IoError}
    {source : Source} (h : readExact count (memory data position) = .error error source) :
    error = .unexpectedEof := by
  rw [readExact_memory] at h
  split at h
  · cases h
  · cases h
    rfl

theorem readExact_memory_eq_ok_iff {data : Bytes} {position count : ℕ} {bytes : List UInt8}
    {source : Source} :
    readExact count (memory data position) = .ok bytes source ↔
      bytes.length = count ∧ data.HasAt position bytes ∧
        source = memory data (position + count) := by
  rw [readExact_memory]
  constructor
  · intro h
    split at h
    next front rest hsplit =>
      obtain ⟨hrest, hcount⟩ := splitExact?_eq_some_iff.1 hsplit
      cases h
      exact ⟨hcount, ⟨rest, hrest.symm⟩, rfl⟩
    next => cases h
  · rintro ⟨hcount, ⟨rest, hrest⟩, rfl⟩
    rw [splitExact?_eq_some_iff.2 ⟨hrest.symm, hcount⟩]

end Source

end Lz4Frame
