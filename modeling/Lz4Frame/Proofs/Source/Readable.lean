import Lz4Frame.Proofs.Source

/-! Sources that give their data in pieces. An exact read takes several reads for that, but as far as
there is no fault, it ends as it does in memory, `Readable.readExact_endsLike`. If it needs a byte
that cannot be read, it says so. -/

namespace Lz4Frame.Source

open Block.Sequence (splitExact?)

/-- A source that gives its data without a fault. Reads may give less than asked for, if not nothing,
and one of them may be interrupted. -/
structure Honest (source : Source) : Prop where
  claimedSize : source.claimedSize = none
  failFrom : source.failFrom = none
  seeksLeft : source.seeksLeft = none
  limit : ∀ position, source.limit position ≠ some 0

/-- A source that is honest but for a fault within its data, if there is one. What it reports there
is neither an interruption nor the end of the data. -/
structure Readable (source : Source) : Prop where
  claimedSize : source.claimedSize = none
  seeksLeft : source.seeksLeft = none
  limit : ∀ position, source.limit position ≠ some 0
  failFrom : ∀ stop, source.failFrom = some stop →
    stop ≤ source.data.size ∧ source.error ≠ .interrupted ∧ source.error ≠ .unexpectedEof

theorem Honest.readable {source : Source} (h : source.Honest) : source.Readable where
  claimedSize := h.claimedSize
  seeksLeft := h.seeksLeft
  limit := h.limit
  failFrom := by
    rw [h.failFrom]
    rintro _ ⟨⟩

theorem honest_memory (data : Bytes) (position : ℕ) : (memory data position).Honest where
  claimedSize := rfl
  failFrom := rfl
  seeksLeft := rfl
  limit _ := by
    rintro ⟨⟩

/-- Some byte before `stop` cannot be read. -/
def failsBefore (source : Source) (stop : ℕ) : Bool := source.failFrom.any (· < stop)

section Fails

variable {source : Source} {stop : ℕ}

theorem failsBefore_eq_false_iff :
    source.failsBefore stop = false ↔ ∀ fault, source.failFrom = some fault → stop ≤ fault := by
  unfold failsBefore
  cases source.failFrom <;> simp

theorem failsBefore_eq_true_iff :
    source.failsBefore stop = true ↔ ∃ fault, source.failFrom = some fault ∧ fault < stop := by
  unfold failsBefore
  cases source.failFrom <;> simp

theorem failsBefore_of_le {stop' : ℕ} (hle : stop ≤ stop')
    (hfails : source.failsBefore stop' = false) : source.failsBefore stop = false := by
  rw [failsBefore_eq_false_iff] at *
  exact fun fault hfault => Nat.le_trans hle (hfails fault hfault)

theorem Honest.failsBefore (h : source.Honest) : source.failsBefore stop = false := by
  rw [failsBefore_eq_false_iff, h.failFrom]
  rintro _ ⟨⟩

end Fails

/-- A source after some reads or seeks without a fault: it is somewhere else, and an interruption may
be over. -/
def MovedTo (source : Source) (position : ℕ) (moved : Source) : Prop :=
  ∃ interruptAt, moved = { source with position, interruptAt }

namespace MovedTo

variable {source moved : Source} {stop : ℕ}

theorem refl (source : Source) : source.MovedTo source.position source :=
  ⟨source.interruptAt, rfl⟩

theorem trans {next last : Source} {stop' : ℕ} (h : source.MovedTo stop next)
    (h' : next.MovedTo stop' last) : source.MovedTo stop' last := by
  obtain ⟨_, rfl⟩ := h
  obtain ⟨interruptAt, rfl⟩ := h'
  exact ⟨interruptAt, rfl⟩

theorem data (h : source.MovedTo stop moved) : moved.data = source.data := by
  obtain ⟨_, rfl⟩ := h
  rfl

theorem position (h : source.MovedTo stop moved) : moved.position = stop := by
  obtain ⟨_, rfl⟩ := h
  rfl

theorem error (h : source.MovedTo stop moved) : moved.error = source.error := by
  obtain ⟨_, rfl⟩ := h
  rfl

theorem failsBefore (h : source.MovedTo stop moved) :
    moved.failsBefore = source.failsBefore := by
  obtain ⟨_, rfl⟩ := h
  rfl

end MovedTo

section Moved

variable {source moved : Source} {position : ℕ}

theorem Honest.of_movedTo (hsource : source.Honest) (h : source.MovedTo position moved) :
    moved.Honest := by
  obtain ⟨_, rfl⟩ := h
  exact ⟨hsource.claimedSize, hsource.failFrom, hsource.seeksLeft, hsource.limit⟩

theorem Readable.of_movedTo (hsource : source.Readable) (h : source.MovedTo position moved) :
    moved.Readable := by
  obtain ⟨_, rfl⟩ := h
  exact ⟨hsource.claimedSize, hsource.seeksLeft, hsource.limit, hsource.failFrom⟩

end Moved

/-! ### Reads -/

/-- A read is allowed to give some bytes where the next byte can be read, and none that cannot. -/
theorem Readable.allowance_pos {source : Source} (hsource : source.Readable)
    (hfails : source.failsBefore (source.position + 1) = false) (count : ℕ) :
    0 < source.allowance (count + 1) ∧ source.allowance (count + 1) ≤ count + 1 ∧
      source.failsBefore (source.position + source.allowance (count + 1)) = false := by
  have hlimit := hsource.limit source.position
  rw [failsBefore_eq_false_iff] at hfails ⊢
  unfold allowance
  cases hmost : source.limit source.position <;> cases hfault : source.failFrom
  all_goals
    simp only [hmost, hfault, Option.some.injEq, ne_eq, forall_eq', reduceCtorEq,
      not_false_eq_true, IsEmpty.forall_iff, implies_true, and_true] at *
    omega

/-- A read that is not interrupted. -/
theorem read_eq {source : Source} (hinterrupt : source.interruptAt.any (· ≤ source.position) = false)
    (hfails : source.failsBefore (source.position + 1) = false) (count : ℕ) :
    let given := min (source.allowance count) (source.data.size - source.position)
    read count source = .ok ((source.data.toList.drop source.position).take given)
      { source with position := source.position + given } := by
  intro given
  have hfault : source.failFrom.any (· ≤ source.position) = false := by
    simpa only [failsBefore, Nat.lt_succ_iff] using hfails
  have hgiven : (source.data.extract source.position
      (source.position + source.allowance count)).size = given := by
    simp only [given, Array.size_extract]
    omega
  have hbytes : (source.data.extract source.position
      (source.position + source.allowance count)).toList =
        (source.data.toList.drop source.position).take given := by
    rw [Array.toList_extract, List.extract_eq_take_drop, Nat.add_sub_cancel_left,
      List.take_eq_take_min]
    simp [given]
  simp only [read, hinterrupt, hfault, Bool.false_eq_true, if_false, hgiven, hbytes]

theorem read_of_fails {source : Source}
    (hinterrupt : source.interruptAt.any (· ≤ source.position) = false)
    (hfails : source.failsBefore (source.position + 1) = true) (count : ℕ) :
    read count source = .error source.error source := by
  have hfault : source.failFrom.any (· ≤ source.position) = true := by
    simpa only [failsBefore, Nat.lt_succ_iff] using hfails
  simp only [read, hinterrupt, hfault, Bool.false_eq_true, if_false, if_true]

/-- The second try is not interrupted any more. -/
theorem Readable.readUninterrupted_eq_read {source : Source} (hsource : source.Readable)
    (count : ℕ) :
    ∃ calm, source.MovedTo source.position calm ∧
      calm.interruptAt.any (· ≤ calm.position) = false ∧
      readUninterrupted count source = read count calm := by
  rcases hinterrupt : source.interruptAt.any (· ≤ source.position) with _ | _
  · refine ⟨source, .refl source, hinterrupt, ?_⟩
    rcases hfails : source.failsBefore (source.position + 1) with _ | _
    · rw [readUninterrupted, read_eq hinterrupt hfails]
    · have hne : source.error ≠ .interrupted := by
        obtain ⟨fault, hfault, -⟩ := failsBefore_eq_true_iff.1 hfails
        exact (hsource.failFrom fault hfault).2.1
      rw [readUninterrupted, read_of_fails hinterrupt hfails]
      split
      next heq => exact absurd (EStateM.Result.error.inj heq).1 hne
      next => rfl
  · refine ⟨{ source with interruptAt := none }, ⟨none, rfl⟩, rfl, ?_⟩
    have hfirst : read count source = .error .interrupted { source with interruptAt := none } := by
      simp only [read, hinterrupt, if_true]
    rw [readUninterrupted, hfirst]

/-- Where the next byte can be read, a read gives some of the bytes asked for, or none at the end of
the data. -/
theorem Readable.readUninterrupted_eq {source : Source} (hsource : source.Readable)
    (hfails : source.failsBefore (source.position + 1) = false) (count : ℕ) :
    ∃ given moved, readUninterrupted (count + 1) source =
        .ok ((source.data.toList.drop source.position).take given) moved ∧
      given ≤ count + 1 ∧ given ≤ source.data.size - source.position ∧
      (source.position < source.data.size → 0 < given) ∧
      source.failsBefore (source.position + given) = false ∧
      source.MovedTo (source.position + given) moved := by
  obtain ⟨calm, ⟨interruptAt, rfl⟩, hinterrupt, hread⟩ :=
    hsource.readUninterrupted_eq_read (count + 1)
  obtain ⟨hpos, hle, hbefore⟩ := (hsource.of_movedTo ⟨interruptAt, rfl⟩).allowance_pos hfails count
  rw [read_eq hinterrupt hfails] at hread
  refine ⟨_, _, hread, Nat.le_trans (Nat.min_le_left _ _) hle, Nat.min_le_right _ _, fun hlt => ?_, ?_,
    interruptAt, rfl⟩
  · exact Nat.lt_min.2 ⟨hpos, Nat.sub_pos_of_lt hlt⟩
  · exact failsBefore_of_le (Nat.add_le_add_left (Nat.min_le_left _ _) _) hbefore

theorem Readable.readUninterrupted_of_fails {source : Source} (hsource : source.Readable)
    (hfails : source.failsBefore (source.position + 1) = true) (count : ℕ) :
    ∃ moved, readUninterrupted count source = .error source.error moved := by
  obtain ⟨calm, ⟨interruptAt, rfl⟩, hinterrupt, hread⟩ :=
    hsource.readUninterrupted_eq_read count
  exact ⟨_, hread.trans (read_of_fails hinterrupt hfails count)⟩

/-! ### Exact reads -/

/-- A read that gives some of the bytes leaves the rest to an exact read. -/
theorem readExact_of_read {source moved : Source} {count given : ℕ}
    (hread : readUninterrupted (count + 1) source =
      .ok ((source.data.toList.drop source.position).take given) moved)
    (hpos : 0 < given) (hle : given ≤ source.data.size - source.position) :
    readExact (count + 1) source =
      match readExact (count + 1 - given) moved with
      | .error error next => .error error next
      | .ok rest next => .ok ((source.data.toList.drop source.position).take given ++ rest) next := by
  have hlen : ((source.data.toList.drop source.position).take given).length = given := by
    simp only [List.length_take, List.length_drop, Array.length_toList]
    omega
  rw [readExact, hread]
  rcases hbytes : (source.data.toList.drop source.position).take given with _ | ⟨byte, bytes⟩
  · rw [hbytes, List.length_nil] at hlen
    omega
  · rw [hbytes, List.length_cons] at hlen
    have hrest : count - bytes.length = count + 1 - given := by omega
    cases hlast : readExact (count + 1 - given) moved with
    | ok rest next => simp only [hrest, hlast]
    | error error next => simp only [hrest, hlast]

section Exact

variable {source : Source} (hsource : source.Readable) {count : ℕ}
include hsource

/-- An exact read that needs a byte that cannot be read says so. -/
theorem Readable.readExact_of_fails (hpos : 0 < count)
    (hfails : source.failsBefore (source.position + count) = true) :
    ∃ moved, readExact count source = .error source.error moved := by
  induction count using Nat.strongRecOn generalizing source with
  | ind count ih =>
  cases count with
  | zero => cases hpos
  | succ count =>
  by_cases hfirst : source.failsBefore (source.position + 1) = true
  · obtain ⟨moved, hread⟩ := hsource.readUninterrupted_of_fails hfirst (count + 1)
    exact ⟨moved, by rw [readExact, hread]⟩
  · rw [Bool.not_eq_true] at hfirst
    obtain ⟨given, moved, hread, hle, hend, hgiven, hbefore, hmoved⟩ :=
      hsource.readUninterrupted_eq hfirst count
    -- the fault is behind what was given, and before what was asked for
    obtain ⟨fault, hfault, hlt⟩ := failsBefore_eq_true_iff.1 hfails
    have hbehind := failsBefore_eq_false_iff.1 hfirst fault hfault
    have hbehind' := failsBefore_eq_false_iff.1 hbefore fault hfault
    have hwithin := (hsource.failFrom fault hfault).1
    have hsome := hgiven (by omega)
    obtain ⟨last, hrest⟩ := ih (count + 1 - given) (by omega) (hsource.of_movedTo hmoved) (by omega)
      (by
        have hstop : source.position + given + (count + 1 - given) =
            source.position + (count + 1) := by omega
        rw [hmoved.failsBefore, hmoved.position, hstop, hfails])
    refine ⟨last, ?_⟩
    rw [readExact_of_read hread hsome hend, hrest, hmoved.error]

/-- An exact read within the data gives the bytes that are there, however many reads it takes. -/
theorem Readable.readExact_eq (h : source.position + count ≤ source.data.size)
    (hfails : source.failsBefore (source.position + count) = false) :
    ∃ moved, readExact count source =
        .ok ((source.data.toList.drop source.position).take count) moved ∧
      source.MovedTo (source.position + count) moved := by
  induction count using Nat.strongRecOn generalizing source with
  | ind count ih =>
  cases count with
  | zero => exact ⟨source, by simp [readExact], .refl source⟩
  | succ count =>
  obtain ⟨given, moved, hread, hle, hend, hgiven, -, hmoved⟩ :=
    hsource.readUninterrupted_eq (failsBefore_of_le (by omega) hfails) count
  have hsome := hgiven (by omega)
  have hstop : source.position + given + (count + 1 - given) = source.position + (count + 1) := by
    omega
  obtain ⟨last, hrest, hlast⟩ := ih (count + 1 - given) (by omega) (hsource.of_movedTo hmoved)
    (by rw [hmoved.data, hmoved.position]; omega)
    (by rw [hmoved.failsBefore, hmoved.position, hstop, hfails])
  rw [hmoved.position, hstop] at hlast
  refine ⟨last, ?_, hmoved.trans hlast⟩
  have hcount : count + 1 = given + (count + 1 - given) := by omega
  rw [readExact_of_read hread hsome hend, hrest, hmoved.data, hmoved.position, ← List.drop_drop]
  conv_rhs => rw [hcount, List.take_add]

/-- An exact read of more bytes than there are takes all of them. -/
theorem Readable.readExact_of_size_lt (hpos : 0 < count)
    (h : source.data.size < source.position + count)
    (hfails : source.failsBefore (source.position + count) = false) :
    ∃ moved, readExact count source = .error .unexpectedEof moved ∧
      source.MovedTo (max source.position source.data.size) moved := by
  induction count using Nat.strongRecOn generalizing source with
  | ind count ih =>
  cases count with
  | zero => cases hpos
  | succ count =>
  obtain ⟨given, moved, hread, hle, hend, hgiven, -, hmoved⟩ :=
    hsource.readUninterrupted_eq (failsBefore_of_le (by omega) hfails) count
  by_cases hrest : source.position < source.data.size
  · have hsome := hgiven hrest
    have hstop : source.position + given + (count + 1 - given) = source.position + (count + 1) := by
      omega
    obtain ⟨last, hread', hlast⟩ := ih (count + 1 - given) (by omega) (hsource.of_movedTo hmoved)
      (by omega) (by rw [hmoved.data, hmoved.position]; omega)
      (by rw [hmoved.failsBefore, hmoved.position, hstop, hfails])
    have hmax : max (source.position + given) source.data.size =
        max source.position source.data.size := by omega
    rw [hmoved.data, hmoved.position, hmax] at hlast
    refine ⟨last, ?_, hmoved.trans hlast⟩
    rw [readExact_of_read hread hsome hend, hread']
  · have hnone : given = 0 := by omega
    subst hnone
    refine ⟨moved, ?_, ?_⟩
    · rw [readExact, hread]
      rfl
    · rw [Nat.max_eq_left (Nat.not_lt.1 hrest)]
      exact hmoved

end Exact

/-- `x` ends in the same way on `source` as on its data in memory: with the same answer, at the same
position. The results are those in memory and on `source`. -/
inductive EndsLike {ε α : Type} (source : Source) :
    EStateM.Result ε Source α → EStateM.Result ε Source α → Prop
  | ok (a : α) {stop : ℕ} {moved : Source} (hmoved : source.MovedTo stop moved) :
    EndsLike source (.ok a (memory source.data stop)) (.ok a moved)
  | error (error : ε) {stop : ℕ} {moved : Source} (hmoved : source.MovedTo stop moved) :
    EndsLike source (.error error (memory source.data stop)) (.error error moved)

/-- An exact read whose bytes can be read is as in memory. -/
theorem Readable.readExact_endsLike {source : Source} (hsource : source.Readable) {count : ℕ}
    (hpos : 0 < count) (hfails : source.failsBefore (source.position + count) = false) :
    source.EndsLike (readExact count (memory source.data source.position))
      (readExact count source) := by
  by_cases h : source.position + count ≤ source.data.size
  · obtain ⟨moved, hread, hmoved⟩ := hsource.readExact_eq h hfails
    have hlength : ((source.data.toList.drop source.position).take count).length = count := by
      simp only [List.length_take, List.length_drop, Array.length_toList]
      omega
    rw [hread, readExact_memory_eq_ok_iff.2 ⟨hlength, List.take_prefix _ _, rfl⟩]
    exact .ok _ hmoved
  · rw [Nat.not_le] at h
    obtain ⟨moved, hread, hmoved⟩ := hsource.readExact_of_size_lt hpos h hfails
    have hnone : splitExact? count (source.data.toList.drop source.position) = none := by
      rw [Block.Sequence.splitExact?_eq_none_iff, List.length_drop, Array.length_toList]
      omega
    rw [hread, readExact_memory, hnone]
    exact .error _ hmoved

theorem Honest.readExact_eq {source : Source} (hsource : source.Honest) {count : ℕ}
    (h : source.position + count ≤ source.data.size) :
    ∃ moved, readExact count source =
        .ok ((source.data.toList.drop source.position).take count) moved ∧
      source.MovedTo (source.position + count) moved :=
  hsource.readable.readExact_eq h hsource.failsBefore

/-! ### Seeks -/

theorem Readable.seek_eq {source : Source} (hsource : source.Readable) (target : Source → ℕ) :
    ∃ moved, seek target source = .ok (target source) moved ∧
      source.MovedTo (target source) moved := by
  refine ⟨{ source with position := target source }, ?_, source.interruptAt, rfl⟩
  rcases source with ⟨data, position, limit, interruptAt, failFrom, seeksLeft, error, claimedSize⟩
  obtain rfl : seeksLeft = none := hsource.seeksLeft
  rfl

theorem Honest.seek_eq {source : Source} (hsource : source.Honest) (target : Source → ℕ) :
    ∃ moved, seek target source = .ok (target source) moved ∧
      source.MovedTo (target source) moved := hsource.readable.seek_eq target

end Lz4Frame.Source
