import Lz4Frame.Proofs.Scan.Calls
import Lz4Frame.Proofs.Source.Script

/-! The fields that a scanner asks its source for: size words and checksums, never a body. A scanner
on a source that can be read follows the one on the same data in memory, `Scanner.Follows`, call by
call, as long as the fields that this one asks for can be read. -/

namespace Lz4Frame.Scanner

open Reading (Script)
open Source (memory)

/-! ### Scripts -/

def readWordScript (offset : ℕ) : Script .io (readWord offset) :=
  .map _ (.field offset _ _ fun _ _ => rfl)

def readBlockChecksumScript (descriptor : Descriptor) (inputSize index bodyEnd : ℕ) :
    Script .io (readBlockChecksum descriptor inputSize index bodyEnd) :=
  .ite (.ite (.throw _) (.map _ (readWordScript bodyEnd))) (.pure none)

def readBlockScript (descriptor : Descriptor) (inputSize index offset : ℕ) :
    Script .io (readBlock descriptor inputSize index offset) :=
  .ite (.throw _) <|
    .bind (readWordScript offset) fun _ =>
      .ite (.pure none) <|
        .ite (.throw _) <|
          .bind (.seekTo _ _) fun _ =>
            .bind (readBlockChecksumScript descriptor inputSize index _) fun _ =>
              .pure _

variable {data : Bytes}

theorem readWordScript_counts (offset : ℕ) :
    (readWordScript offset).Counts data offset fun _ => offset + Format.wordSize :=
  .map .field

theorem readBlockChecksumScript_counts (descriptor : Descriptor) (inputSize index bodyEnd : ℕ) :
    (readBlockChecksumScript descriptor inputSize index bodyEnd).Counts data bodyEnd
      fun checksum => bodyEnd + if checksum.isSome then 4 else 0 :=
  .ite (.ite (.throw _) (.map (readWordScript_counts bodyEnd))) (.pure rfl)

/-- The next field is behind the end mark or behind the block. -/
theorem readBlockScript_counts (descriptor : Descriptor) (inputSize index offset : ℕ) :
    (readBlockScript descriptor inputSize index offset).Counts data offset
      fun found => found.elim (offset + Format.wordSize) Block.endOffset := by
  refine .ite (.throw _) (.bind (readWordScript_counts offset) fun word => ?_)
  refine .ite (.pure rfl) (.ite (.throw _) (.bind (.seekTo _ _) fun _ => ?_))
  exact .bind (readBlockChecksumScript_counts ..) fun checksum => .pure rfl

/-! ### Calls -/

/-- The fields that a call asks for. -/
def asked (scanner : Scanner) : Call → List Field
  | .next =>
    if scanner.state = .scanning then
      (readBlockScript scanner.descriptor scanner.inputSize scanner.found scanner.offset).fields
        scanner.source
    else
      []
  | .contentChecksum =>
    if scanner.descriptor.hasContentChecksum && scanner.endMark?.isSome then
      if scanner.inputSize < scanner.offset + Format.wordSize then
        []
      else
        (readWordScript scanner.offset).fields scanner.source
    else
      []

/-- The fields that some calls ask for, one after the other. -/
def askedAll (scanner : Scanner) : List Call → List Field
  | [] => []
  | call :: calls => scanner.asked call ++ (scanner.call call).2.askedAll calls

theorem run_cons (scanner : Scanner) (call : Call) (calls : List Call) :
    scanner.run (call :: calls) =
      ((scanner.call call).1 :: ((scanner.call call).2.run calls).1,
        ((scanner.call call).2.run calls).2) := rfl

theorem run_append (scanner : Scanner) (calls calls' : List Call) :
    scanner.run (calls ++ calls') =
      ((scanner.run calls).1 ++ ((scanner.run calls).2.run calls').1,
        ((scanner.run calls).2.run calls').2) := by
  induction calls generalizing scanner with
  | nil => rfl
  | cons call calls ih =>
    rw [List.cons_append, run_cons, run_cons, ih]
    rfl

theorem askedAll_append (scanner : Scanner) (calls calls' : List Call) :
    scanner.askedAll (calls ++ calls') =
      scanner.askedAll calls ++ (scanner.run calls).2.askedAll calls' := by
  induction calls generalizing scanner with
  | nil => rfl
  | cons call calls ih =>
    rw [List.cons_append, askedAll, askedAll, ih, List.append_assoc]
    rfl

/-- The answer to a call that cannot be given. -/
def Call.failure (error : ScanError) : Call → Answer
  | .next => .next (some (.error error))
  | .contentChecksum => .contentChecksum (.error error)

/-- A scanner on `data` in memory. Unless it has failed, its source is where the next field starts. -/
structure InMemory (data : Bytes) (scanner : Scanner) : Prop where
  inputSize : scanner.inputSize = data.size
  source : scanner.source = memory data scanner.source.position
  position : scanner.state ≠ .failed → scanner.source.position = scanner.offset

theorem InMemory.eq {scanner : Scanner} (h : scanner.InMemory data)
    (hstate : scanner.state ≠ .failed) : scanner.source = memory data scanner.offset := by
  rw [h.source, h.position hstate]

theorem InMemory.next {scanner : Scanner} (h : scanner.InMemory data) :
    scanner.next.2.InMemory data := by
  by_cases hscanning : scanner.state = .scanning
  · have heq := h.eq (by rw [hscanning]; nofun)
    let script :=
      readBlockScript scanner.descriptor scanner.inputSize scanner.found scanner.offset
    unfold Scanner.next
    simp only [hscanning]
    rw [heq]
    obtain ⟨found, stop, hread⟩ | ⟨error, stop, hread⟩ := script.exists_memory data scanner.offset
    · have hstop := (readBlockScript_counts ..).ok hread
      rw [hread]
      cases found with
      | none => exact ⟨h.inputSize, rfl, fun _ => congrArg Source.position hstop⟩
      | some block => exact ⟨h.inputSize, rfl, fun _ => congrArg Source.position hstop⟩
    · rw [hread]
      exact ⟨h.inputSize, rfl, fun hfailed => absurd rfl hfailed⟩
  · rw [next_of_ne_scanning hscanning]
    exact h

theorem state_ne_failed_of_endMark? {scanner : Scanner} (h : scanner.endMark?.isSome = true) :
    scanner.state ≠ .failed := by
  intro hfailed
  rw [endMark?, hfailed] at h
  cases h

theorem InMemory.readContentChecksum {scanner : Scanner} (h : scanner.InMemory data) :
    scanner.readContentChecksum.2.InMemory data := by
  unfold Scanner.readContentChecksum
  split_ifs with hended hsize
  · exact h
  · have heq := h.eq (state_ne_failed_of_endMark? (Bool.and_eq_true_iff.1 hended).2)
    rw [heq]
    -- the length was compared, so the word is there
    obtain ⟨word, moved, hread, -⟩ := readWord_of_honest
      (Source.honest_memory data scanner.offset) scanner.offset (h.inputSize ▸ Nat.not_lt.1 hsize)
    have hstop := (readWordScript_counts _).ok hread
    rw [hread]
    exact ⟨h.inputSize, by rw [hstop]; rfl, fun _ => congrArg Source.position hstop⟩
  · exact h

theorem InMemory.call {scanner : Scanner} (h : scanner.InMemory data) (call : Call) :
    (scanner.call call).2.InMemory data := by
  cases call with
  | next => exact h.next
  | contentChecksum => exact h.readContentChecksum

theorem InMemory.run {scanner : Scanner} (h : scanner.InMemory data) (calls : List Call) :
    (scanner.run calls).2.InMemory data := by
  induction calls generalizing scanner with
  | nil => exact h
  | cons call calls ih => exact ih (h.call call)

/-! ### Following -/

/-- `scanner` has done on `source` what `reference` has done on the same data in memory. -/
structure Follows (source : Source) (reference scanner : Scanner) : Prop where
  inMemory : reference.InMemory source.data
  same : scanner = { reference with source := scanner.source }
  moved : source.MovedTo reference.source.position scanner.source

section Follows

variable {source : Source} {reference scanner : Scanner}

/-- What a script reads behind the source of `reference`, it reads behind that of `scanner`. -/
theorem Follows.endsLike (h : Follows source reference scanner) (hsource : source.Readable)
    {ε α : Type} {io : ℕ → IoError → ε} {x : Reading ε α} (s : Script io x)
    (hfields : source.firstFault (s.fields reference.source) = none) :
    source.EndsLike (x reference.source) (x scanner.source) := by
  have hend := s.endsLike (hsource.of_movedTo h.moved)
  rw [h.moved.firstFault, h.moved.data, h.moved.position, ← h.inMemory.source] at hend
  exact .of_movedTo h.moved (hend hfields)

theorem Follows.eq_error (h : Follows source reference scanner) (hsource : source.Readable)
    {ε α : Type} {io : ℕ → IoError → ε} {x : Reading ε α} (s : Script io x) (field : Field)
    (hfield : source.firstFault (s.fields reference.source) = some field) :
    ∃ moved, x scanner.source = .error (io field.counted source.error) moved := by
  have hend := s.eq_error (hsource.of_movedTo h.moved) field
  rw [h.moved.firstFault, h.moved.data, h.moved.position, ← h.inMemory.source, h.moved.error] at hend
  exact hend hfield

theorem asked_next_of_scanning (h : scanner.state = .scanning) :
    scanner.asked .next =
      (readBlockScript scanner.descriptor scanner.inputSize scanner.found scanner.offset).fields
        scanner.source := if_pos h

theorem Follows.next (h : Follows source reference scanner) (hsource : source.Readable)
    (hnone : source.firstFault (reference.asked .next) = none) :
    scanner.next.1 = reference.next.1 ∧ Follows source reference.next.2 scanner.next.2 := by
  have hmemory := h.inMemory.next
  by_cases hscanning : reference.state = .scanning
  · rw [asked_next_of_scanning hscanning] at hnone
    have hend := h.endsLike hsource _ hnone
    obtain ⟨-, hsame, -⟩ := h
    generalize scanner.source = current at hsame hend
    subst hsame
    unfold Scanner.next at hmemory ⊢
    simp only [hscanning] at hmemory ⊢
    generalize readBlock _ _ _ _ reference.source = result at hend hmemory ⊢
    generalize readBlock _ _ _ _ current = result' at hend ⊢
    cases hend with
    | ok found hmoved =>
      cases found with
      | none => exact ⟨rfl, hmemory, rfl, hmoved⟩
      | some block => exact ⟨rfl, hmemory, rfl, hmoved⟩
    | error error hmoved => exact ⟨rfl, hmemory, rfl, hmoved⟩
  · have hscanning' : scanner.state ≠ .scanning := by
      rw [h.same]
      exact hscanning
    rw [next_of_ne_scanning hscanning, next_of_ne_scanning hscanning']
    exact ⟨rfl, h⟩

theorem Follows.readContentChecksum (h : Follows source reference scanner)
    (hsource : source.Readable)
    (hnone : source.firstFault (reference.asked .contentChecksum) = none) :
    scanner.readContentChecksum.1 = reference.readContentChecksum.1 ∧
      Follows source reference.readContentChecksum.2 scanner.readContentChecksum.2 := by
  have hmemory := h.inMemory.readContentChecksum
  have hend := h.endsLike hsource (readWordScript reference.offset)
  have hfollows := h
  obtain ⟨-, hsame, -⟩ := h
  generalize scanner.source = current at hsame hend
  subst hsame
  have hmark : endMark? { reference with source := current } = reference.endMark? := rfl
  unfold Scanner.readContentChecksum at hmemory ⊢
  dsimp only [asked] at hmemory hnone ⊢
  rw [hmark]
  split_ifs at hmemory hnone ⊢
  · exact ⟨rfl, hfollows⟩
  · have hend := hend hnone
    generalize readWord _ reference.source = result at hend hmemory ⊢
    generalize readWord _ current = result' at hend ⊢
    cases hend with
    | ok word hmoved => exact ⟨rfl, hmemory, rfl, hmoved⟩
    | error error hmoved => exact ⟨rfl, hmemory, rfl, hmoved⟩
  · exact ⟨rfl, hfollows⟩

theorem Follows.next_of_fault (h : Follows source reference scanner) (hsource : source.Readable)
    (field : Field) (hfield : source.firstFault (reference.asked .next) = some field) :
    scanner.next.1 = some (.error (.io field.counted source.error)) := by
  by_cases hscanning : reference.state = .scanning
  · rw [asked_next_of_scanning hscanning] at hfield
    obtain ⟨moved, hread⟩ := h.eq_error hsource _ field hfield
    obtain ⟨-, hsame, -⟩ := h
    generalize scanner.source = current at hsame hread
    subst hsame
    unfold Scanner.next
    simp only [hscanning, hread]
  · rw [asked, if_neg hscanning] at hfield
    cases hfield

theorem Follows.readContentChecksum_of_fault (h : Follows source reference scanner)
    (hsource : source.Readable) (field : Field)
    (hfield : source.firstFault (reference.asked .contentChecksum) = some field) :
    scanner.readContentChecksum.1 = .error (.io field.counted source.error) := by
  have herror := h.eq_error hsource (readWordScript reference.offset) field
  obtain ⟨-, hsame, -⟩ := h
  generalize scanner.source = current at hsame herror
  subst hsame
  have hmark : endMark? { reference with source := current } = reference.endMark? := rfl
  unfold Scanner.readContentChecksum
  dsimp only [asked] at hfield ⊢
  rw [hmark]
  split_ifs at hfield ⊢
  · cases hfield
  · obtain ⟨moved, hread⟩ := herror hfield
    simp only [hread]
  · cases hfield

theorem InMemory.counted_eq {scanner : Scanner} (h : scanner.InMemory data) {call : Call}
    {field : Field} (hfield : field ∈ scanner.asked call) : field.counted = field.start := by
  cases call with
  | next =>
    by_cases hscanning : scanner.state = .scanning
    · rw [asked_next_of_scanning hscanning, h.eq (by rw [hscanning]; nofun)] at hfield
      exact (readBlockScript_counts ..).fields field hfield
    · rw [asked, if_neg hscanning] at hfield
      cases hfield
  | contentChecksum =>
    unfold asked at hfield
    dsimp only at hfield
    split_ifs at hfield with hended hsize
    · cases hfield
    · rw [h.eq (state_ne_failed_of_endMark? (Bool.and_eq_true_iff.1 hended).2)] at hfield
      exact (readWordScript_counts _).fields field hfield
    · cases hfield

/-! ### Runs -/

theorem Follows.call (h : Follows source reference scanner) (hsource : source.Readable) (call : Call)
    (hnone : source.firstFault (reference.asked call) = none) :
    (scanner.call call).1 = (reference.call call).1 ∧
      Follows source (reference.call call).2 (scanner.call call).2 := by
  cases call with
  | next =>
    obtain ⟨hanswer, hfollows⟩ := h.next hsource hnone
    exact ⟨congrArg Answer.next hanswer, hfollows⟩
  | contentChecksum =>
    obtain ⟨hanswer, hfollows⟩ := h.readContentChecksum hsource hnone
    exact ⟨congrArg Answer.contentChecksum hanswer, hfollows⟩

/-- The first field that cannot be read is what a call answers with, where the field starts. -/
theorem Follows.call_of_fault (h : Follows source reference scanner) (hsource : source.Readable)
    {call : Call} {field : Field}
    (hfield : source.firstFault (reference.asked call) = some field) :
    (scanner.call call).1 = call.failure (.io field.start source.error) := by
  rw [← h.inMemory.counted_eq (List.mem_of_find?_eq_some hfield)]
  cases call with
  | next => exact congrArg Answer.next (h.next_of_fault hsource field hfield)
  | contentChecksum =>
    exact congrArg Answer.contentChecksum (h.readContentChecksum_of_fault hsource field hfield)

/-- As long as the fields can be read, it makes no difference which of the scanners is asked. -/
theorem Follows.run (h : Follows source reference scanner) (hsource : source.Readable)
    (calls : List Call) (hnone : source.firstFault (reference.askedAll calls) = none) :
    (scanner.run calls).1 = (reference.run calls).1 ∧
      Follows source (reference.run calls).2 (scanner.run calls).2 := by
  induction calls generalizing reference scanner with
  | nil => exact ⟨rfl, h⟩
  | cons call calls ih =>
    rw [askedAll, Source.firstFault_append, Option.or_eq_none_iff] at hnone
    obtain ⟨hfirst, hrest⟩ := hnone
    obtain ⟨hanswer, hnext⟩ := h.call hsource call hfirst
    obtain ⟨hanswers, hlast⟩ := ih hnext hrest
    exact ⟨List.cons_eq_cons.2 ⟨hanswer, hanswers⟩, hlast⟩

theorem exists_follows_of_start (hsource : source.Readable) (descriptor : Descriptor) :
    ∃ first scanner, start (memory source.data source.position) descriptor = .ok first ∧
      start source descriptor = .ok scanner ∧ Follows source first scanner := by
  obtain ⟨moved, hmoved, hstart⟩ := start_of_readable hsource descriptor
  exact ⟨_, _, start_memory source.data descriptor source.position, hstart,
    ⟨rfl, rfl, fun _ => rfl⟩, rfl, hmoved⟩

/-- What follows behind a reading follows. -/
theorem Follows.of_movedTo {moved : Source} {position : ℕ} (hmoved : source.MovedTo position moved)
    (h : Follows moved reference scanner) : Follows source reference scanner :=
  ⟨hmoved.data ▸ h.inMemory, h.same, hmoved.trans h.moved⟩

/-- Scanners that are started behind a reading, in memory and on `source`. -/
theorem exists_follows_of_endsLike (hsource : source.Readable) (descriptor : Descriptor)
    {ε α : Type} {a : α} {cursor : Source} {result : EStateM.Result ε Source α}
    (h : source.EndsLike (.ok a cursor) result) :
    ∃ moved first scanner, result = .ok a moved ∧ start cursor descriptor = .ok first ∧
      start moved descriptor = .ok scanner ∧ Follows source first scanner := by
  cases h with
  | @ok _ _ moved hmoved =>
    obtain ⟨first, scanner, hfirst, hscanner, hfollows⟩ :=
      exists_follows_of_start (hsource.of_movedTo hmoved) descriptor
    rw [hmoved.data, hmoved.position] at hfirst
    exact ⟨moved, first, scanner, rfl, hfirst, hscanner, .of_movedTo hmoved hfollows⟩

end Follows

end Lz4Frame.Scanner
