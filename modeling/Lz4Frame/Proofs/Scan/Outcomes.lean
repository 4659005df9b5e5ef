import Lz4Frame.Proofs.Cancellation
import Lz4Frame.Proofs.Header.Fields
import Lz4Frame.Proofs.Scan.Bodies

/-! What a scan of an input in memory can end with, whenever somebody cancels it. It ends in exactly
one way: with an error, with a cancellation or at the end of a frame, `scan_settled`. Reading from
memory never fails, so an error is about the input, and every length that is compared before a read
leaves room for this read. -/

namespace Lz4Frame

open Source (memory)

/-- The error is that the source could not be read. -/
def FrameError.IsIo : FrameError → Prop
  | .header (.io ..) => True
  | .scan (.io ..) => True
  | _ => False

namespace Header

/-- Reading from memory never fails. -/
theorem not_isIo_of_read {data : Bytes} {error : HeaderError} {source : Source}
    (h : read (memory data 0) = .error error source) : ¬ (FrameError.header error).IsIo := by
  obtain hpending | hmistake := readScript_errsWith.error h
  · cases error <;> first | exact id | exact hpending.elim
  · cases error <;> first | exact id | exact absurd rfl (hmistake _ _)

end Header

/-! ### Scans that may be cancelled -/

section Cancelled

variable {σ : Type} (cancelled : StateM σ Bool)

/-- Surroundings that do not remember their answers give some all the same. -/
theorem Scanner.walk_ensures_walkedBy (scanner : Scanner) (found : Array Block) :
    Ensures (fun _ => True) (walk cancelled scanner found) fun walked =>
      ∃ answers, WalkedBy scanner found answers walked := by
  fun_induction walk cancelled scanner found with
  | case1 scanner found ih =>
    refine .bind (.trivial cancelled) fun answer _ => ?_
    split_ifs
    · exact .pure ⟨_, .cancelled scanner found⟩
    · split
      next scanner' hnext => exact .pure ⟨_, .finished hnext⟩
      next error scanner' hnext => exact .pure ⟨_, .stopped hnext⟩
      next block scanner' hnext =>
        refine (ih block scanner' hnext).mono ?_
        rintro walked ⟨answers, hwalked⟩
        exact ⟨_, .cons hnext hwalked⟩

theorem scan_ensures_scannedBy (input : Bytes) :
    Ensures (fun _ => True) (scan cancelled input) fun scanned =>
      ∃ answers, (Id.run (scan (pure false) input)).ScannedBy answers scanned := by
  unfold scan
  split
  next => exact .pure ⟨_, .of_frame_eq_none rfl⟩
  next header source hread =>
    split
    next error hstart =>
      refine .pure ⟨[], fun _ => ⟨rfl, ?_⟩, nofun⟩
      rintro _ ⟨⟩
      exact Nat.zero_le _
    next scanner hstart =>
      refine .bind (scanner.walk_ensures_walkedBy cancelled #[]) fun walked hwalked => .pure ?_
      obtain ⟨answers, hwalked⟩ := hwalked
      exact ⟨answers, hwalked.scannedBy (Scanner.found_of_start hstart) header⟩

/-- A scan is the one that nobody cancels or stops before one of its blocks. -/
theorem run_scan_eq_or (input : Bytes) (state : σ) :
    let full := Id.run (scan (pure false) input)
    let scanned := ((scan cancelled input).run state).1
    scanned = full ∨ ∃ frame k, full.frame = some frame ∧ k ≤ frame.blocks.length ∧
      scanned = full.cancelledBefore k := by
  intro full scanned
  obtain ⟨answers, h⟩ := (scan_ensures_scannedBy cancelled input state .intro).1
  rcases hfind : answers.findIdx? id with _ | k
  · exact .inl (h.of_not_mem (findIdx?_eq_none_iff_not_mem.1 hfind)).1
  · obtain ⟨hscanned, frame, hframe, hle⟩ := h.of_findIdx? k hfind
    exact .inr ⟨frame, k, hframe, hle, hscanned⟩

end Cancelled

/-! ### Endings -/

/-- What holds of the outcome of every scan of `input`. -/
structure ScanOutcome.Settled (input : Bytes) (outcome : ScanOutcome) : Prop where
  /-- There is exactly one of an error, a cancellation and the end of a frame. -/
  exactly_one : [outcome.fatal.isSome, outcome.cancelledAt.isSome,
    (outcome.frame.bind Frame.endOffset).isSome].count true = 1
  /-- Nothing but a header error leaves a scan without a frame. -/
  frame_eq_none_iff : outcome.frame = none ↔ ∃ error, outcome.fatal = some (.header error)
  not_isIo : ∀ error, outcome.fatal = some error → ¬ error.IsIo
  /-- A cancellation is told by the number of blocks found before it. -/
  cancelledAt : ∀ count, outcome.cancelledAt = some count →
    ∃ frame, outcome.frame = some frame ∧ frame.blocks.length = count
  /-- A frame that ends does so in the input, and with all that it announces. -/
  endOffset : ∀ frame stop, outcome.frame = some frame → frame.endOffset = some stop →
    stop ≤ input.size ∧
      frame.contentChecksum.isSome = frame.header.descriptor.hasContentChecksum

namespace ScanOutcome.Settled

variable {input : Bytes}

theorem of_header_error {error : HeaderError} (h : ¬ (FrameError.header error).IsIo) :
    Settled input { fatal := some (.header error) } where
  exactly_one := rfl
  frame_eq_none_iff := iff_of_true rfl ⟨error, rfl⟩
  not_isIo := by
    rintro _ ⟨⟩
    exact h
  cancelledAt := nofun
  endOffset := nofun

/-- A scan that stops between two fields of a frame. -/
theorem of_unexpectedEnd (header : Header) (blocks : List Block) (offset : ℕ) (part : Part) :
    Settled input
      { frame := some { header, blocks }, fatal := some (.scan (.unexpectedEnd offset part)) } where
  exactly_one := rfl
  frame_eq_none_iff := iff_of_false nofun nofun
  not_isIo := by
    rintro _ ⟨⟩
    exact id
  cancelledAt := nofun
  endOffset := by
    rintro _ _ ⟨⟩
    nofun

theorem of_complete {frame : Frame} {stop : ℕ} (hend : frame.endOffset = some stop)
    (hle : stop ≤ input.size)
    (hchecksum : frame.contentChecksum.isSome = frame.header.descriptor.hasContentChecksum) :
    Settled input { frame := some frame } where
  exactly_one := by simp [hend]
  frame_eq_none_iff := iff_of_false nofun nofun
  not_isIo := nofun
  cancelledAt := nofun
  endOffset := by
    rintro _ stop' ⟨⟩ hend'
    rw [hend] at hend'
    cases hend'
    exact ⟨hle, hchecksum⟩

theorem cancelledBefore {full : ScanOutcome} {frame : Frame} {k : ℕ}
    (hframe : full.frame = some frame) (hle : k ≤ frame.blocks.length) :
    Settled input (full.cancelledBefore k) where
  exactly_one := by simp [ScanOutcome.cancelledBefore, hframe]
  frame_eq_none_iff := by simp [ScanOutcome.cancelledBefore, hframe]
  not_isIo := by
    rintro _ ⟨⟩
  cancelledAt := by
    rintro _ ⟨⟩
    refine ⟨{ header := frame.header, blocks := frame.blocks.take k }, ?_, ?_⟩
    · rw [ScanOutcome.cancelledBefore, hframe, Option.map_some]
    · exact List.length_take_of_le hle
  endOffset := by
    intro frame' stop hframe' hstop
    rw [ScanOutcome.cancelledBefore, hframe] at hframe'
    cases hframe'
    cases hstop

end ScanOutcome.Settled

/-- What a scan that nobody cancels ends with. -/
theorem Remainder.settled_outcome {header : Header} {input : Bytes} {rest : List UInt8}
    (h : input.toList = header.encode ++ rest) :
    ((read header.descriptor rest).outcome header [] header.length).Settled input := by
  unfold outcome
  rcases hread : read header.descriptor rest with ⟨blocks, ending⟩
  cases ending with
  | cutBlock cut => cases cut <;> exact .of_unexpectedEnd ..
  | cutChecksum => exact .of_unexpectedEnd ..
  | complete contentChecksum trailing =>
    obtain ⟨-, hchecksum, rfl⟩ := read_eq_complete_iff.1 hread
    refine .of_complete rfl ?_ hchecksum
    rw [← Array.length_toList, h]
    simp only [List.length_append, Header.length_encode, Format.endMark, Word.length_encode,
      Format.wordSize]
    omega

theorem settled_scan (input : Bytes) : (Id.run (scan (pure false) input)).Settled input := by
  rcases hread : Header.read (memory input 0) with ⟨header, source⟩ | ⟨error, source⟩
  · obtain ⟨rest, hrest⟩ := (Header.read_memory_eq_ok_iff.1 hread).1
    rw [scan_of_header ⟨rest, hrest⟩, Header.drop_length hrest.symm]
    exact Remainder.settled_outcome hrest.symm
  · rw [scan_of_read_eq_error hread]
    exact .of_header_error (Header.not_isIo_of_read hread)

/-- However often and whenever it is asked for, a cancellation leaves exactly one of three endings:
an error that is about the input, a cancellation before some block, or a frame that ends within the
input. -/
theorem scan_settled {σ : Type} (cancelled : StateM σ Bool) (input : Bytes) (state : σ) :
    ((scan cancelled input).run state).1.Settled input := by
  obtain hfull | ⟨frame, k, hframe, hle, hcancelled⟩ := run_scan_eq_or cancelled input state
  · rw [hfull]
    exact settled_scan input
  · rw [hcancelled]
    exact .cancelledBefore hframe hle

end Lz4Frame
