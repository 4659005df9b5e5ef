import Lz4Frame.Proofs.Header.Fields
import Lz4Frame.Proofs.Scan.Fields

/-! How the bytes arrive makes no difference. From a source that gives its data in whatever pieces,
with an interruption at whatever place, a header is read as from memory, a scanner answers as one on
memory does, and all of it leaves the source at the same position: `honest_delivery`. So a scan of
such a source from its start finds what a scan of the data finds. -/

namespace Lz4Frame

open Source (memory)

/-- The frame at the position of `source`, as far as it can be found. -/
def Source.scanned (source : Source) : ScanOutcome :=
  match Header.read source with
  | .error error _ => { fatal := some (.header error) }
  | .ok header source =>
    match Scanner.start source header.descriptor with
    | .error error => { frame := some { header }, fatal := some (.scan error) }
    | .ok scanner => scanner.conclude header #[]

theorem run_scan_eq_scanned (input : Bytes) :
    Id.run (scan (pure false) input) = (memory input 0).scanned := by
  unfold scan Source.scanned
  rw [show ({ data := input } : Source) = memory input 0 from rfl]
  cases Header.read (memory input 0) with
  | error error source => rfl
  | ok header source =>
    dsimp only
    cases Scanner.start source header.descriptor with
    | error error => rfl
    | ok scanner => rfl

namespace Scanner

/-- Two scanners give the same answers to some calls and are the same behind them, the position of
the source included, but for the source itself. -/
structure AnswersLike (reference scanner : Scanner) (calls : List Call) : Prop where
  answers : (scanner.run calls).1 = (reference.run calls).1
  same : (scanner.run calls).2 =
    { (reference.run calls).2 with source := (scanner.run calls).2.source }
  position : (scanner.run calls).2.source.position = (reference.run calls).2.source.position

variable {source : Source} {reference scanner : Scanner}

theorem Follows.answersLike (h : Follows source reference scanner) (hsource : source.Honest)
    (calls : List Call) : AnswersLike reference scanner calls := by
  obtain ⟨hanswers, hfollows⟩ := h.run hsource.readable calls (hsource.firstFault _)
  exact ⟨hanswers, hfollows.same, hfollows.moved.position⟩

/-- Behind the end mark. -/
theorem Follows.conclude_finished (h : Follows source reference scanner) (hsource : source.Honest)
    (header : Header) (blocks : List Block) :
    header.conclude blocks scanner .finished = header.conclude blocks reference .finished := by
  obtain ⟨hchecksum, hfollows⟩ := h.readContentChecksum hsource.readable (hsource.firstFault _)
  rcases hread : reference.readContentChecksum with ⟨checksum, reference'⟩
  rcases hread' : scanner.readContentChecksum with ⟨checksum', scanner'⟩
  rw [hread, hread'] at hchecksum hfollows
  dsimp only at hchecksum hfollows
  subst hchecksum
  simp only [Header.conclude, hread, hread']
  cases checksum' with
  | error error => rfl
  | ok checksum =>
    have hoffset : scanner'.offset = reference'.offset := by rw [hfollows.same]
    simp only [hoffset]

/-- A walk to the end finds the same. -/
theorem Follows.conclude (h : Follows source reference scanner) (hsource : source.Honest)
    (header : Header) (found : Array Block) :
    scanner.conclude header found = reference.conclude header found := by
  induction hleft : reference.remaining using Nat.strongRecOn
    generalizing reference scanner found with
  | ind left ih =>
  subst hleft
  obtain ⟨hitem, hnext⟩ := h.next hsource.readable (hsource.firstFault _)
  rcases hstep : reference.next with ⟨item, reference'⟩
  rcases hstep' : scanner.next with ⟨item', scanner'⟩
  rw [hstep, hstep'] at hitem hnext
  dsimp only at hitem hnext
  subst hitem
  rcases item' with _ | error | block
  · rw [Scanner.conclude, Scanner.conclude, walk_of_next_none hstep, walk_of_next_none hstep']
    exact hnext.conclude_finished hsource header found.toList
  · rw [Scanner.conclude, Scanner.conclude, walk_of_next_error hstep, walk_of_next_error hstep']
    rfl
  · rw [Scanner.conclude, Scanner.conclude, walk_of_next_ok hstep, walk_of_next_ok hstep']
    exact ih _ (remaining_of_next hstep) hnext (found.push block) rfl

end Scanner

namespace Source

variable {source : Source}

theorem Honest.header_endsLike (hsource : source.Honest) :
    source.EndsLike (Header.read (memory source.data source.position)) (Header.read source) :=
  Header.readScript.endsLike hsource.readable (hsource.firstFault _)

theorem Honest.scanned_eq (hsource : source.Honest) :
    source.scanned = (memory source.data source.position).scanned := by
  have hheader := hsource.header_endsLike
  unfold scanned
  cases hcursor : Header.read (memory source.data source.position) with
  | error error cursor =>
    rw [hcursor] at hheader
    generalize Header.read source = result at hheader ⊢
    cases hheader
    rfl
  | ok header cursor =>
    rw [hcursor] at hheader
    obtain ⟨source', first, scanner, hread, hfirst, hscanner, hfollows⟩ :=
      Scanner.exists_follows_of_endsLike hsource.readable header.descriptor hheader
    simp only [hread, hfirst, hscanner]
    exact hfollows.conclude hsource header #[]

end Source

/-- From an honest source, wherever it starts and however it gives its bytes, everything is read as
from memory: a header, the blocks behind it or from any other position, whatever a scanner is asked
for, and a whole scan. -/
theorem honest_delivery {source : Source} (hsource : source.Honest) :
    let cursor := memory source.data source.position
    source.EndsLike (Header.read cursor) (Header.read source) ∧
      (∀ header cursor', Header.read cursor = .ok header cursor' →
        ∃ source' first scanner, Header.read source = .ok header source' ∧
          Scanner.start cursor' header.descriptor = .ok first ∧
          Scanner.start source' header.descriptor = .ok scanner ∧
          ∀ calls, first.AnswersLike scanner calls) ∧
      (∀ descriptor, ∃ first scanner, Scanner.start cursor descriptor = .ok first ∧
        Scanner.start source descriptor = .ok scanner ∧
        ∀ calls, first.AnswersLike scanner calls) ∧
      (source.position = 0 → source.scanned = Id.run (scan (pure false) source.data)) := by
  intro cursor
  refine ⟨hsource.header_endsLike, fun header cursor' hcursor => ?_, fun descriptor => ?_,
    fun hzero => ?_⟩
  · have hheader := hsource.header_endsLike
    rw [show Header.read (memory source.data source.position) = _ from hcursor] at hheader
    obtain ⟨source', first, scanner, hread, hfirst, hscanner, hfollows⟩ :=
      Scanner.exists_follows_of_endsLike hsource.readable header.descriptor hheader
    exact ⟨source', first, scanner, hread, hfirst, hscanner, hfollows.answersLike hsource⟩
  · obtain ⟨first, scanner, hfirst, hscanner, hfollows⟩ :=
      Scanner.exists_follows_of_start hsource.readable descriptor
    exact ⟨first, scanner, hfirst, hscanner, hfollows.answersLike hsource⟩
  · rw [run_scan_eq_scanned, hsource.scanned_eq, hzero]

/-- A whole frame in single bytes, with an interruption in its first size word. -/
theorem honest_delivery_dripping :
    let source : Source := { Source.dripping with position := 0 }
    source.Honest ∧
      source.EndsLike (Header.read (memory source.data 0)) (Header.read source) ∧
      source.scanned = Id.run (scan (pure false) source.data) := by
  intro source
  have hsource : source.Honest :=
    Source.honest_dripping.of_movedTo ⟨Source.dripping.interruptAt, rfl⟩
  obtain ⟨hheader, -, -, hscanned⟩ := honest_delivery hsource
  exact ⟨hsource, hheader, hscanned rfl⟩

end Lz4Frame
