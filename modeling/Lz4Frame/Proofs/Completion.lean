import Lz4Frame.Proofs.Header.Completion
import Lz4Frame.Proofs.Layout.Completion
import Lz4Frame.Proofs.Scan.Inverse

/-! Which errors of a scan more bytes can mend. An input that ends too early can be written to the end
of a frame, with the blocks that were found as the first ones. Any other error is one of the header,
and it was raised by bytes that are all there, so it stays whatever follows. Two kinds of input are
neither: one too short for a magic number, and a skippable frame without its size. -/

namespace Lz4Frame

open BlockLayout (locateAll)
open Source (memory)

/-- The part in which the input ends, if that is what an error is about. -/
def FrameError.cutPart? : FrameError → Option Part
  | .header (.unexpectedEnd _ part) => some part
  | .scan (.unexpectedEnd _ part) => some part
  | _ => none

theorem HeaderError.not_isPending_of_cutPart? {error : HeaderError}
    (hcut : (FrameError.header error).cutPart? = none)
    (hmagic : FrameError.header error ≠ .header (.invalidMagic none)) : ¬ error.IsPending := by
  intro h
  unfold IsPending at h
  split at h
  · cases hcut
  · exact hmagic rfl
  · exact h

namespace Remainder

/-- Behind a header, a scan can only run into the end. -/
theorem exists_cutPart?_of_fatal {header : Header} {remainder : Remainder} {offset : ℕ}
    {error : FrameError} (h : (remainder.outcome header [] offset).fatal = some error) :
    (∀ contentChecksum trailing, remainder.ending ≠ .complete contentChecksum trailing) ∧
      ∃ part, error.cutPart? = some part := by
  obtain ⟨blocks, ending⟩ := remainder
  cases ending with
  | complete contentChecksum trailing => cases h
  | cutBlock cut =>
    cases h
    refine ⟨nofun, ?_⟩
    cases cut <;> exact ⟨_, rfl⟩
  | cutChecksum =>
    cases h
    exact ⟨nofun, _, rfl⟩

end Remainder

namespace FrameLayout

/-- What is the start of a frame can be written to its end, and then that frame is found. -/
theorem exists_scan_append {frame : FrameLayout} {input : Bytes}
    (h : input.toList <+: frame.encode) :
    ∃ suffix, Id.run (scan (pure false) (input ++ suffix)) = { frame := some frame.locate } ∧
      frame.locate.endOffset = some (input ++ suffix).size := by
  obtain ⟨suffix, hsuffix⟩ := h
  have hinput : (input ++ suffix.toArray).toList = frame.encode ++ [] := by
    rw [Array.toList_append, List.append_nil, hsuffix]
  refine ⟨suffix.toArray, scan_encode_append hinput, ?_⟩
  rw [← Array.length_toList, hinput, List.append_nil]
  rfl

end FrameLayout

/-- An input that ends within its header. -/
theorem Header.exists_scan_append {input : Bytes} {offset : ℕ} {part : Part} {source : Source}
    (hread : read (memory input 0) = .error (.unexpectedEnd offset part) source)
    (hpart : part ≠ .skippableFrameSize) :
    ∃ suffix frame, Id.run (scan (pure false) (input ++ suffix)) = { frame := some frame } ∧
      frame.endOffset = some (input ++ suffix).size := by
  obtain ⟨header, hheader⟩ := exists_of_read hread hpart
  obtain ⟨contentChecksum, hsome⟩ := Word.exists_isSome_eq header.descriptor.hasContentChecksum
  let frame : FrameLayout := ⟨header, [], contentChecksum, nofun, hsome⟩
  obtain ⟨suffix, hscan, hend⟩ :=
    frame.exists_scan_append (hheader.trans (List.prefix_append _ frame.remainder))
  exact ⟨suffix, frame.locate, hscan, hend⟩

/-- An input that ends behind its header. -/
theorem Remainder.exists_scan_append {header : Header} {input : Bytes}
    (hheader : header.encode <+: input.toList)
    (h : ∀ contentChecksum trailing,
      (read header.descriptor (input.toList.drop header.length)).ending ≠
        .complete contentChecksum trailing) :
    ∃ suffix frame, Id.run (scan (pure false) (input ++ suffix)) = { frame := some frame } ∧
      frame.endOffset = some (input ++ suffix).size ∧
      ∀ found, (Id.run (scan (pure false) input)).frame = some found →
        frame.header = found.header ∧ found.blocks <+: frame.blocks := by
  obtain ⟨frame, rfl, ⟨behind, hblocks⟩, hremainder⟩ := exists_completion h
  obtain ⟨rest, hrest⟩ := hheader
  rw [Header.drop_length hrest.symm] at hremainder
  have hprefix : input.toList <+: frame.encode := by
    rwa [← hrest, FrameLayout.encode, List.prefix_append_right_inj]
  obtain ⟨suffix, hscan, hend⟩ := FrameLayout.exists_scan_append hprefix
  refine ⟨suffix, frame.locate, hscan, hend, fun found hfound => ?_⟩
  rw [scan_of_header ⟨rest, hrest⟩] at hfound
  obtain ⟨hheader, hfound⟩ := eq_of_frame_outcome hfound
  refine ⟨hheader.symm, ?_⟩
  rw [hfound, FrameLayout.locate, ← hblocks, BlockLayout.locateAll_append]
  exact List.prefix_append _ _

/-- **Completion.** Where a scan ends with an error because the input ends, other than within the
size of a skippable frame, some more bytes make a complete frame of the input, and its first blocks
are the ones that were found. Where a scan ends with any other error, and the input is not too short
for a magic number, it ends the same way whatever bytes follow. -/
theorem scan_append {input : Bytes} {error : FrameError}
    (hfatal : (Id.run (scan (pure false) input)).fatal = some error) :
    (∀ part, error.cutPart? = some part → part ≠ .skippableFrameSize →
      ∃ suffix frame, Id.run (scan (pure false) (input ++ suffix)) = { frame := some frame } ∧
        frame.endOffset = some (input ++ suffix).size ∧
        ∀ found, (Id.run (scan (pure false) input)).frame = some found →
          frame.header = found.header ∧ found.blocks <+: frame.blocks) ∧
      (error.cutPart? = none → error ≠ .header (.invalidMagic none) →
        ∀ suffix, Id.run (scan (pure false) (input ++ suffix)) =
          Id.run (scan (pure false) input)) := by
  rcases hread : Header.read (memory input 0) with ⟨header, source⟩ | ⟨error', source⟩
  · have hheader := (Header.read_memory_eq_ok_iff.1 hread).1
    rw [scan_of_header hheader] at hfatal
    obtain ⟨hcut, part, hpart⟩ := Remainder.exists_cutPart?_of_fatal hfatal
    refine ⟨fun _ _ _ => Remainder.exists_scan_append hheader hcut, fun hnone => ?_⟩
    rw [hpart] at hnone
    cases hnone
  · have hscan := scan_of_read_eq_error hread
    rw [hscan] at hfatal ⊢
    obtain rfl := Option.some.inj hfatal
    refine ⟨fun part hpart hne => ?_, fun hnone hne suffix => ?_⟩
    · cases error' with
      | unexpectedEnd offset part' =>
        obtain rfl := Option.some.inj hpart
        obtain ⟨suffix, frame, hfound, hend⟩ := Header.exists_scan_append hread hne
        exact ⟨suffix, frame, hfound, hend, nofun⟩
      | _ => cases hpart
    · have hsettled := HeaderError.not_isPending_of_cutPart? hnone hne
      obtain ⟨_, hread'⟩ := Header.readScript_errsWith.error_append hread hsettled suffix
      exact scan_of_read_eq_error hread'

/-- A letter whose end mark is cut short, and a version that no more bytes make the right one. -/
theorem scan_append_letter :
    let cut : Bytes := #[0x04, 0x22, 0x4D, 0x18, 0x60, 0x40, 0x82, 0x01, 0x00, 0x00, 0x80, 0x61,
      0x00]
    let forbidden : Bytes := #[0x04, 0x22, 0x4D, 0x18, 0x20]
    (∃ suffix frame, Id.run (scan (pure false) (cut ++ suffix)) = { frame := some frame } ∧
      frame.endOffset = some (cut ++ suffix).size ∧
      FrameLayout.letter.locate.blocks <+: frame.blocks) ∧
    ∀ suffix, Id.run (scan (pure false) (forbidden ++ suffix)) =
      { fatal := some (.header (.unsupportedVersion 0)) } := by
  intro cut forbidden
  have hcut : (Id.run (scan (pure false) cut)).fatal =
      some (.scan (.unexpectedEnd 12 (.blockSize 1))) := by
    decide +kernel
  have hblocks : (Id.run (scan (pure false) cut)).frame =
      some { header := FrameLayout.letter.header, blocks := FrameLayout.letter.locate.blocks } := by
    decide +kernel
  have hforbidden : Id.run (scan (pure false) forbidden) =
      { fatal := some (.header (.unsupportedVersion 0)) } := by
    decide +kernel
  constructor
  · obtain ⟨suffix, frame, hscan, hend, hfound⟩ := (scan_append hcut).1 _ rfl nofun
    exact ⟨suffix, frame, hscan, hend, (hfound _ hblocks).2⟩
  · intro suffix
    have hfatal : (Id.run (scan (pure false) forbidden)).fatal =
        some (.header (.unsupportedVersion 0)) := by
      rw [hforbidden]
    rw [(scan_append hfatal).2 rfl nofun suffix, hforbidden]

end Lz4Frame
