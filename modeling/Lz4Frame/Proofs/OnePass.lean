import Lz4Frame.Proofs.Analysis
import Lz4Frame.Proofs.Content.Window

/-! A decoder that reads its input once, front to back, and forgets nothing. Each block is expanded
as soon as it was read, behind everything that may come before it: the whole dictionary and, in
frames with linked blocks, all output since the start or since the last block without any. The
analysis scans first, then decodes, and keeps no more than a window of history. It reports the
same, `reportBy_eq_onePass`. -/

namespace Lz4Frame

namespace OnePass

/-- What lies behind a header and `index` blocks, whose contents were `output` if there were all of
them. -/
def read (options : Options) (header : Header) (index : ℕ) (history : Bytes)
    (output : Option Bytes) (bytes : List UInt8) : ContentOutcome :=
  match _hfront : Front.read header.descriptor.hasBlockChecksums bytes with
  | .cut _ => .of options header.descriptor none [] none
  | .endMark rest =>
    match Word.readOptional? header.descriptor.hasContentChecksum rest with
    | none => .of options header.descriptor none [] none
    | some (contentChecksum, _) => .of options header.descriptor contentChecksum [] output
  | .block block rest =>
    let decoded := block.decode .lz4 options header.maxBlockSize index history
    let history :=
      if header.descriptor.independentBlocks then history
      else Decoder.extendUnbounded history decoded.content
    let output := output.bind fun output => decoded.content.map (output ++ ·)
    let behind := read options header (index + 1) history output rest
    { behind with blocks := decoded.outcome :: behind.blocks }
termination_by bytes.length
decreasing_by exact Remainder.length_lt_of_read _hfront

/-- The dictionary of a frame, if it was made with one. -/
def dictionary (options : Options) (header : Header) : Bytes :=
  if header.descriptor.hasDictionaryId then options.dictionary.getD #[] else #[]

end OnePass

/-- The content of a frame that is read in one pass. -/
def onePass (options : Options) (input : Bytes) : ContentOutcome :=
  match Header.read { data := input } with
  | .error _ _ => {}
  | .ok header _ =>
    OnePass.read options header 0 (OnePass.dictionary options header) (some #[])
      (input.toList.drop header.length)

/-! ### The pass -/

theorem Remainder.Ending.content_cons (options : Options) (descriptor : Descriptor)
    (first : BlockOutcome) (outcomes : List BlockOutcome) (content : Option Bytes)
    (ending : Ending) :
    ending.content options descriptor (first :: outcomes) content =
      { ending.content options descriptor outcomes content with
        blocks := first :: (ending.content options descriptor outcomes content).blocks } := by
  cases ending <;> rfl

/-- Output is put together from either end. -/
theorem bind_whole_cons (output first : Option Bytes) (contents : List (Option Bytes)) :
    (output.bind fun output => (whole (first :: contents)).map (output ++ ·)) =
      (output.bind fun output => first.map (output ++ ·)).bind fun output =>
        (whole contents).map (output ++ ·) := by
  cases output <;> cases first <;> cases h : whole contents <;>
    simp [whole, h, Array.append_assoc]

/-- The pass decodes what `Remainder.read` finds. -/
theorem OnePass.read_eq (options : Options) (header : Header) (index : ℕ) (history : Bytes)
    (output : Option Bytes) (bytes : List UInt8) :
    let remainder := Remainder.read header.descriptor bytes
    let decoded := BlockLayout.decodeUnbounded options (!header.descriptor.independentBlocks)
      header.maxBlockSize index history remainder.blocks
    read options header index history output bytes =
      remainder.ending.content options header.descriptor (decoded.map DecodedBlock.outcome)
        (output.bind fun output =>
          (whole (decoded.map DecodedBlock.content)).map (output ++ ·)) := by
  fun_induction read options header index history output bytes with
  | case1 index history output bytes cut hfront =>
    rw [Remainder.read_of_cut hfront]
    rfl
  | case2 index history output bytes rest hfront hchecksum =>
    rw [Remainder.read_of_endMark hfront, Remainder.Ending.ofRest, hchecksum]
    rfl
  | case3 index history output bytes rest hfront contentChecksum trailing hchecksum =>
    have houtput : (output.bind fun output => (whole []).map (output ++ ·)) = output := by
      cases output <;> simp [whole]
    rw [Remainder.read_of_endMark hfront, Remainder.Ending.ofRest, hchecksum]
    exact congrArg _ houtput.symm
  | case4 index history output bytes block rest hfront decoded history' output' behind ih =>
    have hhistory : history' = if !header.descriptor.independentBlocks then
        Decoder.extendUnbounded history decoded.content else history := by
      cases hindependent : header.descriptor.independentBlocks <;> simp [history', hindependent]
    have hbehind : behind = _ := ih
    rw [Remainder.read_of_block hfront]
    dsimp only
    rw [BlockLayout.decodeUnbounded, ← hhistory, hbehind, List.map_cons, List.map_cons,
      bind_whole_cons, Remainder.Ending.content_cons]

theorem onePass_of_header {options : Options} {header : Header} {input : Bytes}
    (h : header.encode <+: input.toList) :
    onePass options input =
      (Remainder.read header.descriptor (input.toList.drop header.length)).content .lz4 options
        header := by
  have hread := Header.read_memory_eq_ok_iff.2 ⟨h, rfl⟩
  have hhistory : (OnePass.dictionary options header).tail Format.windowSize =
      Frame.initialHistory { header } options := by
    unfold OnePass.dictionary Frame.initialHistory
    split_ifs
    · rfl
    · exact Bytes.tail_of_size_le (Nat.zero_le _)
  rw [onePass, show ({ data := input } : Source) = .memory input 0 from rfl, hread]
  dsimp only
  rw [OnePass.read_eq, ← BlockLayout.decodeAll_tail, hhistory]
  simp [Remainder.content, Remainder.decoded]

theorem onePass_of_not_header {options : Options} {input : Bytes}
    (h : ∀ header : Header, ¬ header.encode <+: input.toList) : onePass options input = {} := by
  rw [onePass, show ({ data := input } : Source) = .memory input 0 from rfl]
  split
  · rfl
  next header source hread => exact absurd (Header.read_memory_eq_ok_iff.1 hread).1 (h header)

/-- The analysis, in whatever order it takes independent blocks, reports what a single pass with
all of the history finds. -/
theorem reportBy_eq_onePass (schedule : Schedule) (options : Options) (input : Bytes) :
    let report := reportBy schedule .lz4 options input
    let reference := onePass options input
    report.rows.map BlockRow.outcome = reference.blocks ∧
      report.contentSize = reference.size ∧
      report.content = reference.content ∧
      report.contentChecksum = reference.contentChecksum := by
  intro report reference
  by_cases hheader : ∃ header : Header, header.encode <+: input.toList
  · obtain ⟨header, hheader⟩ := hheader
    have hreport : report = _ := reportBy_of_header schedule .lz4 options hheader
    have hreference : reference = _ := onePass_of_header hheader
    rw [hreport, hreference]
    exact ⟨Remainder.map_outcome_rows .., rfl, rfl, rfl⟩
  · have hnone := not_exists.1 hheader
    obtain ⟨error, hreport⟩ := reportBy_of_not_header schedule .lz4 options hnone
    have hreference : reference = _ := onePass_of_not_header hnone
    rw [show report = _ from hreport, hreference]
    exact ⟨rfl, rfl, rfl, rfl⟩

end Lz4Frame
