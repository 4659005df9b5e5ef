import Lz4Frame.Proofs.Content.Totals
import Lz4Frame.Proofs.Issues
import Lz4Frame.Proofs.Uncancelled

/-! An analysis that does not expand blocks. No block has a content, so a frame with blocks has
none, and what is reported is the structure and the checksums of the blocks. A complete frame
without any blocks does have a content, though, which is empty: its size and its checksum are
checked all the same, `analyze_structureOnly`. -/

namespace Lz4Frame

/-! ### The content -/

/-- What becomes of a block that is not expanded. -/
def Block.checkOnly (verify : Bool) (input : Bytes) (block : Block) : DecodedBlock :=
  ⟨⟨block.check verify (block.body input), .notAttempted⟩, none⟩

/-- The frame is complete and has no blocks. -/
def Frame.isEmpty (frame : Frame) : Bool := frame.isComplete && frame.blocks.isEmpty

/-- The outcome of a decoding that expands nothing. Only an empty frame has a content. -/
structure ContentOutcome.Unexpanded (keep empty : Bool) (decoded : ContentOutcome) : Prop where
  decompression : ∀ outcome ∈ decoded.blocks, outcome.decompression = .notAttempted
  size : decoded.size = if empty then some 0 else none
  content : decoded.content = if keep && empty then some #[] else none
  contentChecksum : ∀ check, decoded.contentChecksum = .checked check →
    empty = true ∧ check.computed = XxHash32.digest []
  cancelledAt : decoded.cancelledAt = none

theorem whole_map_none {α : Type} (items : List α) :
    whole (items.map fun _ => none) = if items.isEmpty then some #[] else none := by
  cases items <;> rfl

theorem ContentOutcome.unexpanded_of (options : Options) (descriptor : Descriptor)
    (stored : Option UInt32) {blocks : List BlockOutcome} (empty : Bool)
    (hblocks : ∀ outcome ∈ blocks, outcome.decompression = .notAttempted) :
    (of options descriptor stored blocks (if empty then some #[] else none)).Unexpanded
      options.keepContent empty := by
  refine ⟨hblocks, ?_, ?_, fun check hcheck => ?_, rfl⟩
  · cases empty <;> rfl
  · cases empty <;> cases hkeep : options.keepContent <;> simp [of, hkeep]
  · obtain ⟨-, -, word, content, -, hcontent, rfl⟩ := CheckOutcome.ofContent_eq_checked_iff.1 hcheck
    cases empty with
    | false => cases hcontent
    | true =>
      cases hcontent
      exact ⟨rfl, rfl⟩

section Decode

variable {σ : Type} {env : Environment (StateM σ)} {options : Options}

/-- Without expansion, only the body of a block is looked at. -/
theorem Frame.run_decode_structureOnly
    (hcancelled : Ensures (fun _ => True) env.cancelled (· = false))
    (hdecompress : options.decompress = false) (input : Bytes) (frame : Frame) (state : σ) :
    ((frame.decode env options input).run state).1 =
      .of options frame.header.descriptor frame.contentChecksum
        (frame.blocks.map fun block => (block.checkOnly options.verifyChecksums input).outcome)
        (if frame.isEmpty then some #[] else none) := by
  let decode := Block.checkOnly options.verifyChecksums input
  have hblocks : ((frame.decodeBlocks env options input).run state).1 =
      (frame.blocks.map decode).map some := by
    rw [List.map_map]
    refine run_decodeBlocks_eq_map hcancelled nofun (fun _ history block _ => ?_) trivial
    unfold Decoder.decodeBlock
    simp only [hdecompress, Bool.false_eq_true, if_false]
    exact .pure rfl
  have hcontents : (frame.blocks.map decode).map DecodedBlock.content =
      frame.blocks.map fun _ => none := by
    rw [List.map_map]
    rfl
  rw [run_decode (by rw [hblocks, List.length_map, List.length_map]), hblocks,
    outcomeOf_map_some options (by rw [List.length_map]), hcontents, whole_map_none, List.map_map,
    isEmpty]
  cases frame.isComplete <;> rfl

theorem ScanOutcome.unexpanded_decode
    (hcancelled : Ensures (fun _ => True) env.cancelled (· = false))
    (hdecompress : options.decompress = false) (input : Bytes) (scanned : ScanOutcome)
    (state : σ) :
    ((scanned.decode env options input).run state).1.Unexpanded options.keepContent
      (scanned.frame.any Frame.isEmpty) := by
  rw [decode]
  rcases scanned.frame with _ | frame
  · refine ⟨?_, rfl, by cases options.keepContent <;> rfl, ?_, rfl⟩
    · rintro _ ⟨⟩
    · rintro _ ⟨⟩
  · dsimp only
    rw [frame.run_decode_structureOnly hcancelled hdecompress]
    refine ContentOutcome.unexpanded_of options _ _ _ fun outcome houtcome => ?_
    obtain ⟨block, -, rfl⟩ := List.mem_map.1 houtcome
    rfl

end Decode

/-! ### The report -/

/-- A checksum of a block, or data behind the frame: what can be found without the content. -/
def Issue.isStructural : Issue → Bool
  | .blockChecksumMismatch .. => true
  | .trailingData .. => true
  | _ => false

/-- The issues of an empty content. -/
inductive Issue.OfEmptyContent : Issue → Prop
  | checksum (stored : UInt32) :
    OfEmptyContent (.contentChecksumMismatch ⟨stored, XxHash32.digest []⟩)
  | size (declared : ℕ) : OfEmptyContent (.contentSizeMismatch declared 0)

namespace ContentOutcome.Unexpanded

variable {keep empty : Bool} {decoded : ContentOutcome} {input : Bytes} {scanned : ScanOutcome}

theorem decompression_of_mem_rows (h : decoded.Unexpanded keep empty) :
    ∀ row ∈ scanned.rows input decoded, row.decompression = .notAttempted := by
  intro row hrow
  rcases hframe : scanned.frame with _ | frame
  · rw [ScanOutcome.rows, hframe] at hrow
    cases hrow
  · rw [ScanOutcome.rows, hframe, Option.elim_some, ← List.map_uncurry_zip_eq_zipWith] at hrow
    obtain ⟨⟨block, outcome⟩, hmem, rfl⟩ := List.mem_map.1 hrow
    exact h.decompression outcome (List.of_mem_zip hmem).2

/-- Any issue that is not one of the structure is one of the content. -/
theorem issue_of_mem (h : decoded.Unexpanded keep empty) (hscanned : scanned.cancelledAt = none)
    {issue : Issue} (hissue : issue ∈ (Report.of input scanned decoded).issues) :
    issue.isStructural = true ∨ empty = true ∧ issue.OfEmptyContent := by
  obtain ⟨row, hrow, hissue⟩ | hissue | hissue | hissue | hissue :=
    Report.mem_issuesOf_iff.1 hissue
  · obtain hfailed | ⟨check, -, -, rfl⟩ := BlockRow.mem_issues_iff.1 hissue
    · rw [h.decompression_of_mem_rows row hrow] at hfailed
      cases hfailed
    · exact .inl rfl
  · obtain ⟨⟨stored, computed⟩, hcheck, -, rfl⟩ := CheckOutcome.mem_contentIssues_iff.1 hissue
    obtain ⟨hempty, rfl⟩ := h.contentChecksum _ hcheck
    exact .inr ⟨hempty, .checksum stored⟩
  · obtain ⟨declared, actual, -, hactual, -, rfl⟩ := mem_sizeIssues_iff.1 hissue
    rw [h.size] at hactual
    cases empty with
    | false => cases hactual
    | true =>
      cases hactual
      exact .inr ⟨rfl, .size declared⟩
  · obtain ⟨stop, -, -, rfl⟩ := mem_trailingIssues_iff.1 hissue
    exact .inl rfl
  · rw [hscanned, h.cancelledAt] at hissue
    cases hissue

end ContentOutcome.Unexpanded

/-- Without expansion, no row has a content. A frame with blocks, or one that is cut short, has no
content either, and only its structure and its block checksums are checked. The empty content of a
complete frame without blocks is checked as any other. -/
theorem analyze_structureOnly {σ : Type} {env : Environment (StateM σ)}
    (hcancelled : Ensures (fun _ => True) env.cancelled (· = false)) {options : Options}
    (hdecompress : options.decompress = false) (input : Bytes) (state : σ) :
    let report := ((analyze env options input).run state).1
    let empty := (Id.run (scan (pure false) input)).frame.any Frame.isEmpty
    (∀ row ∈ report.rows, row.decompression = .notAttempted) ∧
      (empty = false → report.contentSize = none ∧ report.content = none ∧
        (∀ check, report.contentChecksum ≠ .checked check) ∧
        ∀ issue ∈ report.issues, issue.isStructural = true) ∧
      (empty = true → report.contentSize = some 0 ∧
        report.content = (if options.keepContent then some #[] else none) ∧
        (∀ check, report.contentChecksum = .checked check →
          check.computed = XxHash32.digest []) ∧
        ∀ issue ∈ report.issues, issue.isStructural = true ∨ issue.OfEmptyContent) := by
  intro report empty
  have hreport : report = _ := run_analyze env options input state
  rw [(scan_ensures hcancelled input state .intro).1] at hreport
  have hdecoded := ScanOutcome.unexpanded_decode hcancelled hdecompress input
    (Id.run (scan (pure false) input)) ((scan env.cancelled input).run state).2
  have hissue : ∀ issue ∈ report.issues,
      issue.isStructural = true ∨ empty = true ∧ issue.OfEmptyContent := by
    rw [hreport]
    exact fun issue => hdecoded.issue_of_mem (cancelledAt_scan input)
  have hrows : ∀ row ∈ report.rows, row.decompression = .notAttempted := by
    rw [hreport]
    exact hdecoded.decompression_of_mem_rows
  have hsize : report.contentSize = if empty then some 0 else none := by
    rw [hreport]
    exact hdecoded.size
  have hcontent : report.content = if options.keepContent && empty then some #[] else none := by
    rw [hreport]
    exact hdecoded.content
  have hchecksum : ∀ check, report.contentChecksum = .checked check →
      empty = true ∧ check.computed = XxHash32.digest [] := by
    rw [hreport]
    exact hdecoded.contentChecksum
  refine ⟨hrows, fun hempty => ?_, fun hempty => ?_⟩
  · rw [hempty] at hsize hcontent hissue hchecksum
    rw [Bool.and_false] at hcontent
    refine ⟨hsize, hcontent, fun check hcheck => ?_, fun issue hmem => ?_⟩
    · exact Bool.false_ne_true (hchecksum check hcheck).1
    · exact (hissue issue hmem).resolve_right fun hcontent => Bool.false_ne_true hcontent.1
  · rw [hempty] at hsize hcontent
    rw [Bool.and_true] at hcontent
    exact ⟨hsize, hcontent, fun check hcheck => (hchecksum check hcheck).2,
      fun issue hmem => (hissue issue hmem).imp_right And.right⟩

theorem analyze_structureOnly_letter :
    let input := FrameLayout.letter.encode.toArray
    let env : Environment (StateM Unit) := .ofDecompressor .lz4
    let report := ((analyze env { decompress := false } input).run ()).1
    (∀ row ∈ report.rows, row.decompression = .notAttempted) ∧ report.contentSize = none ∧
      ∀ issue ∈ report.issues, issue.isStructural = true := by
  intro input env report
  have hempty : (Id.run (scan (pure false) input)).frame.any Frame.isEmpty = false := by
    rw [FrameLayout.scan_encode]
    rfl
  have hcancelled : Ensures (fun _ => True) env.cancelled (· = false) := .pure rfl
  have hdecompress : ({ decompress := false } : Options).decompress = false := rfl
  obtain ⟨hrows, hblocks, -⟩ := analyze_structureOnly hcancelled hdecompress input ()
  obtain ⟨hsize, -, -, hissues⟩ := hblocks hempty
  exact ⟨hrows, hsize, hissues⟩

/-- The content of an empty frame is checked, and its checksum may be wrong. -/
theorem structureOnly_emptyFrame :
    let input : Bytes :=
      #[0x04, 0x22, 0x4D, 0x18, 0x64, 0x40, 0xA7, 0x00, 0x00, 0x00, 0x00, 0x00, 0x00, 0x00, 0x00]
    let report := report .lz4 { decompress := false } input
    report.contentSize = some 0 ∧ report.contentChecksum = .checked ⟨0, 0x02CC5D05⟩ ∧
      report.issues = [.contentChecksumMismatch ⟨0, 0x02CC5D05⟩] := by
  decide +kernel

end Lz4Frame
