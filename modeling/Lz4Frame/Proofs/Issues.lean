import Lz4Frame.Proofs.Content.Blocks

/-! Where the issues of a report come from. Each part of a report has issues of its own kinds, so
an issue that is found in a report says which part it is from. In particular the issues of a row are
about its block, `ScanOutcome.failure_of_mem_rows`, whatever the surroundings did. -/

namespace Lz4Frame

/-- The issues of a row are in two parts, each of which has one issue at most. -/
theorem BlockRow.exists_issues_eq (row : BlockRow) :
    ∃ failures mismatches : List Issue, row.issues = failures ++ mismatches ∧
      failures.length ≤ 1 ∧ mismatches.length ≤ 1 ∧
      (∀ issue, issue ∈ failures ↔ row.decompression = .failed issue) ∧
      ∀ issue, issue ∈ mismatches ↔ ∃ check, row.checksum = .checked check ∧
        check.passed = false ∧ issue = .blockChecksumMismatch row.block.index check := by
  refine ⟨_, _, rfl, ?_, ?_, fun issue => ?_, fun issue => ?_⟩
  · split <;> simp
  · split
    · split_ifs <;> simp
    · simp
  · cases row.decompression <;> simp [eq_comm]
  · cases row.checksum with
    | absent => simp
    | skipped => simp
    | checked check => cases hpassed : check.passed <;> simp [hpassed]

theorem BlockRow.mem_issues_iff {row : BlockRow} {issue : Issue} :
    issue ∈ row.issues ↔ row.decompression = .failed issue ∨
      ∃ check, row.checksum = .checked check ∧ check.passed = false ∧
        issue = .blockChecksumMismatch row.block.index check := by
  obtain ⟨failures, mismatches, hissues, -, -, hfailure, hmismatch⟩ := row.exists_issues_eq
  rw [hissues, List.mem_append, hfailure, hmismatch]

theorem CheckOutcome.mem_contentIssues_iff {outcome : CheckOutcome} {issue : Issue} :
    issue ∈ outcome.contentIssues ↔
      ∃ check, outcome = .checked check ∧ check.passed = false ∧
        issue = .contentChecksumMismatch check := by
  unfold contentIssues
  cases outcome with
  | absent => simp
  | skipped => simp
  | checked check => cases hpassed : check.passed <;> simp [hpassed]

theorem mem_sizeIssues_iff {declared actual : Option ℕ} {issue : Issue} :
    issue ∈ sizeIssues declared actual ↔
      ∃ size size', declared = some size ∧ actual = some size' ∧ size ≠ size' ∧
        issue = .contentSizeMismatch size size' := by
  unfold sizeIssues
  cases declared <;> cases actual <;> simp

theorem mem_trailingIssues_iff {inputSize : ℕ} {frameEnd : Option ℕ} {issue : Issue} :
    issue ∈ trailingIssues inputSize frameEnd ↔
      ∃ stop, frameEnd = some stop ∧ stop < inputSize ∧
        issue = .trailingData stop (inputSize - stop) := by
  unfold trailingIssues
  cases frameEnd <;> simp

theorem mem_cancellationIssues_iff {scan decoding : Option ℕ} {issue : Issue} :
    issue ∈ cancellationIssues scan decoding ↔
      (∃ next, scan = some next ∧ issue = .cancelled .scan next) ∨
        scan = none ∧ ∃ next, decoding = some next ∧ issue = .cancelled .decompression next := by
  unfold cancellationIssues
  cases scan <;> cases decoding <;> simp

theorem mem_cancellationIssues {scan decoding : Option ℕ} {issue : Issue}
    (h : issue ∈ cancellationIssues scan decoding) :
    ∃ phase next, issue = .cancelled phase next := by
  obtain ⟨next, -, rfl⟩ | ⟨-, next, -, rfl⟩ := mem_cancellationIssues_iff.1 h
  · exact ⟨_, next, rfl⟩
  · exact ⟨_, next, rfl⟩

namespace Report

variable {inputSize : ℕ} {scanned : ScanOutcome} {decoded : ContentOutcome}
  {rows : List BlockRow}

theorem mem_issuesOf_iff {issue : Issue} :
    issue ∈ issuesOf inputSize scanned decoded rows ↔
      (∃ row ∈ rows, issue ∈ row.issues) ∨ issue ∈ decoded.contentChecksum.contentIssues ∨
        issue ∈ sizeIssues (declaredSize (scanned.frame.map Frame.header)) decoded.size ∨
        issue ∈ trailingIssues inputSize (scanned.frame.bind Frame.endOffset) ∨
        issue ∈ cancellationIssues scanned.cancelledAt decoded.cancelledAt := by
  simp only [issuesOf, List.mem_append, List.mem_flatMap, or_assoc]

/-- The issues of a kind that has to do neither with the content nor with what lies behind the
frame. -/
theorem filter_issuesOf {kind : Issue → Bool}
    (hchecksum : ∀ check, kind (.contentChecksumMismatch check) = false)
    (hsize : ∀ declared actual, kind (.contentSizeMismatch declared actual) = false)
    (htrailing : ∀ offset length, kind (.trailingData offset length) = false) :
    (issuesOf inputSize scanned decoded rows).filter kind =
      (rows.flatMap BlockRow.issues).filter kind ++
        (cancellationIssues scanned.cancelledAt decoded.cancelledAt).filter kind := by
  have hcontent : decoded.contentChecksum.contentIssues.filter kind = [] := by
    rw [List.filter_eq_nil_iff]
    intro issue hissue
    obtain ⟨check, -, -, rfl⟩ := CheckOutcome.mem_contentIssues_iff.1 hissue
    rw [hchecksum, Bool.not_eq_true]
  have hsizes : (sizeIssues (declaredSize (scanned.frame.map Frame.header))
      decoded.size).filter kind = [] := by
    rw [List.filter_eq_nil_iff]
    intro issue hissue
    obtain ⟨declared, actual, -, -, -, rfl⟩ := mem_sizeIssues_iff.1 hissue
    rw [hsize, Bool.not_eq_true]
  have hbehind : (trailingIssues inputSize (scanned.frame.bind Frame.endOffset)).filter kind =
      [] := by
    rw [List.filter_eq_nil_iff]
    intro issue hissue
    obtain ⟨stop, -, -, rfl⟩ := mem_trailingIssues_iff.1 hissue
    rw [htrailing, Bool.not_eq_true]
  simp only [issuesOf, List.filter_append, hcontent, hsizes, hbehind, List.append_nil]

end Report

/-! ### Rows -/

section Rows

variable {σ : Type} (env : Environment (StateM σ)) (options : Options) (input : Bytes)

/-- A row is about a block of the frame and about what became of it. -/
theorem ScanOutcome.exists_of_mem_rows {scanned : ScanOutcome} {state : σ}
    {fits : Frame → Block → Option DecodedBlock → Prop}
    (hfits : ∀ frame, List.Forall₂ (fits frame) frame.blocks
      ((frame.decodeBlocks env options input).run state).1)
    {row : BlockRow}
    (hrow : row ∈ scanned.rows input ((scanned.decode env options input).run state).1) :
    ∃ frame block decoded, scanned.frame = some frame ∧ block ∈ frame.blocks ∧
      fits frame block decoded ∧ row = .of input block (DecodedBlock.outcome? block decoded) := by
  rcases hframe : scanned.frame with _ | frame
  · rw [rows, hframe] at hrow
    cases hrow
  rw [rows, decode, hframe] at hrow
  dsimp only [Option.elim_some] at hrow
  rw [Frame.run_decode (frame.length_decodeBlocks env options input state)] at hrow
  have hall := hfits frame
  generalize ((frame.decodeBlocks env options input).run state).1 = decoded at hrow hall
  obtain ⟨i, hi, rfl⟩ := List.mem_iff_getElem.1 hrow
  simp only [Frame.outcomeOf, ContentOutcome.of, List.length_zipWith] at hi
  have hi' : i < frame.blocks.length ∧ i < decoded.length := by omega
  refine ⟨frame, frame.blocks[i], decoded[i], rfl, List.getElem_mem _, ?_, ?_⟩
  · exact (List.forall₂_iff_get.1 hall).2 i hi'.1 hi'.2
  · simp only [Frame.outcomeOf, ContentOutcome.of, List.getElem_zipWith]

theorem ScanOutcome.failure_of_mem_rows (scanned : ScanOutcome) (state : σ) :
    ∀ row ∈ scanned.rows input ((scanned.decode env options input).run state).1,
      ∀ issue, row.decompression = .failed issue → row.block.Failure issue := by
  intro row hrow issue hfailed
  obtain ⟨frame, block, decoded, -, -, hsound, rfl⟩ := exists_of_mem_rows env options input
    (fun frame => frame.forall₂_decodeBlocks env options input state) hrow
  cases decoded with
  | none => cases hfailed
  | some decoded => exact (hsound decoded rfl).failure issue hfailed

end Rows

end Lz4Frame
