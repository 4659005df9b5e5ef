import Lz4Frame.Proofs.Cancellation

/-! What a report lists, of whatever outcomes it is made: one row for each position that has both a
block and an outcome, and all issues that there are, each of them once, in a fixed order. The
verdict is told by the error and the list. In the report of an analysis, the blocks are numbered as
their rows are, so an issue about a block leads to the row that it was found in, `Report.faithful`. -/

namespace Lz4Frame

/-! ### Rows -/

theorem ScanOutcome.getElem?_rows_eq_some_iff {scanned : ScanOutcome} {input : Bytes}
    {decoded : ContentOutcome} {i : ℕ} {row : BlockRow} :
    (scanned.rows input decoded)[i]? = some row ↔
      ∃ frame block outcome, scanned.frame = some frame ∧ frame.blocks[i]? = some block ∧
        decoded.blocks[i]? = some outcome ∧ row = .of input block outcome := by
  unfold rows
  cases scanned.frame with
  | none => simp
  | some frame =>
    rw [Option.elim_some, List.getElem?_zipWith_eq_some]
    constructor
    · rintro ⟨block, outcome, hblock, houtcome, rfl⟩
      exact ⟨frame, block, outcome, rfl, hblock, houtcome, rfl⟩
    · rintro ⟨_, block, outcome, ⟨⟩, hblock, houtcome, rfl⟩
      exact ⟨block, outcome, hblock, houtcome, rfl⟩

theorem Bytes.toList_sample (data : Bytes) (start count : ℕ) :
    (data.sample start count).toList = (data.toList.drop start).take count := by
  rw [sample, Array.toList_extract, List.extract_eq_take_drop, Nat.add_sub_cancel_left]

/-- A row is made of a block, what became of it and the first bytes of its body. -/
theorem BlockRow.eq_of_iff {row : BlockRow} {input : Bytes} {block : Block}
    {outcome : BlockOutcome} :
    row = of input block outcome ↔
      row.block = block ∧ row.checksum = outcome.checksum ∧
        row.decompression = outcome.decompression ∧
        row.sample.toList = (input.toList.drop block.bodyOffset).take (min 16 block.size) := by
  obtain ⟨block', checksum, decompression, sample⟩ := row
  rw [← Bytes.toList_sample, Array.toList_inj, of, mk.injEq]
  rfl

/-! ### Issues -/

section Part

variable {found : Issue → Prop} {issues : List Issue}

/-- A part of a list of issues that has one of them at most. -/
theorem exists_part (hlength : issues.length ≤ 1) (h : ∀ issue, issue ∈ issues ↔ found issue) :
    ∃ part : Option Issue, (∀ issue, part = some issue ↔ found issue) ∧ part.toList = issues := by
  rcases issues with _ | ⟨first, _ | ⟨_, _⟩⟩
  · exact ⟨none, fun issue => by simp [← h], rfl⟩
  · exact ⟨some first, fun issue => by simp [← h, eq_comm], rfl⟩
  · simp at hlength

/-- There is no other such part. -/
theorem toList_part (hlength : issues.length ≤ 1) (h : ∀ issue, issue ∈ issues ↔ found issue)
    {part : Option Issue} (hpart : ∀ issue, part = some issue ↔ found issue) :
    part.toList = issues := by
  obtain ⟨part', hpart', rfl⟩ := exists_part hlength h
  have heq : part = part' := Option.ext fun issue => (hpart issue).trans (hpart' issue).symm
  rw [heq]

end Part

namespace BlockRow

/-- What is listed of one row: that its content could not be had, and then that its checksum does
not fit. -/
structure Parts (row : BlockRow) (issues : List Issue) where
  failure : Option Issue
  mismatch : Option Issue
  failure_iff : ∀ issue, failure = some issue ↔ row.decompression = .failed issue
  mismatch_iff : ∀ issue, mismatch = some issue ↔ ∃ check, row.checksum = .checked check ∧
    check.passed = false ∧ issue = .blockChecksumMismatch row.block.index check
  issues_eq : issues = failure.toList ++ mismatch.toList

theorem nonempty_parts_iff {row : BlockRow} {issues : List Issue} :
    Nonempty (row.Parts issues) ↔ issues = row.issues := by
  obtain ⟨failures, mismatches, hissues, hfailures, hmismatches, hmem, hmem'⟩ :=
    row.exists_issues_eq
  rw [hissues]
  constructor
  · rintro ⟨parts⟩
    rw [parts.issues_eq, toList_part hfailures hmem parts.failure_iff,
      toList_part hmismatches hmem' parts.mismatch_iff]
  · rintro rfl
    obtain ⟨failure, hfailure, rfl⟩ := exists_part hfailures hmem
    obtain ⟨mismatch, hmismatch, rfl⟩ := exists_part hmismatches hmem'
    exact ⟨⟨failure, mismatch, hfailure, hmismatch, rfl⟩⟩

end BlockRow

namespace Report

/-- The parts of a list of issues, in their order. -/
structure Parts (inputSize : ℕ) (scanned : ScanOutcome) (decoded : ContentOutcome)
    (rows : List BlockRow) (issues : List Issue) where
  ofRows : List (List Issue)
  checksum : Option Issue
  size : Option Issue
  trailing : Option Issue
  cancelled : Option Issue
  ofRows_parts : List.Forall₂ (fun row issues => Nonempty (row.Parts issues)) rows ofRows
  checksum_iff : ∀ issue, checksum = some issue ↔ ∃ check,
    decoded.contentChecksum = .checked check ∧ check.passed = false ∧
      issue = .contentChecksumMismatch check
  size_iff : ∀ issue, size = some issue ↔ ∃ declared actual,
    declaredSize (scanned.frame.map Frame.header) = some declared ∧ decoded.size = some actual ∧
      declared ≠ actual ∧ issue = .contentSizeMismatch declared actual
  trailing_iff : ∀ issue, trailing = some issue ↔ ∃ stop,
    scanned.frame.bind Frame.endOffset = some stop ∧ stop < inputSize ∧
      issue = .trailingData stop (inputSize - stop)
  cancelled_iff : ∀ issue, cancelled = some issue ↔
    (∃ next, scanned.cancelledAt = some next ∧ issue = .cancelled .scan next) ∨
      scanned.cancelledAt = none ∧
        ∃ next, decoded.cancelledAt = some next ∧ issue = .cancelled .decompression next
  issues_eq : issues = ofRows.flatten ++ checksum.toList ++ size.toList ++ trailing.toList ++
    cancelled.toList

theorem length_contentIssues (outcome : CheckOutcome) : outcome.contentIssues.length ≤ 1 := by
  unfold CheckOutcome.contentIssues
  split
  · split_ifs <;> simp
  · simp

theorem length_sizeIssues (declared actual : Option ℕ) :
    (sizeIssues declared actual).length ≤ 1 := by
  unfold sizeIssues
  split
  · split_ifs <;> simp
  · simp

theorem length_trailingIssues (inputSize : ℕ) (frameEnd : Option ℕ) :
    (trailingIssues inputSize frameEnd).length ≤ 1 := by
  unfold trailingIssues
  split
  · split_ifs <;> simp
  · simp

theorem length_cancellationIssues (scan decoding : Option ℕ) :
    (cancellationIssues scan decoding).length ≤ 1 := by
  unfold cancellationIssues
  split <;> simp

variable {inputSize : ℕ} {scanned : ScanOutcome} {decoded : ContentOutcome}
  {rows : List BlockRow} {issues : List Issue}

/-- There is exactly one list that has these parts. -/
theorem nonempty_parts_iff :
    Nonempty (Parts inputSize scanned decoded rows issues) ↔
      issues = issuesOf inputSize scanned decoded rows := by
  have hrows : ∀ ofRows : List (List Issue),
      List.Forall₂ (fun row issues => Nonempty (row.Parts issues)) rows ofRows ↔
        ofRows = rows.map BlockRow.issues := by
    intro ofRows
    rw [@eq_comm _ ofRows, ← List.forall₂_eq_eq_eq, List.forall₂_map_left_iff]
    simp only [BlockRow.nonempty_parts_iff, eq_comm]
  constructor
  · rintro ⟨parts⟩
    rw [parts.issues_eq, issuesOf, (hrows _).1 parts.ofRows_parts, List.flatMap,
      toList_part (length_contentIssues _) (fun _ => CheckOutcome.mem_contentIssues_iff)
        parts.checksum_iff,
      toList_part (length_sizeIssues _ _) (fun _ => mem_sizeIssues_iff) parts.size_iff,
      toList_part (length_trailingIssues _ _) (fun _ => mem_trailingIssues_iff)
        parts.trailing_iff,
      toList_part (length_cancellationIssues _ _) (fun _ => mem_cancellationIssues_iff)
        parts.cancelled_iff]
  · rintro rfl
    obtain ⟨checksum, hchecksum, hchecksums⟩ := exists_part
      (length_contentIssues decoded.contentChecksum) fun _ => CheckOutcome.mem_contentIssues_iff
    obtain ⟨size, hsize, hsizes⟩ := exists_part (length_sizeIssues _ _) fun _ => mem_sizeIssues_iff
    obtain ⟨trailing, htrailing, htrailings⟩ := exists_part (length_trailingIssues _ _)
      fun _ => mem_trailingIssues_iff
    obtain ⟨cancelled, hcancelled, hcancellations⟩ := exists_part (length_cancellationIssues _ _)
      fun _ => mem_cancellationIssues_iff
    refine ⟨⟨rows.map BlockRow.issues, checksum, size, trailing, cancelled, (hrows _).2 rfl,
      hchecksum, hsize, htrailing, hcancelled, ?_⟩⟩
    rw [issuesOf, hchecksums, hsizes, htrailings, hcancellations, List.flatMap]

end Report

/-! ### Numbers -/

namespace Scanner

theorem index_of_next {scanner scanner' : Scanner} {block : Block}
    (h : scanner.next = (some (.ok block), scanner')) : block.index = scanner.found := by
  obtain ⟨_, hread, -⟩ := exists_of_next h
  obtain ⟨-, _, _, rfl⟩ := exists_of_readBlock hread
  rfl

/-- Each block has the number of its position. -/
def Numbered (found : Array Block) : Prop :=
  ∀ (i : ℕ) (block : Block), found[i]? = some block → block.index = i

theorem Numbered.push {found : Array Block} {block : Block} (hfound : Numbered found)
    (hblock : block.index = found.size) : Numbered (found.push block) := by
  intro i other hother
  rw [Array.getElem?_push] at hother
  split_ifs at hother with hi
  · cases hother
    rw [hblock, hi]
  · exact hfound i other hother

variable {σ : Type}

/-- A walk counts the blocks that it finds, wherever it is cancelled. -/
theorem walk_numbered (cancelled : StateM σ Bool) (scanner : Scanner) (found : Array Block)
    (hcount : scanner.found = found.size) (hfound : Numbered found) :
    Ensures (fun _ => True) (walk cancelled scanner found) fun walked => Numbered walked.1 := by
  fun_induction walk cancelled scanner found with
  | case1 scanner found ih =>
    refine .bind (.trivial cancelled) fun answer _ => ?_
    split_ifs
    · exact .pure hfound
    · split
      next => exact .pure hfound
      next => exact .pure hfound
      next block scanner' hnext =>
        have hindex := index_of_next hnext
        refine ih block scanner' hnext ?_ (hfound.push (hindex.trans hcount))
        rw [found_of_next hnext, hcount, Array.size_push]

end Scanner

section Analysis

variable {σ : Type} (env : Environment (StateM σ)) (options : Options) (input : Bytes) (state : σ)

/-- Whatever a scan finds before it ends, it numbers from the front. -/
theorem index_of_run_scan {cancelled : StateM σ Bool} {frame : Frame}
    (hframe : ((scan cancelled input).run state).1.frame = some frame) {i : ℕ} {block : Block}
    (hblock : frame.blocks[i]? = some block) : block.index = i := by
  have hscan : Ensures (fun _ => True) (scan cancelled input) fun scanned =>
      ∀ frame, scanned.frame = some frame → Scanner.Numbered frame.blocks.toArray := by
    unfold scan
    split
    next => exact .pure nofun
    next header source hread =>
      split
      next =>
        refine .pure fun frame hframe => ?_
        cases hframe
        nofun
      next scanner hstart =>
        have hnumbered := scanner.walk_numbered cancelled #[] (Scanner.found_of_start hstart) nofun
        refine .bind hnumbered fun walked hwalked => .pure fun frame hframe => ?_
        obtain ⟨_, hconclude, -, hblocks⟩ :=
          header.frame_conclude walked.1.toList walked.2.1 walked.2.2
        rw [hconclude] at hframe
        cases hframe
        rwa [hblocks]
  exact (hscan state .intro).1 frame hframe i block (by simpa using hblock)

theorem blockIndex_of_failure {block : Block} {issue : Issue} (h : block.Failure issue) :
    issue.blockIndex = some block.index := by
  rcases h with ⟨max, rfl⟩ | ⟨reason, rfl⟩
  · rfl
  · rfl

theorem index_of_getElem?_rows {i : ℕ} {row : BlockRow}
    (h : ((analyze env options input).run state).1.rows[i]? = some row) :
    row.block.index = i := by
  rw [run_analyze, Report.rows_of] at h
  obtain ⟨frame, block, outcome, hframe, hblock, -, rfl⟩ :=
    ScanOutcome.getElem?_rows_eq_some_iff.1 h
  exact index_of_run_scan input state hframe hblock

/-- An issue about a block is one of the row that has the number of the block. -/
theorem exists_row_of_blockIndex {issue : Issue}
    (hissue : issue ∈ ((analyze env options input).run state).1.issues) {i : ℕ}
    (hindex : issue.blockIndex = some i) :
    ∃ row, ((analyze env options input).run state).1.rows[i]? = some row ∧
      (row.decompression = .failed issue ∨ ∃ check, row.checksum = .checked check ∧
        check.passed = false ∧ issue = .blockChecksumMismatch i check) := by
  have hnumbered : ∀ {j : ℕ} {row : BlockRow},
      ((analyze env options input).run state).1.rows[j]? = some row →
      row.block.index = j := index_of_getElem?_rows env options input state
  rw [run_analyze] at hissue hnumbered ⊢
  rw [Report.rows_of] at hnumbered ⊢
  rcases Report.mem_issuesOf_iff.1 hissue with ⟨row, hrow, hissue⟩ | hissue | hissue | hissue |
    hissue
  · obtain ⟨j, hj⟩ := List.mem_iff_getElem?.1 hrow
    obtain rfl := hnumbered hj
    rcases BlockRow.mem_issues_iff.1 hissue with hfailed | ⟨check, hcheck, hpassed, rfl⟩
    · have hfailure := ScanOutcome.failure_of_mem_rows env options input _ _ row hrow issue hfailed
      rw [blockIndex_of_failure hfailure] at hindex
      cases hindex
      exact ⟨row, hj, .inl hfailed⟩
    · cases hindex
      exact ⟨row, hj, .inr ⟨check, hcheck, hpassed, rfl⟩⟩
  · obtain ⟨check, -, -, rfl⟩ := CheckOutcome.mem_contentIssues_iff.1 hissue
    cases hindex
  · obtain ⟨declared, actual, -, -, -, rfl⟩ := mem_sizeIssues_iff.1 hissue
    cases hindex
  · obtain ⟨stop, -, -, rfl⟩ := mem_trailingIssues_iff.1 hissue
    cases hindex
  · obtain ⟨phase, next, rfl⟩ := mem_cancellationIssues hissue
    cases hindex

end Analysis

/-- Of a header, a report looks at the content size alone. The header itself is passed on. -/
theorem Report.of_header {input : Bytes} {scanned : ScanOutcome} {decoded : ContentOutcome}
    {frame : Frame} {header : Header} (hframe : scanned.frame = some frame)
    (hsize : header.contentSize = frame.header.contentSize) :
    of input { scanned with frame := some { frame with header } } decoded =
      { of input scanned decoded with header := some header } := by
  obtain ⟨_, fatal, cancelledAt⟩ := scanned
  subst hframe
  have hdeclared : declaredSize (some header) = declaredSize (some frame.header) :=
    congrArg (Option.map UInt64.toNat) hsize
  simp only [of, issuesOf, ScanOutcome.rows, Option.elim_some, Option.map_some, Option.bind_some,
    hdeclared]

/-- **Reports.** A report of whatever outcomes has a row for each position in both lists, with the
first bytes of the body, and lists exactly the issues that there are, in their order. It is invalid
for the error of the scan, and else partially valid for these issues if there are any. In the report
of an analysis, a block has the number of its row, and each issue that is about a block is one that
the row of that number has. -/
theorem Report.faithful :
    (∀ (input : Bytes) (scanned : ScanOutcome) (decoded : ContentOutcome),
      let report := of input scanned decoded
      (∀ (i : ℕ) (row : BlockRow), report.rows[i]? = some row ↔ ∃ frame block outcome,
        scanned.frame = some frame ∧ frame.blocks[i]? = some block ∧
          decoded.blocks[i]? = some outcome ∧ row.block = block ∧
          row.checksum = outcome.checksum ∧ row.decompression = outcome.decompression ∧
          row.sample.toList = (input.toList.drop block.bodyOffset).take (min 16 block.size)) ∧
      (∀ issues, issues = report.issues ↔
        Nonempty (Parts input.size scanned decoded report.rows issues)) ∧
      (∀ error, report.verdict = .invalid error ↔ scanned.fatal = some error) ∧
      (∀ issues, report.verdict = .partiallyValid issues ↔
        scanned.fatal = none ∧ report.issues = issues ∧ report.issues ≠ []) ∧
      (report.verdict = .ok ↔ scanned.fatal = none ∧ report.issues = [])) ∧
    ∀ {σ : Type} (env : Environment (StateM σ)) (options : Options) (input : Bytes) (state : σ),
      let report := ((analyze env options input).run state).1
      (∀ (i : ℕ) (row : BlockRow), report.rows[i]? = some row → row.block.index = i) ∧
      ∀ issue ∈ report.issues, ∀ i, issue.blockIndex = some i →
        ∃ row, report.rows[i]? = some row ∧
          (row.decompression = .failed issue ∨ ∃ check, row.checksum = .checked check ∧
            check.passed = false ∧ issue = .blockChecksumMismatch i check) := by
  constructor
  · intro input scanned decoded report
    have hrows : ∀ (i : ℕ) (row : BlockRow), report.rows[i]? = some row ↔ _ :=
      fun _ _ => ScanOutcome.getElem?_rows_eq_some_iff
    simp only [BlockRow.eq_of_iff] at hrows
    exact ⟨hrows, fun _ => nonempty_parts_iff.symm,
      fun _ => Verdict.ofFindings_eq_invalid_iff,
      fun _ => Verdict.ofFindings_eq_partiallyValid_iff, Verdict.ofFindings_eq_ok_iff⟩
  · intro σ env options input state report
    exact ⟨fun _ _ hrow => index_of_getElem?_rows env options input state hrow,
      fun _ hissue _ hindex => exists_row_of_blockIndex env options input state hissue hindex⟩

/-- The second of the three blocks has no content, which is said in its row and once in the list. -/
theorem Report.faithful_letters :
    let input := FrameLayout.letters.encode.toArray
    let report := ((analyze (.ticking .backward) {} input).run 0).1
    let issue := Issue.decompressionFailure 1 (.corrupted "expected another byte, found none")
    report.verdict = .partiallyValid [issue] ∧
      ∃ row, report.rows[1]? = some row ∧ row.block.index = 1 ∧
        row.decompression = .failed issue := by
  intro input report issue
  have hissues : report.issues = [issue] := by decide +kernel
  have hfatal : ((scan (Environment.ticking .backward).cancelled input).run 0).1.fatal = none := by
    decide +kernel
  obtain ⟨hof, hanalyze⟩ := faithful
  obtain ⟨-, -, -, hverdict, -⟩ := hof input _ _
  obtain ⟨hnumbered, hrow⟩ := hanalyze (.ticking .backward) {} input 0
  refine ⟨(hverdict _).2 ⟨hfatal, hissues, hissues ▸ List.cons_ne_nil _ _⟩, ?_⟩
  · obtain ⟨row, hrow, hfailed | ⟨check, -, -, hmismatch⟩⟩ :=
      hrow issue (hissues ▸ List.mem_singleton_self issue) 1 rfl
    · exact ⟨row, hrow, hnumbered 1 row hrow, hfailed⟩
    · exact absurd hmismatch nofun

end Lz4Frame
