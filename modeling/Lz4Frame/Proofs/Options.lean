import Lz4Frame.Proofs.Identification
import Lz4Frame.Proofs.Isolation
import Lz4Frame.Proofs.Report

/-! Options do not get in each other's way. What an analysis finds does not depend on what is kept or
verified of it: without its content a report is the same, and a report without verification is the
other one with the checks left out, `Report.unverified`. How blocks are stored is told without
expanding any of them. To refuse big blocks is a matter of these blocks, and of the ones linked to
them, `analyze_options`. -/

namespace Lz4Frame

variable {decompressor : Decompressor} {options : Options} {input : Bytes} {frame : Frame}

/-! ### What is kept -/

theorem ScanOutcome.decodeAll_keepContent (decompressor : Decompressor) (options : Options)
    (input : Bytes) (scanned : ScanOutcome) (keep : Bool) :
    let decoded := scanned.decodeAll decompressor options input
    let decoded' := scanned.decodeAll decompressor { options with keepContent := keep } input
    decoded' = { decoded with content := decoded'.content } ∧
      decoded'.content.isSome = (keep && decoded'.size.isSome) := by
  unfold decodeAll
  rcases scanned.frame with _ | frame
  · exact ⟨rfl, (Bool.and_false keep).symm⟩
  · have hdecoded : frame.decodeAll decompressor { options with keepContent := keep } input =
        frame.decodeAll decompressor options input := Frame.decodeAll_congr rfl rfl
    simp only [Option.elim_some, hdecoded]
    refine ⟨rfl, ?_⟩
    cases keep with
    | false => rfl
    | true => exact (Option.isSome_map).symm

/-! ### What is verified -/

/-- The issue is that some checksum does not fit. -/
def Issue.isChecksum : Issue → Bool
  | .blockChecksumMismatch .. => true
  | .contentChecksumMismatch _ => true
  | _ => false

/-- The same with no check made. -/
def CheckOutcome.unverified : CheckOutcome → CheckOutcome
  | .checked _ => .skipped
  | outcome => outcome

def BlockOutcome.unverified (outcome : BlockOutcome) : BlockOutcome :=
  { outcome with checksum := outcome.checksum.unverified }

def DecodedBlock.unverified (decoded : DecodedBlock) : DecodedBlock :=
  { decoded with outcome := decoded.outcome.unverified }

def ContentOutcome.unverified (decoded : ContentOutcome) : ContentOutcome :=
  { decoded with
    blocks := decoded.blocks.map BlockOutcome.unverified
    contentChecksum := decoded.contentChecksum.unverified }

def BlockRow.unverified (row : BlockRow) : BlockRow :=
  { row with checksum := row.checksum.unverified }

/-- A report with no check made, and so without the issues of checksums that do not fit. -/
def Report.unverified (report : Report) : Report :=
  let issues := report.issues.filter (!·.isChecksum)
  { report with
    rows := report.rows.map BlockRow.unverified
    contentChecksum := report.contentChecksum.unverified
    issues
    verdict := .ofFindings report.fatalError issues }

theorem CheckOutcome.contentIssues_unverified (outcome : CheckOutcome) :
    outcome.unverified.contentIssues = outcome.contentIssues.filter (!·.isChecksum) := by
  have hunverified : outcome.unverified.contentIssues = [] := by
    cases outcome <;> rfl
  rw [hunverified, eq_comm, List.filter_eq_nil_iff]
  intro issue hissue
  obtain ⟨check, -, -, rfl⟩ := mem_contentIssues_iff.1 hissue
  exact Bool.false_ne_true

theorem Block.Failure.isChecksum {block : Block} {issue : Issue} (h : block.Failure issue) :
    issue.isChecksum = false := by
  obtain ⟨max, rfl⟩ | ⟨reason, rfl⟩ := h
  · rfl
  · rfl

theorem BlockRow.issues_unverified {row : BlockRow}
    (h : ∀ issue, row.decompression = .failed issue → row.block.Failure issue) :
    row.unverified.issues = row.issues.filter (!·.isChecksum) := by
  unfold issues
  dsimp only
  rw [List.filter_append]
  congr 1
  · rw [unverified]
    cases hdecompression : row.decompression with
    | notAttempted => rfl
    | decompressed size => rfl
    | failed issue => simp [(h issue hdecompression).isChecksum]
  · rw [unverified]
    cases row.checksum with
    | absent => rfl
    | skipped => rfl
    | checked check =>
      cases hpassed : check.passed <;> simp [CheckOutcome.unverified, hpassed, Issue.isChecksum]

namespace Report

variable {scanned : ScanOutcome} {decoded : ContentOutcome}

theorem rows_unverified (scanned : ScanOutcome) (input : Bytes) (decoded : ContentOutcome) :
    scanned.rows input decoded.unverified = (scanned.rows input decoded).map BlockRow.unverified := by
  unfold ScanOutcome.rows ContentOutcome.unverified
  rcases scanned.frame with _ | frame
  · rfl
  · rw [Option.elim_some, Option.elim_some, List.zipWith_map_right, List.map_zipWith]
    rfl

theorem ofRows_unverified (rows : List BlockRow) :
    BlockStats.ofRows (rows.map BlockRow.unverified) = .ofRows rows := by
  rw [BlockStats.ofRows, List.foldl_map]
  rfl

theorem issuesOf_unverified {inputSize : ℕ} {rows : List BlockRow}
    (h : ∀ row ∈ rows, ∀ issue, row.decompression = .failed issue → row.block.Failure issue) :
    issuesOf inputSize scanned decoded.unverified (rows.map BlockRow.unverified) =
      (issuesOf inputSize scanned decoded rows).filter (!·.isChecksum) := by
  have hrows : (rows.map BlockRow.unverified).flatMap BlockRow.issues =
      (rows.flatMap BlockRow.issues).filter (!·.isChecksum) := by
    rw [List.flatMap_map, List.filter_flatMap]
    exact List.flatMap_congr fun row hrow => BlockRow.issues_unverified (h row hrow)
  -- of what is behind the two kinds of checksums, nothing is dropped
  have hsize : (sizeIssues (declaredSize (scanned.frame.map Frame.header)) decoded.size).filter
      (!·.isChecksum) =
        sizeIssues (declaredSize (scanned.frame.map Frame.header)) decoded.size := by
    refine List.filter_eq_self.2 fun issue hissue => ?_
    obtain ⟨declared, actual, -, -, -, rfl⟩ := mem_sizeIssues_iff.1 hissue
    rfl
  have htrailing : (trailingIssues inputSize (scanned.frame.bind Frame.endOffset)).filter
      (!·.isChecksum) = trailingIssues inputSize (scanned.frame.bind Frame.endOffset) := by
    refine List.filter_eq_self.2 fun issue hissue => ?_
    obtain ⟨stop, -, -, rfl⟩ := mem_trailingIssues_iff.1 hissue
    rfl
  have hcancelled : (cancellationIssues scanned.cancelledAt decoded.cancelledAt).filter
      (!·.isChecksum) = cancellationIssues scanned.cancelledAt decoded.cancelledAt := by
    refine List.filter_eq_self.2 fun issue hissue => ?_
    obtain ⟨phase, next, rfl⟩ := mem_cancellationIssues hissue
    rfl
  simp only [issuesOf, List.filter_append, hrows, hsize, htrailing, hcancelled]
  rw [← CheckOutcome.contentIssues_unverified]
  rfl

/-- What is left of a report if no check is made follows from the report. -/
theorem of_unverified (h : ∀ row ∈ scanned.rows input decoded,
      ∀ issue, row.decompression = .failed issue → row.block.Failure issue) :
    of input scanned decoded.unverified = (of input scanned decoded).unverified := by
  unfold Report.unverified
  rw [fatalError_of]
  unfold of
  simp only [rows_unverified, ofRows_unverified, issuesOf_unverified h]
  rfl

end Report

namespace Decoder

/-- What does not touch any content does not touch any history. -/
theorem decodeAll_map {decoder decoder' : Decoder Id} {f : DecodedBlock → DecodedBlock}
    (hcontent : ∀ decoded, (f decoded).content = decoded.content)
    (hblock : ∀ history block, Id.run (decoder'.decodeBlock history block) =
      f (Id.run (decoder.decodeBlock history block)))
    (linked : Bool) (history : Bytes) (blocks : List Block) :
    decoder'.decodeAll linked history blocks = (decoder.decodeAll linked history blocks).map f := by
  induction blocks generalizing history with
  | nil => rfl
  | cons block blocks ih =>
    rw [decodeAll, decodeAll, hblock, hcontent, ih]
    rfl

end Decoder

theorem DecodedBlock.ofContent_unverified (checksum : CheckOutcome) (content : Except Issue Bytes) :
    ofContent checksum.unverified content = (ofContent checksum content).unverified := by
  cases content <;> rfl

theorem Frame.decodePure_unverified (history : Bytes) (block : Block) :
    frame.decodePure decompressor { options with verifyChecksums := false } input history block =
      (frame.decodePure decompressor { options with verifyChecksums := true } input history
        block).unverified := by
  have hcheck : ∀ body, block.check false body = (block.check true body).unverified := by
    intro body
    unfold Block.check
    cases block.checksum <;> rfl
  unfold decodePure Decoder.decodeBlock
  dsimp only
  rw [hcheck]
  cases options.decompress with
  | false => rfl
  | true => exact DecodedBlock.ofContent_unverified _ _

theorem Frame.decodeAll_unverified :
    frame.decodeAll decompressor { options with verifyChecksums := false } input =
      (frame.decodeAll decompressor { options with verifyChecksums := true } input).map
        DecodedBlock.unverified := by
  have hcontent : ∀ decoded : DecodedBlock, decoded.unverified.content = decoded.content :=
    fun _ => rfl
  refine Decoder.decodeAll_map hcontent ?_ _ _ _
  exact decodePure_unverified

theorem CheckOutcome.ofContent_unverified (announced : Bool) (stored : Option UInt32)
    (content : Option Bytes) :
    ofContent announced false stored content = (ofContent announced true stored content).unverified := by
  unfold ofContent
  cases announced <;> cases stored <;> cases content <;> rfl

theorem ScanOutcome.decodeAll_unverified (scanned : ScanOutcome) :
    scanned.decodeAll decompressor { options with verifyChecksums := false } input =
      (scanned.decodeAll decompressor { options with verifyChecksums := true } input).unverified := by
  unfold decodeAll
  rcases scanned.frame with _ | frame
  · rfl
  · rw [Option.elim_some, Option.elim_some, Frame.decodeAll_unverified,
      Frame.outcomeOf_map_some _ (by rw [List.length_map, Frame.length_decodeAll]),
      Frame.outcomeOf_map_some _ Frame.length_decodeAll]
    simp only [ContentOutcome.of, ContentOutcome.unverified, CheckOutcome.ofContent_unverified,
      List.map_map]
    rfl

/-! ### What is expanded -/

/-- What a row says about its block as it is stored. -/
def BlockRow.asStored (row : BlockRow) : Block × Bytes × CheckOutcome :=
  (row.block, row.sample, row.checksum)

/-- How blocks are stored is told without expanding any of them. -/
theorem map_asStored_rows (hscan : (Id.run (scan (pure false) input)).frame = some frame) :
    (report decompressor options input).rows.map BlockRow.asStored =
      frame.blocks.map fun block =>
        (block, input.sample block.bodyOffset (min Format.sampleSize block.size),
          block.check options.verifyChecksums (block.body input)) := by
  refine List.ext_getElem? fun j => ?_
  rw [List.getElem?_map, List.getElem?_map, getElem?_rows_report hscan]
  rcases hblock : frame.blocks[j]? with _ | block
  · rfl
  · obtain ⟨history, hdecoded⟩ : ∃ history, (frame.decodeAll decompressor options input)[j]? =
        some (frame.decodePure decompressor options input history block) :=
      Decoder.exists_getElem?_decodeAll hblock
    rw [hdecoded, Option.bind_some, Option.map_some, Option.map_some, Option.map_some,
      ← Frame.checksum_decodePure history block]
    rfl

/-! ### What is refused -/

namespace Frame

variable {j : ℕ}

/-- To refuse big blocks makes no difference to others. -/
theorem decodePure_strictBlockSize (strict : Bool) {block : Block}
    (h : block.size ≤ frame.header.maxBlockSize) (history : Bytes) :
    frame.decodePure decompressor { options with strictBlockSize := strict } input history block =
      frame.decodePure decompressor options input history block := by
  have hfits : ∀ strict : Bool,
      (strict && decide (frame.header.maxBlockSize < block.size)) = false := by
    intro strict
    rw [decide_eq_false (Nat.not_lt.2 h), Bool.and_false]
  unfold decodePure Decoder.decodeBlock Block.content limits
  simp only [hfits]
  rfl

/-- A block that is refused. -/
theorem decompression_decodePure (hdecompress : options.decompress = true)
    (hstrict : options.strictBlockSize = true) {block : Block}
    (h : frame.header.maxBlockSize < block.size) (history : Bytes) :
    (frame.decodePure decompressor options input history block).outcome.decompression =
      .failed (.oversizedBlock block.index block.size frame.header.maxBlockSize) := by
  unfold decodePure Decoder.decodeBlock Block.content limits
  simp only [hdecompress, hstrict, h]
  rfl

theorem getElem?_decodeAll_strictBlockSize (strict : Bool)
    (h : ∀ i block, i ≤ j → frame.blocks[i]? = some block →
      block.size ≤ frame.header.maxBlockSize) :
    (frame.decodeAll decompressor { options with strictBlockSize := strict } input)[j]? =
      (frame.decodeAll decompressor options input)[j]? :=
  Decoder.getElem?_decodeAll_congr
    (fun i block hi hblock => decodePure_strictBlockSize strict (h i block hi hblock)) _

theorem decodeAll_strictBlockSize (strict : Bool)
    (h : ∀ block ∈ frame.blocks, block.size ≤ frame.header.maxBlockSize) :
    frame.decodeAll decompressor { options with strictBlockSize := strict } input =
      frame.decodeAll decompressor options input :=
  List.ext_getElem? fun _ => getElem?_decodeAll_strictBlockSize strict
    fun _ block _ hblock => h block (List.mem_of_getElem? hblock)

/-- An independent block does not even feel what becomes of the ones before it. -/
theorem getElem?_decodeAll_strictBlockSize_of_independent
    (hindependent : frame.header.descriptor.independentBlocks = true) (strict : Bool)
    (h : ∀ block, frame.blocks[j]? = some block → block.size ≤ frame.header.maxBlockSize) :
    (frame.decodeAll decompressor { options with strictBlockSize := strict } input)[j]? =
      (frame.decodeAll decompressor options input)[j]? := by
  rw [decodeAll_of_independent hindependent, decodeAll_of_independent hindependent,
    List.getElem?_map, List.getElem?_map]
  rcases hblock : frame.blocks[j]? with _ | block
  · rfl
  · exact congrArg some (decodePure_strictBlockSize strict (h block hblock) _)

end Frame

/-! ### Reports -/

theorem report_keepContent (decompressor : Decompressor) (options : Options) (input : Bytes)
    (keep : Bool) :
    let kept := report decompressor { options with keepContent := keep } input
    kept = { report decompressor options input with content := kept.content } ∧
      kept.content.isSome = (keep && kept.contentSize.isSome) := by
  obtain ⟨hsame, hcontent⟩ := ScanOutcome.decodeAll_keepContent decompressor options input
    (Id.run (scan (pure false) input)) keep
  rw [report_eq_of, report_eq_of]
  exact ⟨congrArg (Report.of input _) hsame, hcontent⟩

/-- Where nothing is verified, a report has no checks, and all else of the one where it is. -/
theorem report_unverified
    (h : ∀ row ∈ (report decompressor { options with verifyChecksums := true } input).rows,
      ∀ issue, row.decompression = .failed issue → row.block.Failure issue) :
    report decompressor { options with verifyChecksums := false } input =
      (report decompressor { options with verifyChecksums := true } input).unverified := by
  rw [report_eq_of] at h ⊢
  rw [report_eq_of, ScanOutcome.decodeAll_unverified, Report.of_unverified h]

/-- The header is a matter of the scan. -/
theorem header_report (decompressor : Decompressor) (options : Options) (input : Bytes) :
    (report decompressor options input).header =
      (Id.run (scan (pure false) input)).frame.map Frame.header := by
  rw [report_eq_of]
  rfl

theorem frameEnd_report (decompressor : Decompressor) (options : Options) (input : Bytes) :
    (report decompressor options input).frameEnd =
      (Id.run (scan (pure false) input)).frame.bind Frame.endOffset := by
  rw [report_eq_of]
  rfl

theorem rows_report_of_none (hscan : (Id.run (scan (pure false) input)).frame = none) :
    (report decompressor options input).rows = [] := by
  rw [report_eq_of, Report.rows_of, ScanOutcome.rows, hscan, Option.elim_none]

section Rows

variable (hscan : (Id.run (scan (pure false) input)).frame = some frame) {j : ℕ}
include hscan

theorem getElem?_rows_report_congr {options' : Options}
    (h : (frame.decodeAll decompressor options' input)[j]? =
      (frame.decodeAll decompressor options input)[j]?) :
    (report decompressor options' input).rows[j]? =
      (report decompressor options input).rows[j]? := by
  rw [getElem?_rows_report hscan, getElem?_rows_report hscan, h]

/-- A row is about the block of its number. -/
theorem getElem?_blocks_of_getElem?_rows {row : BlockRow}
    (hrow : (report decompressor options input).rows[j]? = some row) :
    frame.blocks[j]? = some row.block := by
  obtain ⟨block, decoded, hblock, -, rfl⟩ := exists_of_getElem?_rows_report hscan hrow
  exact hblock

theorem exists_getElem?_rows {block : Block} (hblock : frame.blocks[j]? = some block) :
    ∃ row, (report decompressor options input).rows[j]? = some row ∧ row.block = block := by
  have hblocks : (report decompressor options input).rows.map BlockRow.block = frame.blocks :=
    map_block_rows_report hscan
  rw [← hblocks, List.getElem?_map] at hblock
  exact Option.map_eq_some_iff.1 hblock

theorem getElem?_rows_strictBlockSize (strict : Bool)
    (h : ∀ (i : ℕ) (row : BlockRow), i ≤ j →
      (report decompressor options input).rows[i]? = some row →
        row.block.size ≤ frame.header.maxBlockSize) :
    (report decompressor { options with strictBlockSize := strict } input).rows[j]? =
      (report decompressor options input).rows[j]? := by
  refine getElem?_rows_report_congr hscan (Frame.getElem?_decodeAll_strictBlockSize strict ?_)
  intro i block hi hblock
  obtain ⟨row, hrow, rfl⟩ := exists_getElem?_rows hscan hblock
  exact h i row hi hrow

theorem getElem?_rows_strictBlockSize_of_independent
    (hindependent : frame.header.descriptor.independentBlocks = true) (strict : Bool)
    {row : BlockRow} (hrow : (report decompressor options input).rows[j]? = some row)
    (h : row.block.size ≤ frame.header.maxBlockSize) :
    (report decompressor { options with strictBlockSize := strict } input).rows[j]? = some row := by
  rw [← hrow]
  refine getElem?_rows_report_congr hscan
    (Frame.getElem?_decodeAll_strictBlockSize_of_independent hindependent strict ?_)
  intro block hblock
  obtain rfl := Option.some_inj.1 ((getElem?_blocks_of_getElem?_rows hscan hrow).symm.trans hblock)
  exact h

/-- The row of a block that is refused. -/
theorem decompression_of_getElem?_rows {row : BlockRow}
    (hrow : (report decompressor options input).rows[j]? = some row)
    (hdecompress : options.decompress = true) (hstrict : options.strictBlockSize = true)
    (h : frame.header.maxBlockSize < row.block.size) :
    row.decompression =
      .failed (.oversizedBlock row.block.index row.block.size frame.header.maxBlockSize) := by
  obtain ⟨block, decoded, hblock, hdecoded, rfl⟩ := exists_of_getElem?_rows_report hscan hrow
  obtain ⟨history, rfl⟩ := Frame.exists_decodePure_of_getElem? hblock hdecoded
  exact Frame.decompression_decodePure hdecompress hstrict h history

end Rows

/-- How blocks are stored is told without expanding any of them. -/
theorem report_decompress (decompressor : Decompressor) (options : Options) (input : Bytes)
    (decompress : Bool) :
    let expanded := report decompressor { options with decompress } input
    expanded.header = (report decompressor options input).header ∧
      expanded.frameEnd = (report decompressor options input).frameEnd ∧
      expanded.rows.map BlockRow.asStored =
        (report decompressor options input).rows.map BlockRow.asStored := by
  refine ⟨?_, ?_, ?_⟩
  · rw [header_report, header_report]
  · rw [frameEnd_report, frameEnd_report]
  · rcases hscan : (Id.run (scan (pure false) input)).frame with _ | frame
    · rw [rows_report_of_none hscan, rows_report_of_none hscan]
    · rw [map_asStored_rows hscan, map_asStored_rows hscan]

/-- To a frame without blocks that are too big, it is all the same if they are refused. -/
theorem report_strictBlockSize (strict : Bool)
    (h : ∀ (header : Header) (row : BlockRow),
      (report decompressor options input).header = some header →
        row ∈ (report decompressor options input).rows → row.block.size ≤ header.maxBlockSize) :
    report decompressor { options with strictBlockSize := strict } input =
      report decompressor options input := by
  refine report_congr rfl rfl fun frame hscan => Frame.decodeAll_strictBlockSize strict ?_
  intro block hblock
  have hblocks : (report decompressor options input).rows.map BlockRow.block = frame.blocks :=
    map_block_rows_report hscan
  obtain ⟨row, hrow, rfl⟩ := List.mem_map.1 (hblocks ▸ hblock)
  exact h frame.header row (by rw [header_report, hscan, Option.map_some]) hrow

/-- **Options.** Keeping the content adds it to the report, if there is one, and nothing else.
Verification adds the checks and the issues that they bring. Expansion does not touch what is said
about blocks as they are stored. Refusing big blocks is all the same to a frame without any. Else, it
makes each of them fail, and no row differs but theirs if blocks are independent, and none before
the first of them if they are linked. -/
theorem analyze_options {σ : Type} {holds : σ → Prop} {env : Environment (StateM σ)}
    (hsteady : env.SteadyOn holds decompressor false) (htimeout : options.blockTimeout = none)
    (input : Bytes) (state state' : σ) (hstate : holds state) (hstate' : holds state') :
    let reported (options : Options) := ((analyze env options input).run state).1
    let reported' (options : Options) := ((analyze env options input).run state').1
    (∀ keep : Bool,
      let kept := reported' { options with keepContent := keep }
      kept = { reported options with content := kept.content } ∧
        kept.content.isSome = (keep && kept.contentSize.isSome)) ∧
    reported' { options with verifyChecksums := false } =
      (reported { options with verifyChecksums := true }).unverified ∧
    (∀ decompress : Bool,
      let expanded := reported' { options with decompress }
      expanded.header = (reported options).header ∧
        expanded.frameEnd = (reported options).frameEnd ∧
        expanded.rows.map BlockRow.asStored = (reported options).rows.map BlockRow.asStored) ∧
    let strict := reported { options with strictBlockSize := true }
    let lax := reported' { options with strictBlockSize := false }
    ((∀ (header : Header) (row : BlockRow), strict.header = some header → row ∈ strict.rows →
        row.block.size ≤ header.maxBlockSize) → lax = strict) ∧
      ∀ header, strict.header = some header →
        (header.descriptor.independentBlocks = true →
          ∀ (j : ℕ) (row : BlockRow), strict.rows[j]? = some row →
            row.block.size ≤ header.maxBlockSize → lax.rows[j]? = some row) ∧
        (∀ j : ℕ, (∀ (i : ℕ) (row : BlockRow), i ≤ j → strict.rows[i]? = some row →
          row.block.size ≤ header.maxBlockSize) → lax.rows[j]? = strict.rows[j]?) ∧
        (options.decompress = true →
          ∀ (j : ℕ) (row : BlockRow), strict.rows[j]? = some row →
            header.maxBlockSize < row.block.size →
              row.decompression =
                .failed (.oversizedBlock j row.block.size header.maxBlockSize)) := by
  have hreport : ∀ options : Options, options.blockTimeout = none → ∀ {state : σ}, holds state →
      ((analyze env options input).run state).1 = report decompressor options input :=
    fun _ htimeout _ => run_analyze_eq_report hsteady htimeout input
  have hfailure : ∀ row ∈ (report decompressor { options with verifyChecksums := true } input).rows,
      ∀ issue, row.decompression = .failed issue → row.block.Failure issue := by
    rw [← hreport { options with verifyChecksums := true } htimeout hstate]
    exact ScanOutcome.failure_of_mem_rows env _ input _ _
  have hindex : ∀ (j : ℕ) (row : BlockRow),
      (report decompressor { options with strictBlockSize := true } input).rows[j]? = some row →
        row.block.index = j := by
    rw [← hreport { options with strictBlockSize := true } htimeout hstate]
    exact fun j row => index_of_getElem?_rows env _ input state
  dsimp only
  refine ⟨fun keep => ?_, ?_, fun decompress => ?_, ?_⟩
  · rw [hreport options htimeout hstate,
      hreport { options with keepContent := keep } htimeout hstate']
    exact report_keepContent decompressor options input keep
  · rw [hreport { options with verifyChecksums := true } htimeout hstate,
      hreport { options with verifyChecksums := false } htimeout hstate']
    exact report_unverified hfailure
  · rw [hreport options htimeout hstate, hreport { options with decompress } htimeout hstate']
    exact report_decompress decompressor options input decompress
  · rw [hreport { options with strictBlockSize := true } htimeout hstate,
      hreport { options with strictBlockSize := false } htimeout hstate']
    refine ⟨fun h => report_strictBlockSize false h, fun header hheader => ?_⟩
    -- a report with a header is about a frame, and its rows are the blocks of the frame
    rw [header_report] at hheader
    obtain ⟨frame, hscan, rfl⟩ := Option.map_eq_some_iff.1 hheader
    refine ⟨fun hindependent j row hrow h => ?_, fun j h => ?_, fun hdecompress j row hrow h => ?_⟩
    · have hlax := getElem?_rows_strictBlockSize_of_independent hscan hindependent false hrow h
      exact hlax
    · exact getElem?_rows_strictBlockSize hscan false h
    · have hrefused := decompression_of_getElem?_rows hscan hrow hdecompress rfl h
      rwa [hindex j row hrow] at hrefused

/-- Independent blocks, the second of which is bigger than the maximum block size. -/
def FrameLayout.oversizedPhrase : FrameLayout where
  header := phrase.header
  blocks := [.letters, ⟨.uncompressed, Array.replicate 65537 0x61, some 0,
    by rw [Array.size_replicate]; decide, by decide⟩, .repeated]
  contentChecksum := some 0
  isSome_checksum := by decide
  isSome_contentChecksum := by decide

/-- The rows of a report on it, each by the size of its block. -/
theorem FrameLayout.exists_rows_oversizedPhrase (options : Options) :
    let report := report .lz4 options oversizedPhrase.encode.toArray
    report.header = some phrase.header ∧
      ∃ first second third, report.rows[0]? = some first ∧ report.rows[1]? = some second ∧
        report.rows[2]? = some third ∧ first.block.size = 4 ∧ second.block.size = 65537 ∧
        third.block.size = 6 := by
  have hscan : (Id.run (scan (pure false) oversizedPhrase.encode.toArray)).frame =
      some oversizedPhrase.locate := by
    rw [scan_encode]
  have hrow : ∀ (j : ℕ) (block : Block), oversizedPhrase.locate.blocks[j]? = some block →
      ∃ row, (report .lz4 options oversizedPhrase.encode.toArray).rows[j]? = some row ∧
        row.block = block :=
    fun _ _ => exists_getElem?_rows hscan
  obtain ⟨first, hfirst, hsize⟩ := hrow 0 _ rfl
  obtain ⟨second, hsecond, hsize'⟩ := hrow 1 _ rfl
  obtain ⟨third, hthird, hsize''⟩ := hrow 2 _ rfl
  refine ⟨?_, first, second, third, hfirst, hsecond, hthird, congrArg Block.size hsize,
    (congrArg Block.size hsize').trans Array.size_replicate, congrArg Block.size hsize''⟩
  rw [header_report, hscan]
  rfl

theorem analyze_options_phrase :
    let reported (frame : FrameLayout) (options : Options) :=
      ((analyze (.ticking .backward) options frame.encode.toArray).run 0).1
    let kept := reported .phrase { keepContent := true }
    let strict := reported .oversizedPhrase { strictBlockSize := true }
    let lax := reported .oversizedPhrase { strictBlockSize := false }
    kept = { reported .phrase {} with content := kept.content } ∧ kept.content.isSome = true ∧
      reported .phrase { verifyChecksums := false } = (reported .phrase {}).unverified ∧
      (reported .phrase { decompress := false }).rows.map BlockRow.asStored =
        (reported .phrase {}).rows.map BlockRow.asStored ∧
      (∃ row, strict.rows[1]? = some row ∧
        row.decompression = .failed (.oversizedBlock 1 65537 65536)) ∧
      lax.rows[0]? = strict.rows[0]? ∧
      ∃ row, strict.rows[2]? = some row ∧ lax.rows[2]? = some row := by
  intro reported kept strict lax
  have hsteady := Environment.steadyOn_ticking .backward
  have htimeout : ({} : Options).blockTimeout = none := rfl
  have hsize : kept.contentSize = some 11 := by decide +kernel
  obtain ⟨hkeep, hverify, hdecompress, -⟩ := analyze_options hsteady htimeout
    FrameLayout.phrase.encode.toArray 0 0 .intro .intro
  obtain ⟨hkept, hcontent⟩ := hkeep true
  -- of the big frame, only the sizes of its blocks are looked at
  have hstrict : strict = report .lz4 {} FrameLayout.oversizedPhrase.encode.toArray :=
    run_analyze_eq_report hsteady htimeout _ trivial
  obtain ⟨hheader, first, second, third, hfirst, hsecond, hthird, hsmall, hbig, hsmall'⟩ :=
    FrameLayout.exists_rows_oversizedPhrase {}
  rw [← hstrict] at hheader hfirst hsecond hthird
  have hmax : FrameLayout.phrase.header.maxBlockSize = 65536 := by decide
  obtain ⟨-, -, -, -, hbounded⟩ := analyze_options hsteady htimeout
    FrameLayout.oversizedPhrase.encode.toArray 0 0 .intro .intro
  obtain ⟨hindependent, hfront, hoversized⟩ := hbounded _ hheader
  have hrefused := hoversized rfl 1 second hsecond (by omega)
  rw [hbig, hmax] at hrefused
  refine ⟨hkept, hcontent.trans (congrArg Option.isSome hsize), hverify, (hdecompress false).2.2,
    ⟨second, hsecond, hrefused⟩, hfront 0 fun i row hi hrow => ?_, third, hthird,
    hindependent rfl 2 third hthird (by omega)⟩
  obtain rfl := Nat.le_zero.1 hi
  obtain rfl := Option.some.inj (hrow.symm.trans hfirst)
  omega

end Lz4Frame
