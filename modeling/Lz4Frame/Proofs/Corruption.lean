import Lz4Frame.Proofs.Content.Parallel
import Lz4Frame.Proofs.Content.Totals
import Lz4Frame.Proofs.Issues
import Lz4Frame.Proofs.Scan.Bodies
import Lz4Frame.Proofs.Uncancelled

/-! One corrupted byte in a body. The scan does not see it, the checksum of its block does, and no
other block has anything to do with it. So an analysis that nobody cancels reports that checksum, and
no other, as wrong, `analyze_setByte`. Where the block is stored as it is, in a frame with
independent blocks, the content differs in that one byte, and the content checksum is wrong, too. -/

namespace Lz4Frame

/-! ### Mismatches -/

/-- The issue of a checksum of a block that does not fit its body. -/
def Issue.isBlockChecksumMismatch : Issue → Bool
  | .blockChecksumMismatch .. => true
  | _ => false

/-- The issue of the checksum of one row. -/
def BlockRow.mismatch (row : BlockRow) : List Issue :=
  match row.checksum with
  | .checked check => if check.passed then [] else [.blockChecksumMismatch row.block.index check]
  | _ => []

theorem BlockRow.filter_issues {verify : Bool} {input : Bytes} {block : Block} {row : BlockRow}
    (h : row.Sound verify input block) :
    row.issues.filter Issue.isBlockChecksumMismatch = row.mismatch := by
  have hfailure : ∀ issue, row.decompression = .failed issue →
      issue.isBlockChecksumMismatch = false := by
    intro issue hissue
    obtain ⟨max, rfl⟩ | ⟨reason, rfl⟩ := h.failure issue hissue <;> rfl
  have hmismatch : row.mismatch.filter Issue.isBlockChecksumMismatch = row.mismatch := by
    rw [List.filter_eq_self]
    unfold mismatch
    split
    · split <;> simp [Issue.isBlockChecksumMismatch]
    · simp
  rw [issues, List.filter_append]
  show _ ++ row.mismatch.filter _ = _
  rw [hmismatch]
  rcases hdecompression : row.decompression with _ | size | issue
  · rfl
  · rfl
  · simp [hfailure issue hdecompression]

theorem filter_flatMap_issues {verify : Bool} {input : Bytes} {blocks : List Block}
    {rows : List BlockRow} (h : List.Forall₂ (BlockRow.Sound verify input) blocks rows) :
    (rows.flatMap BlockRow.issues).filter Issue.isBlockChecksumMismatch =
      rows.flatMap BlockRow.mismatch := by
  induction h with
  | nil => rfl
  | cons hrow _ ih =>
    rw [List.flatMap_cons, List.filter_append, BlockRow.filter_issues hrow, ih,
      List.flatMap_cons]

/-- The checksums of blocks that do not fit are the ones that the rows say. -/
theorem filter_issues_of {verify : Bool} {input : Bytes} {scanned : ScanOutcome}
    {outcome : ContentOutcome} {blocks : List Block} {report : Report}
    (hreport : report = .of input scanned outcome)
    (h : List.Forall₂ (BlockRow.Sound verify input) blocks report.rows) :
    report.issues.filter Issue.isBlockChecksumMismatch =
      report.rows.flatMap BlockRow.mismatch := by
  subst hreport
  have hcancelled : (cancellationIssues scanned.cancelledAt outcome.cancelledAt).filter
      Issue.isBlockChecksumMismatch = [] := by
    unfold cancellationIssues
    split <;> rfl
  show (Report.issuesOf _ _ _ _).filter _ = _
  rw [Report.filter_issuesOf (fun _ => rfl) (fun _ _ => rfl) (fun _ _ => rfl), hcancelled,
    List.append_nil]
  exact filter_flatMap_issues h

theorem mem_issues_of_contentChecksum {input : Bytes} {scanned : ScanOutcome}
    {outcome : ContentOutcome} {check : Check} {report : Report}
    (hreport : report = .of input scanned outcome)
    (h : outcome.contentChecksum = .checked check) (hfailed : check.passed = false) :
    .contentChecksumMismatch check ∈ report.issues := by
  have hissues : outcome.contentChecksum.contentIssues = [.contentChecksumMismatch check] := by
    rw [h, CheckOutcome.contentIssues]
    simp [hfailed]
  subst hreport
  show _ ∈ Report.issuesOf _ _ _ _
  rw [Report.issuesOf, hissues]
  simp

/-- One row among others without a mismatch. -/
theorem flatMap_eq_singleton {α β : Type} {f : α → List β} {items : List α} {i : ℕ} {item : α}
    {result : β} (hitem : items[i]? = some item) (hresult : f item = [result])
    (hothers : ∀ j other, items[j]? = some other → j ≠ i → f other = []) :
    items.flatMap f = [result] := by
  induction items generalizing i with
  | nil => cases hitem
  | cons first items ih =>
    rw [List.flatMap_cons]
    cases i with
    | zero =>
      cases hitem
      have hrest : items.flatMap f = [] := by
        rw [List.flatMap_eq_nil_iff]
        intro other hmem
        obtain ⟨j, hj⟩ := List.mem_iff_getElem?.1 hmem
        exact hothers (j + 1) other hj (Nat.succ_ne_zero j)
      rw [hresult, hrest, List.append_nil]
    | succ i =>
      have hfirst : f first = [] := hothers 0 first rfl (Nat.succ_ne_zero i).symm
      rw [hfirst, List.nil_append]
      refine ih hitem fun j other hother hne => ?_
      exact hothers (j + 1) other hother fun heq => hne (Nat.succ.inj heq)

/-- A function that gives something else for one item only. -/
theorem map_eq_set {α β : Type} {f f' : α → β} {items : List α} {i : ℕ} {item : α}
    (hitem : items[i]? = some item)
    (hothers : ∀ (j : ℕ) (other : α), items[j]? = some other → j ≠ i → f' other = f other) :
    items.map f' = (items.map f).set i (f' item) := by
  refine List.ext_getElem? fun j => ?_
  by_cases hj : i = j
  · subst hj
    have hlt := (List.getElem?_eq_some_iff.1 hitem).1
    rw [List.getElem?_set_self (by rwa [List.length_map]), List.getElem?_map, hitem,
      Option.map_some]
  · rw [List.getElem?_set_ne hj, List.getElem?_map, List.getElem?_map]
    rcases hother : items[j]? with _ | other
    · rw [Option.map_none, Option.map_none]
    · rw [Option.map_some, Option.map_some, hothers j other hother (Ne.symm hj)]

/-! ### Contents -/

/-- The content differs where one of its parts does. -/
theorem whole_set {contents : List (Option Bytes)} {i : ℕ} {part part' content : Bytes}
    (hpart : contents[i]? = some (some part)) (hwhole : whole contents = some content)
    (hdiffer : DifferOnce part.toList part'.toList) :
    ∃ content', whole (contents.set i (some part')) = some content' ∧
      DifferOnce content.toList content'.toList := by
  induction contents generalizing i content with
  | nil => cases hpart
  | cons first contents ih =>
    cases first with
    | none => cases hwhole
    | some first =>
      obtain ⟨rest, hrest, rfl⟩ := Option.map_eq_some_iff.1 hwhole
      cases i with
      | zero =>
        cases hpart
        refine ⟨part' ++ rest, by rw [List.set_cons_zero, whole, hrest]; rfl, ?_⟩
        rw [Array.toList_append, Array.toList_append]
        exact hdiffer.append_right rest.toList
      | succ i =>
        obtain ⟨rest', hrest', hdiffer'⟩ := ih hpart hrest
        refine ⟨first ++ rest', by rw [List.set_cons_succ, whole, hrest']; rfl, ?_⟩
        rw [Array.toList_append, Array.toList_append]
        exact hdiffer'.append_left first.toList

section Content

variable {decompressor : Decompressor} {options : Options} {input input' : Bytes} {frame : Frame}
  {history : Bytes} {block : Block}

/-- A stored body is the content as it is, unless it is too big for any. -/
theorem Frame.content_decodePure {part : Bytes} (input' : Bytes)
    (huncompressed : block.isUncompressed = true)
    (h : (frame.decodePure decompressor options input history block).content = some part) :
    part = block.body input ∧
      (frame.decodePure decompressor options input' history block).content =
        some (block.body input') := by
  unfold decodePure Decoder.decodeBlock Block.content at h ⊢
  simp only [huncompressed, if_true] at h ⊢
  split_ifs at h ⊢
  · cases h
  · cases h
    exact ⟨rfl, rfl⟩
  · cases h

/-- Independent blocks, one of which is stored as it is and differs in one byte. -/
theorem Frame.contentOf_setByte {i : ℕ} {content : Bytes} (hblock : frame.blocks[i]? = some block)
    (huncompressed : block.isUncompressed = true)
    (hdiffer : DifferOnce (block.body input).toList (block.body input').toList)
    (hothers : ∀ (j : ℕ) (other : Block), frame.blocks[j]? = some other → j ≠ i →
      other.body input' = other.body input)
    (hcontent : frame.contentOf (frame.blocks.map fun block =>
      some (frame.decodePure decompressor options input history block)) = some content) :
    ∃ content', frame.contentOf (frame.blocks.map fun block =>
        some (frame.decodePure decompressor options input' history block)) = some content' ∧
      DifferOnce content.toList content'.toList := by
  let decode (input : Bytes) : Block → Option Bytes := fun block =>
    (frame.decodePure decompressor options input history block).content
  have hcontents : ∀ input, (frame.blocks.map fun block =>
      some (frame.decodePure decompressor options input history block)).map
        DecodedBlock.content? = frame.blocks.map (decode input) := by
    intro input
    rw [List.map_map]
    rfl
  obtain ⟨hcomplete, hwhole⟩ := contentOf_eq_some_iff.1 hcontent
  rw [hcontents] at hwhole
  have hmem : decode input block ∈ frame.blocks.map (decode input) :=
    List.mem_map_of_mem (List.mem_of_getElem? hblock)
  obtain ⟨part, hpart⟩ : ∃ part, decode input block = some part :=
    Option.isSome_iff_exists.1 (exists_whole_iff.1 ⟨content, hwhole⟩ _ hmem)
  obtain ⟨rfl, hpart'⟩ := content_decodePure input' huncompressed hpart
  have hi : (frame.blocks.map (decode input))[i]? = some (some (block.body input)) := by
    rw [List.getElem?_map, hblock, Option.map_some, hpart]
  obtain ⟨content', hwhole', hdiffer'⟩ := whole_set hi hwhole hdiffer
  have hset : frame.blocks.map (decode input') =
      (frame.blocks.map (decode input)).set i (some (block.body input')) := by
    rw [← hpart']
    exact map_eq_set hblock fun j other hother hj =>
      congrArg DecodedBlock.content (decodePure_congr (hothers j other hother hj))
  refine ⟨content', contentOf_eq_some_iff.2 ⟨hcomplete, ?_⟩, hdiffer'⟩
  rw [hcontents, hset, hwhole']

end Content

/-! ### One changed byte -/

section Change

variable {verify : Bool} {input input' : Bytes} {blocks : List Block} {rows rows' : List BlockRow}
  {i : ℕ} {block : Block}

theorem map_checksum_rows (h : List.Forall₂ (BlockRow.Sound verify input) blocks rows) :
    rows.map BlockRow.checksum = blocks.map fun block => block.check verify (block.body input) := by
  induction h with
  | nil => rfl
  | cons hrow _ ih => rw [List.map_cons, List.map_cons, hrow.checksum, ih]

theorem exists_row (h : List.Forall₂ (BlockRow.Sound verify input) blocks rows)
    (hblock : blocks[i]? = some block) :
    ∃ row, rows[i]? = some row ∧ row.Sound verify input block := by
  induction h generalizing i with
  | nil => cases hblock
  | cons hrow _ ih =>
    cases i with
    | zero =>
      cases hblock
      exact ⟨_, rfl, hrow⟩
    | succ i => exact ih hblock

theorem BlockRow.mismatch_of_not_failed {row : BlockRow} (h : row.checksum.failed = false) :
    row.mismatch = [] := by
  unfold mismatch
  unfold CheckOutcome.failed at h
  split <;> simp_all

theorem BlockRow.mismatch_of_failed {row : BlockRow} {check : Check}
    (hchecksum : row.checksum = .checked check) (h : check.passed = false) :
    row.mismatch = [.blockChecksumMismatch row.block.index check] := by
  rw [mismatch, hchecksum]
  simp [h]

/-- Each row but one says the same about its checksum. -/
theorem getElem?_checksum_rows (hrows : List.Forall₂ (BlockRow.Sound verify input) blocks rows)
    (hrows' : List.Forall₂ (BlockRow.Sound verify input') blocks rows')
    (hblock : blocks[i]? = some block)
    (hothers : ∀ (j : ℕ) (other : Block), blocks[j]? = some other → j ≠ i →
      other.body input' = other.body input) {j : ℕ} (hj : j ≠ i) :
    rows'[j]?.map BlockRow.checksum = rows[j]?.map BlockRow.checksum := by
  rw [← List.getElem?_map, ← List.getElem?_map, map_checksum_rows hrows, map_checksum_rows hrows',
    map_eq_set hblock fun j other hother hj => congrArg (Block.check _ other)
      (hothers j other hother hj),
    List.getElem?_set_ne hj.symm]

/-- If all checksums fitted before, only one does not fit now. -/
theorem flatMap_mismatch_rows {row' : BlockRow} {issue : Issue}
    (hsame : ∀ j, j ≠ i → rows'[j]?.map BlockRow.checksum = rows[j]?.map BlockRow.checksum)
    (hrow' : rows'[i]? = some row') (hissue : row'.mismatch = [issue])
    (hpassed : ∀ row ∈ rows, row.checksum.failed = false) :
    rows'.flatMap BlockRow.mismatch = [issue] := by
  refine flatMap_eq_singleton hrow' hissue fun j other hother hj => ?_
  have hchecksum := hsame j hj
  rw [hother, Option.map_some] at hchecksum
  obtain ⟨row, hrow, heq⟩ := Option.map_eq_some_iff.1 hchecksum.symm
  refine BlockRow.mismatch_of_not_failed ?_
  rw [← heq]
  exact hpassed row (List.mem_of_getElem? hrow)

end Change

/-- A checksum that fits some data does not fit it with another byte. -/
theorem Check.not_passed_of_differOnce {data data' : List UInt8} {stored : UInt32}
    (hdiffer : DifferOnce data data') (hpassed : (ofData data stored).passed = true) :
    (ofData data' stored).passed = false := by
  have hstored : stored = XxHash32.digest data := beq_iff_eq.1 hpassed
  subst hstored
  exact beq_eq_false_iff_ne.2 (XxHash32.digest_ne_of_differOnce hdiffer)

/-- A content checksum that fitted does not fit a content with another byte. -/
theorem contentChecksum_setByte {σ : Type} {env : Environment (StateM σ)}
    {decompressor : Decompressor} (hsteady : env.SteadyOn (fun _ => True) decompressor false)
    {options : Options} {input input' : Bytes} {frame : Frame} {i : ℕ} {block : Block}
    (hblock : frame.blocks[i]? = some block)
    (hdiffer : DifferOnce (block.body input).toList (block.body input').toList)
    (hothers : ∀ (j : ℕ) (other : Block), frame.blocks[j]? = some other → j ≠ i →
      other.body input' = other.body input)
    (hindependent : frame.header.descriptor.independentBlocks = true)
    (huncompressed : block.isUncompressed = true) (htimeout : options.blockTimeout = none)
    (next next' : σ) {check : Check} (hpassed : check.passed = true)
    (hcheck : (frame.outcomeOf options
      ((frame.decodeBlocks env options input).run next).1).contentChecksum = .checked check) :
    ∃ check', check'.stored = check.stored ∧ check'.passed = false ∧
      (frame.outcomeOf options
        ((frame.decodeBlocks env options input').run next').1).contentChecksum =
          .checked check' := by
  rw [Frame.run_decodeBlocks_steady hsteady htimeout _ hindependent trivial] at hcheck ⊢
  obtain ⟨hannounced, hverify, stored, content, hstored, hcontent, rfl⟩ :=
    CheckOutcome.ofContent_eq_checked_iff.1 hcheck
  obtain ⟨content', hcontent', hdiffer'⟩ :=
    Frame.contentOf_setByte hblock huncompressed hdiffer hothers hcontent
  exact ⟨.ofData content'.toList stored, rfl, Check.not_passed_of_differOnce hdiffer' hpassed,
    CheckOutcome.ofContent_eq_checked_iff.2
      ⟨hannounced, hverify, stored, content', hstored, hcontent', rfl⟩⟩

/-- A single corrupted byte of a body is caught, and only where it is. The checksum of its block is
another one, all other checksums are checked with the same result, and if all of them fitted, this
one is the only one reported. A content that was checked and had the byte in it as it is does not fit
its checksum any more. -/
theorem analyze_setByte {σ : Type} {env : Environment (StateM σ)} {decompressor : Decompressor}
    (hsteady : env.SteadyOn (fun _ => True) decompressor false) {options : Options}
    (hverify : options.verifyChecksums = true) {input : Bytes} {frame : Frame}
    (hscan : (Id.run (scan (pure false) input)).frame = some frame)
    (hannounced : frame.header.descriptor.hasBlockChecksums = true) {i position : ℕ}
    {block : Block} {byte : UInt8} (hblock : frame.blocks[i]? = some block)
    (hle : block.bodyOffset ≤ position) (hlt : position < block.bodyEnd)
    (hbyte : input[position]? ≠ some byte) (state state' : σ) :
    let changed := input.setIfInBounds position byte
    let report := ((analyze env options input).run state).1
    let report' := ((analyze env options changed).run state').1
    ∃ row row' stored, report.rows[i]? = some row ∧ report'.rows[i]? = some row' ∧
      block.checksum = some stored ∧
      let check : Check := ⟨stored, XxHash32.digest (block.body input).toList⟩
      let check' : Check := ⟨stored, XxHash32.digest (block.body changed).toList⟩
      row.checksum = .checked check ∧ row'.checksum = .checked check' ∧
        check'.computed ≠ check.computed ∧
        (check.passed = true → .blockChecksumMismatch i check' ∈ report'.issues) ∧
        (∀ j, j ≠ i →
          report'.rows[j]?.map BlockRow.checksum = report.rows[j]?.map BlockRow.checksum) ∧
        ((∀ row ∈ report.rows, row.checksum.failed = false) →
          report'.issues.filter Issue.isBlockChecksumMismatch =
            [.blockChecksumMismatch i check']) ∧
        (frame.header.descriptor.independentBlocks = true → block.isUncompressed = true →
          options.blockTimeout = none → ∀ contentCheck,
            report.contentChecksum = .checked contentCheck → contentCheck.passed = true →
              ∃ contentCheck', contentCheck'.stored = contentCheck.stored ∧
                .contentChecksumMismatch contentCheck' ∈ report'.issues) := by
  intro changed report report'
  obtain ⟨hsame, hdiffer, hothers⟩ := scan_setByte hscan hblock hle hlt hbyte
  have hscan' : (Id.run (scan (pure false) changed)).frame = some frame := by
    rw [hsame, hscan]
  obtain ⟨next, hreport, hrows⟩ := analyze_of_scan hsteady.cancelled options hscan state
  obtain ⟨next', hreport', hrows'⟩ := analyze_of_scan hsteady.cancelled options hscan' state'
  obtain ⟨row, hrow, hsound⟩ := exists_row hrows hblock
  obtain ⟨row', hrow', hsound'⟩ := exists_row hrows' hblock
  obtain ⟨hindex, hisSome⟩ := index_of_scan hscan hblock
  rw [hannounced] at hisSome
  obtain ⟨stored, hstored⟩ := Option.isSome_iff_exists.1 hisSome
  have hcheck : row.checksum = .checked (.ofData (block.body input).toList stored) := by
    rw [hsound.checksum, Block.check, hstored, hverify]
    rfl
  have hcheck' : row'.checksum = .checked (.ofData (block.body changed).toList stored) := by
    rw [hsound'.checksum, Block.check, hstored, hverify]
    rfl
  have hmismatch : (Check.ofData (block.body input).toList stored).passed = true →
      row'.mismatch =
        [.blockChecksumMismatch i (.ofData (block.body changed).toList stored)] := by
    intro hpassed
    rw [BlockRow.mismatch_of_failed hcheck' (Check.not_passed_of_differOnce hdiffer hpassed),
      hsound'.block_eq, hindex]
  have hfilter : report'.issues.filter Issue.isBlockChecksumMismatch =
      report'.rows.flatMap BlockRow.mismatch := filter_issues_of hreport' hrows'
  have hsame' : ∀ j, j ≠ i →
      report'.rows[j]?.map BlockRow.checksum = report.rows[j]?.map BlockRow.checksum :=
    fun j hj => getElem?_checksum_rows hrows hrows' hblock hothers hj
  refine ⟨row, row', stored, hrow, hrow', hstored, hcheck, hcheck', ?_, fun hpassed => ?_, hsame',
    ?_, ?_⟩
  · exact (XxHash32.digest_ne_of_differOnce hdiffer).symm
  · have hmem : Issue.blockChecksumMismatch i (.ofData (block.body changed).toList stored) ∈
        report'.issues.filter Issue.isBlockChecksumMismatch := by
      rw [hfilter]
      refine List.mem_flatMap.2 ⟨row', List.mem_of_getElem? hrow', ?_⟩
      rw [hmismatch hpassed]
      exact List.mem_singleton_self _
    exact (List.mem_filter.1 hmem).1
  · intro hpassed
    rw [hfilter]
    refine flatMap_mismatch_rows hsame' hrow' (hmismatch ?_) hpassed
    have hnot := hpassed row (List.mem_of_getElem? hrow)
    rw [hcheck] at hnot
    simpa [CheckOutcome.failed] using hnot
  · intro hindependent huncompressed htimeout contentCheck hcontent hpassed
    have houtcome := (congrArg Report.contentChecksum hreport).symm.trans hcontent
    obtain ⟨contentCheck', hstored', hfailed, houtcome'⟩ := contentChecksum_setByte hsteady hblock
      hdiffer hothers hindependent huncompressed htimeout next next' hpassed houtcome
    exact ⟨contentCheck', hstored', mem_issues_of_contentChecksum hreport' houtcome' hfailed⟩

/-- Another byte in the first of three blocks: its checksum and the one of the content do not fit. -/
theorem analyze_setByte_phrase :
    let input := FrameLayout.phraseBytes
    let check : Check := ⟨0xA3643705, XxHash32.digest [0x61, 0x7A, 0x63, 0x64]⟩
    let report := ((analyze (.ticking .standard) {} input).run 0).1
    let report' := ((analyze (.ticking .standard) {} (input.setIfInBounds 24 0x7A)).run 0).1
    report'.issues.filter Issue.isBlockChecksumMismatch = [.blockChecksumMismatch 0 check] ∧
      check.computed ≠ 0xA3643705 ∧
      report'.rows[1]?.map BlockRow.checksum = report.rows[1]?.map BlockRow.checksum ∧
      ∃ contentCheck, contentCheck.stored = 0xA6673EC4 ∧
        .contentChecksumMismatch contentCheck ∈ report'.issues := by
  intro input check report report'
  let block : Block := ⟨0, 19, 4, .uncompressed, 23, some 0xA3643705⟩
  have hscan : (Id.run (scan (pure false) input)).frame = some FrameLayout.phrase.locate := by
    rw [FrameLayout.scan_phraseBytes]
  have hsteady := Environment.steadyOn_ticking .standard
  have hverify : ({} : Options).verifyChecksums = true := rfl
  have hannounced : FrameLayout.phrase.locate.header.descriptor.hasBlockChecksums = true := rfl
  have hindependent : FrameLayout.phrase.locate.header.descriptor.independentBlocks = true := rfl
  have hblock : FrameLayout.phrase.locate.blocks[0]? = some block := rfl
  have hbody : block.body input = #[0x61, 0x62, 0x63, 0x64] := by decide
  have hbody' : block.body (input.setIfInBounds 24 0x7A) = #[0x61, 0x7A, 0x63, 0x64] := by decide
  have hdigest : XxHash32.digest [0x61, 0x62, 0x63, 0x64] = 0xA3643705 := by decide +kernel
  have hpassed : ∀ row ∈ report.rows, row.checksum.failed = false := by decide +kernel
  have hcontent : report.contentChecksum = .checked ⟨0xA6673EC4, 0xA6673EC4⟩ := by decide +kernel
  obtain ⟨_, _, stored, -, -, hstored, -, -, hne, -, hothers, honly, hmismatch⟩ :=
    analyze_setByte hsteady hverify hscan hannounced hblock (by decide : 23 ≤ 24)
      (by decide : 24 < 27) (by decide : input[24]? ≠ some 0x7A) 0 0
  cases hstored
  rw [hbody, hbody', hdigest] at hne
  rw [hbody'] at honly
  exact ⟨honly hpassed, hne, hothers 1 (by decide),
    hmismatch hindependent rfl rfl _ hcontent rfl⟩

end Lz4Frame
