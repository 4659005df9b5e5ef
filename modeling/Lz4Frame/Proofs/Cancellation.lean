import Lz4Frame.Proofs.Content.Polls
import Lz4Frame.Proofs.Issues

/-! A cancellation, at any moment. The surroundings are asked for one at each block boundary, in the
scan and then in the decoding, and the first answer that says so ends the phase. What was found or
decoded before is as in a run that nobody cancels, and nothing else is said about the rest:
`scan_asks`, `Frame.decode_asks`. The report has one issue for it, `analyze_cancelled`. -/

namespace Lz4Frame

variable {σ : Type} {polls : σ → List Bool}

/-! ### The scan -/

/-- A scan that was cancelled behind `k` blocks, if `full` is the one that was not. -/
def ScanOutcome.cancelledBefore (k : ℕ) (full : ScanOutcome) : ScanOutcome where
  frame := full.frame.map fun frame => { header := frame.header, blocks := frame.blocks.take k }
  cancelledAt := some k

namespace Scanner

theorem found_of_next {scanner scanner' : Scanner} {block : Block}
    (h : scanner.next = (some (.ok block), scanner')) : scanner'.found = scanner.found + 1 := by
  obtain ⟨_, -, rfl⟩ := exists_of_next h
  rfl

theorem found_of_start {source : Source} {descriptor : Descriptor} {scanner : Scanner}
    (h : start source descriptor = .ok scanner) : scanner.found = 0 := by
  unfold start at h
  split at h
  · cases h
  · dsimp only at h
    split at h
    · cases h
    · cases h
      rfl

/-- The blocks that were found stay. -/
theorem prefix_walk (scanner : Scanner) (found : Array Block) :
    found.toList <+: (Id.run (walk (pure false) scanner found)).1.toList := by
  induction scanner, found using walk.induct with
  | case1 scanner found ih =>
    rcases hnext : scanner.next with ⟨_ | _ | block, scanner'⟩
    · rewrite [walk_of_next_none hnext]
      exact List.prefix_rfl
    · rewrite [walk_of_next_error hnext]
      exact List.prefix_rfl
    · rw [walk_of_next_ok hnext]
      refine .trans ?_ (ih block scanner' hnext)
      rw [Array.toList_push]
      exact List.prefix_append _ _

/-- A walk by the answers on its way. Up to the first cancellation it is the walk that nobody
cancels. -/
def WalkedBy (scanner : Scanner) (found : Array Block) (answers : List Bool)
    (walked : Array Block × Scanner × Ending) : Prop :=
  let full := Id.run (walk (pure false) scanner found)
  match answers.findIdx? id with
  | none => walked = full ∧ full.1.size ≤ found.size + answers.length
  | some k => found.size + k ≤ full.1.size ∧
      walked.1.toList = full.1.toList.take (found.size + k) ∧
      walked.2.1.found = scanner.found + k ∧ walked.2.2 = .cancelled

section WalkedBy

variable {scanner scanner' : Scanner} {found : Array Block}

theorem WalkedBy.cancelled (scanner : Scanner) (found : Array Block) :
    WalkedBy scanner found [true] (found, scanner, .cancelled) := by
  have hfront := prefix_walk scanner found
  exact ⟨hfront.length_le, List.prefix_iff_eq_take.1 hfront, rfl, rfl⟩

theorem WalkedBy.finished (h : scanner.next = (none, scanner')) :
    WalkedBy scanner found [false] (found, scanner', .finished) := by
  simp [WalkedBy, walk_of_next_none h, List.findIdx?_cons]

theorem WalkedBy.stopped {error : ScanError} (h : scanner.next = (some (.error error), scanner')) :
    WalkedBy scanner found [false] (found, scanner', .stopped error) := by
  simp [WalkedBy, walk_of_next_error h, List.findIdx?_cons]

/-- One more block before the rest of a walk. -/
theorem WalkedBy.cons {block : Block} {answers : List Bool}
    {walked : Array Block × Scanner × Ending}
    (h : scanner.next = (some (.ok block), scanner'))
    (hwalked : WalkedBy scanner' (found.push block) answers walked) :
    WalkedBy scanner found (false :: answers) walked := by
  have hfound := found_of_next h
  unfold WalkedBy at hwalked ⊢
  rw [walk_of_next_ok h, List.findIdx?_cons]
  rcases hfind : answers.findIdx? id with _ | k
  · rw [hfind, Array.size_push] at hwalked
    obtain ⟨heq, hle⟩ := hwalked
    refine ⟨heq, ?_⟩
    rw [List.length_cons]
    omega
  · rw [hfind, Array.size_push] at hwalked
    obtain ⟨hle, hblocks, hscanner, hending⟩ := hwalked
    have hsucc : ∀ n, n + 1 + k = n + (k + 1) := fun n => by omega
    rw [hsucc] at hle hblocks
    rw [hfound, hsucc] at hscanner
    exact ⟨hle, hblocks, hscanner, hending⟩

end WalkedBy

theorem walk_asks {cancelled : StateM σ Bool}
    (hcancelled : Asks polls cancelled fun answers answer => answers = [answer])
    (scanner : Scanner) (found : Array Block) :
    Asks polls (walk cancelled scanner found) (WalkedBy scanner found) := by
  fun_induction walk cancelled scanner found with
  | case1 scanner found ih =>
    refine .bind hcancelled fun _ answer hanswer => ?_
    subst hanswer
    cases answer with
    | true => exact .pure (.cancelled scanner found)
    | false =>
      rw [if_neg Bool.false_ne_true]
      split
      next scanner' hnext => exact .pure (.finished hnext)
      next error scanner' hnext => exact .pure (.stopped hnext)
      next block scanner' hnext =>
        exact (ih block scanner' hnext).mono fun answers walked hwalked => .cons hnext hwalked

end Scanner

/-- However a walk ended, the frame has the blocks that were found. -/
theorem Header.frame_conclude (header : Header) (found : List Block) (scanner : Scanner)
    (ending : Scanner.Ending) :
    ∃ frame, (header.conclude found scanner ending).frame = some frame ∧
      frame.header = header ∧ frame.blocks = found := by
  unfold conclude
  split
  · exact ⟨_, rfl, rfl, rfl⟩
  · exact ⟨_, rfl, rfl, rfl⟩
  · split <;> exact ⟨_, rfl, rfl, rfl⟩

/-- A scan by the answers on its way, if `full` is the one that nobody cancels. -/
structure ScanOutcome.ScannedBy (full : ScanOutcome) (answers : List Bool)
    (outcome : ScanOutcome) : Prop where
  /-- Before each block there was an answer. -/
  of_not_mem : true ∉ answers → outcome = full ∧
    ∀ frame, full.frame = some frame → frame.blocks.length ≤ answers.length
  of_findIdx? : ∀ k, answers.findIdx? id = some k → outcome = full.cancelledBefore k ∧
    ∃ frame, full.frame = some frame ∧ k ≤ frame.blocks.length

theorem ScanOutcome.ScannedBy.cancelledAt_eq {full outcome : ScanOutcome} {answers : List Bool}
    (h : full.ScannedBy answers outcome) (hfull : full.cancelledAt = none) :
    outcome.cancelledAt = answers.findIdx? id := by
  rcases hfind : answers.findIdx? id with _ | k
  · rw [(h.of_not_mem (findIdx?_eq_none_iff_not_mem.1 hfind)).1, hfull]
  · rw [(h.of_findIdx? k hfind).1]
    rfl

theorem ScanOutcome.ScannedBy.of_frame_eq_none {full : ScanOutcome} (h : full.frame = none) :
    full.ScannedBy [] full where
  of_not_mem _ := ⟨rfl, fun frame hframe => by rw [h] at hframe; cases hframe⟩
  of_findIdx? := nofun

/-- A scan follows its walk. -/
theorem Scanner.WalkedBy.scannedBy {scanner : Scanner} {answers : List Bool}
    {walked : Array Block × Scanner × Ending} (h : WalkedBy scanner #[] answers walked)
    (hfound : scanner.found = 0) (header : Header) :
    (scanner.conclude header #[]).ScannedBy answers
      (header.conclude walked.1.toList walked.2.1 walked.2.2) := by
  unfold WalkedBy at h
  unfold conclude
  generalize Id.run (scanner.walk (pure false) #[]) = full at h
  obtain ⟨frame, hframe, rfl, hblocks⟩ := header.frame_conclude full.1.toList full.2.1 full.2.2
  refine ⟨fun hnot => ?_, fun k hk => ?_⟩
  · rw [findIdx?_eq_none_iff_not_mem.2 hnot] at h
    obtain ⟨rfl, hle⟩ := h
    refine ⟨rfl, fun frame' hframe' => ?_⟩
    rw [hframe] at hframe'
    cases hframe'
    rw [hblocks]
    simpa using hle
  · rw [hk] at h
    obtain ⟨hle, htake, hcount, hending⟩ := h
    rw [hfound, Nat.zero_add] at hcount
    simp only [List.size_toArray, List.length_nil, Nat.zero_add] at hle htake
    refine ⟨?_, frame, hframe, by simpa [hblocks] using hle⟩
    rw [ScanOutcome.cancelledBefore, hframe, Option.map_some, hblocks, hending, htake,
      Header.conclude, hcount]

/-- The scan up to the first cancellation is the scan that nobody cancels. -/
theorem scan_asks {cancelled : StateM σ Bool}
    (hcancelled : Asks polls cancelled fun answers answer => answers = [answer])
    (input : Bytes) :
    Asks polls (scan cancelled input) ((Id.run (scan (pure false) input)).ScannedBy) := by
  unfold scan
  split
  next => exact .pure (.of_frame_eq_none rfl)
  next header source hread =>
    split
    next error hstart =>
      refine .pure ⟨fun _ => ⟨rfl, ?_⟩, nofun⟩
      rintro _ ⟨⟩
      exact Nat.zero_le _
    next scanner hstart =>
      refine .bind (scanner.walk_asks hcancelled #[]) fun answers walked hwalked => .pure ?_
      rw [List.append_nil]
      exact hwalked.scannedBy (Scanner.found_of_start hstart) header

/-! ### The decoding -/

/-- A decoding that was cancelled before block `k`, if `full` is the one that was not. -/
def Frame.cancelledBefore (frame : Frame) (k : ℕ) (full : ContentOutcome) : ContentOutcome where
  blocks := full.blocks.take k ++ (frame.blocks.drop k).map .notAttempted
  contentChecksum := if frame.header.descriptor.hasContentChecksum then .skipped else .absent
  cancelledAt := some k

theorem CheckOutcome.ofContent_none (announced verify : Bool) (stored : Option UInt32) :
    ofContent announced verify stored none = if announced then .skipped else .absent := by
  cases stored <;> rfl

/-- Where a block was left out, there is no content. -/
theorem Frame.outcomeOf_of_none_mem {frame : Frame} {decoded : List (Option DecodedBlock)}
    (options : Options) (h : none ∈ decoded) :
    frame.outcomeOf options decoded =
      { blocks := frame.blocks.zipWith DecodedBlock.outcome? decoded
        contentChecksum :=
          if frame.header.descriptor.hasContentChecksum then .skipped else .absent
        cancelledAt := decoded.findIdx? Option.isNone } := by
  have hwhole : whole (decoded.map DecodedBlock.content?) = none :=
    whole_eq_none_of_mem (List.mem_map.2 ⟨none, h, rfl⟩)
  rw [outcomeOf, contentOf, hwhole, ite_self, ContentOutcome.of, CheckOutcome.ofContent_none]
  simp

theorem Frame.outcomeOf_leaveOut {frame : Frame} {all : List DecodedBlock} {k : ℕ}
    (options : Options) (hall : all.length = frame.blocks.length) (hk : k < all.length) :
    frame.outcomeOf options (leaveOut (some k) all) =
      frame.cancelledBefore k (frame.outcomeOf options (all.map some)) := by
  have hnone : none ∈ leaveOut (some k) all :=
    List.mem_append_right _ (List.mem_replicate.2 ⟨by omega, rfl⟩)
  have hfind : (leaveOut (some k) all).findIdx? Option.isNone = some k := by
    have hfront : ((all.take k).map some).findIdx? Option.isNone = none := by
      rw [List.findIdx?_eq_none_iff]
      rintro _ hmem
      obtain ⟨decoded, -, rfl⟩ := List.mem_map.1 hmem
      rfl
    rw [leaveOut, List.findIdx?_append, hfront, List.findIdx?_replicate]
    simp
    omega
  have hrest : (frame.blocks.drop k).zipWith DecodedBlock.outcome?
      (List.replicate (all.length - k) none) =
        (frame.blocks.drop k).map BlockOutcome.notAttempted := by
    refine List.ext_getElem (by simp [hall]) fun i _ _ => ?_
    simp [DecodedBlock.outcome?]
  have hblocks : frame.blocks.zipWith DecodedBlock.outcome? (leaveOut (some k) all) =
      (frame.blocks.zipWith DecodedBlock.outcome? (all.map some)).take k ++
        (frame.blocks.drop k).map BlockOutcome.notAttempted := by
    conv_lhs => rw [← List.take_append_drop k frame.blocks]
    rw [leaveOut, List.zipWith_append (by simp [hall]), hrest, List.take_zipWith, List.map_take]
  rw [outcomeOf_of_none_mem options hnone, hfind, hblocks]
  rfl

/-- A decoding by the answers on its way, if `full` is the one that nobody cancels. -/
structure Frame.DecodedBy (options : Options) (frame : Frame) (full : ContentOutcome)
    (answers : List Bool) (outcome : ContentOutcome) : Prop where
  /-- Before each block there was an answer. -/
  of_not_mem : true ∉ answers → outcome = full ∧ answers.length = frame.blocks.length
  of_mem : true ∈ answers → (∃ k, outcome.cancelledAt = some k) ∧ outcome.size = none ∧
    outcome.content = none ∧ ∀ check, outcome.contentChecksum ≠ .checked check
  /-- In whatever order blocks are taken, if already the first answer was a cancellation. -/
  of_findIdx? : frame.InOrder options ∨ answers.head? = some true →
    ∀ k, answers.findIdx? id = some k →
      outcome = frame.cancelledBefore k full ∧ k < frame.blocks.length

/-- The decoding up to the first cancellation is the decoding that nobody cancels. -/
theorem Frame.decode_asks {env : Environment (StateM σ)} {decompressor : Decompressor}
    (hpolled : env.Polled polls decompressor) {options : Options}
    (htimeout : options.blockTimeout = none) (input : Bytes) (frame : Frame) :
    Asks polls (frame.decode env options input)
      (frame.DecodedBy options
        (Id.run (frame.decode (.ofDecompressor decompressor) options input))) := by
  have hfull : Id.run (frame.decode (.ofDecompressor decompressor) options input) = _ :=
    frame.decode_steady_eq .standard
  rw [decode_eq_map, hfull]
  refine .map ((frame.decodeBlocks_asks hpolled htimeout input).mono ?_)
  intro answers decoded h
  rw [conclude_foldl_add options h.length_eq]
  refine ⟨fun hnot => ?_, fun hmem => ?_, fun horder k hk => ?_⟩
  · obtain ⟨hlength, rfl⟩ := h.all_of_not_mem hnot
    exact ⟨rfl, hlength⟩
  · have hnone := h.none_mem hmem
    refine ⟨frame.cancelledAt_outcomeOf options hnone, ?_⟩
    rw [outcomeOf_of_none_mem options hnone]
    refine ⟨rfl, rfl, fun check => ?_⟩
    cases frame.header.descriptor.hasContentChecksum <;> nofun
  · have hlt : k < frame.blocks.length := (findIdx?_lt_length hk).trans_le h.length_le
    rw [h.leaveOut horder, hk, outcomeOf_leaveOut options length_decodeAll
      (by rwa [length_decodeAll])]
    exact ⟨rfl, hlt⟩

/-! ### The report -/

def Issue.isCancelled : Issue → Bool
  | .cancelled .. => true
  | _ => false

theorem Report.filter_isCancelled_issuesOf {inputSize : ℕ} {scanned : ScanOutcome}
    {decoded : ContentOutcome} {rows : List BlockRow}
    (hrows : ∀ row ∈ rows, ∀ issue, row.decompression = .failed issue → row.block.Failure issue) :
    (issuesOf inputSize scanned decoded rows).filter Issue.isCancelled =
      cancellationIssues scanned.cancelledAt decoded.cancelledAt := by
  have hrow : (rows.flatMap BlockRow.issues).filter Issue.isCancelled = [] := by
    rw [List.filter_eq_nil_iff]
    intro issue hissue
    obtain ⟨row, hrow, hissue⟩ := List.mem_flatMap.1 hissue
    obtain hfailed | ⟨check, -, -, rfl⟩ := BlockRow.mem_issues_iff.1 hissue
    · obtain ⟨max, rfl⟩ | ⟨reason, rfl⟩ := hrows row hrow issue hfailed <;>
        exact Bool.false_ne_true
    · exact Bool.false_ne_true
  have hcancelled : (cancellationIssues scanned.cancelledAt decoded.cancelledAt).filter
      Issue.isCancelled = cancellationIssues scanned.cancelledAt decoded.cancelledAt := by
    rw [List.filter_eq_self]
    intro issue hissue
    obtain ⟨phase, next, rfl⟩ := mem_cancellationIssues hissue
    rfl
  rw [filter_issuesOf (fun _ => rfl) (fun _ _ => rfl) (fun _ _ => rfl), hrow, hcancelled,
    List.nil_append]

theorem length_cancellationIssues_eq_one_iff {scan decoding : Option ℕ} :
    (cancellationIssues scan decoding).length = 1 ↔ scan.isSome ∨ decoding.isSome := by
  cases scan <;> cases decoding <;> simp [cancellationIssues]

theorem Frame.cancelledAt_outcomeOf_map_some (options : Options) (frame : Frame)
    (all : List DecodedBlock) : (frame.outcomeOf options (all.map some)).cancelledAt = none := by
  show (all.map some).findIdx? Option.isNone = none
  simp

section Analysis

variable {env : Environment (StateM σ)} {decompressor : Decompressor} {options : Options}

/-- Where the decoding of what a scan found was cancelled. -/
theorem ScanOutcome.decode_asks (hpolled : env.Polled polls decompressor)
    (htimeout : options.blockTimeout = none) (input : Bytes) (scanned : ScanOutcome) :
    Asks polls (scanned.decode env options input) fun answers decoded =>
      (decoded.cancelledAt.isSome ↔ true ∈ answers) ∧
        ((∀ frame, scanned.frame = some frame → frame.InOrder options) ∨
          answers.head? = some true → decoded.cancelledAt = answers.findIdx? id) := by
  rcases hframe : scanned.frame with _ | frame
  · simp only [decode, hframe]
    exact .pure ⟨by simp, fun _ => rfl⟩
  · simp only [decode, hframe]
    refine (frame.decode_asks hpolled htimeout input).mono fun answers outcome h => ?_
    by_cases hmem : true ∈ answers
    · obtain ⟨k, hk⟩ := exists_findIdx?_of_mem hmem
      obtain ⟨stop, hstop⟩ := (h.of_mem hmem).1
      refine ⟨by simp [hstop, hmem], fun horder => ?_⟩
      rw [(h.of_findIdx? (horder.imp_left fun h => h frame rfl) k hk).1, hk]
      rfl
    · have hfull : Id.run (frame.decode (.ofDecompressor decompressor) options input) = _ :=
        frame.decode_steady_eq .standard
      have hnone : outcome.cancelledAt = none := by
        rw [(h.of_not_mem hmem).1, hfull, frame.cancelledAt_outcomeOf_map_some]
      rw [hnone, findIdx?_eq_none_iff_not_mem.2 hmem]
      exact ⟨by simp [hmem], fun _ => rfl⟩

/-- A cancellation at any moment, also one that an expansion raises. Up to the first answer that
says so, each phase is as if nobody cancelled. The report has one issue for it if there was such an
answer in any phase, the scan before the decoding, and then it does not say that all is right. -/
theorem analyze_cancelled (hpolled : env.Polled polls decompressor)
    (htimeout : options.blockTimeout = none) (input : Bytes) :
    Asks polls (scan env.cancelled input) (Id.run (scan (pure false) input)).ScannedBy ∧
      (∀ frame : Frame, Asks polls (frame.decode env options input)
        (frame.DecodedBy options
          (Id.run (frame.decode (.ofDecompressor decompressor) options input)))) ∧
      ∀ state,
        let scanned := (scan env.cancelled input).run state
        let decoded := (scanned.1.decode env options input).run scanned.2
        let report := ((analyze env options input).run state).1
        let cancelled := report.issues.filter Issue.isCancelled
        ∃ answers answers',
          polls scanned.2 = polls state ++ answers ∧
          polls decoded.2 = polls state ++ answers ++ answers' ∧
          (cancelled.length = 1 ↔ true ∈ answers ++ answers') ∧
          (∀ k, answers.findIdx? id = some k → cancelled = [.cancelled .scan k]) ∧
          (true ∉ answers → true ∈ answers' → ∃ k, cancelled = [.cancelled .decompression k] ∧
            ((∀ frame, scanned.1.frame = some frame → frame.InOrder options) ∨
              answers'.head? = some true → answers'.findIdx? id = some k)) ∧
          (true ∈ answers ++ answers' →
            report.verdict = scanned.1.fatal.elim (.partiallyValid report.issues) .invalid) := by
  refine ⟨scan_asks hpolled.asks_cancelled input,
    fun frame => frame.decode_asks hpolled htimeout input, ?_⟩
  intro state scanned decoded report cancelled
  obtain ⟨answers, hanswers, -, hscanned⟩ := scan_asks hpolled.asks_cancelled input state
  obtain ⟨answers', hanswers', -, hsome, horder⟩ :=
    scanned.1.decode_asks hpolled htimeout input scanned.2
  have hreport : report = .of input scanned.1 decoded.1 := run_analyze env options input state
  have hcancelled :
      cancelled = cancellationIssues (answers.findIdx? id) decoded.1.cancelledAt := by
    have hrows := scanned.1.failure_of_mem_rows env options input scanned.2
    have hat : scanned.1.cancelledAt = answers.findIdx? id :=
      hscanned.cancelledAt_eq (cancelledAt_scan input)
    rw [← hat, ← Report.filter_isCancelled_issuesOf hrows]
    simp only [cancelled, hreport]
    rfl
  have hone : cancelled.length = 1 ↔ true ∈ answers ++ answers' := by
    rw [hcancelled, length_cancellationIssues_eq_one_iff, hsome, List.mem_append,
      isSome_findIdx?_iff_mem]
  refine ⟨answers, answers', hanswers, by rw [hanswers', hanswers], hone, fun k hk => ?_,
    fun hnot hmem => ?_, fun hmem => ?_⟩
  · rw [hcancelled, hk]
    rfl
  · obtain ⟨k, hk⟩ := Option.isSome_iff_exists.1 (hsome.2 hmem)
    refine ⟨k, ?_, fun h => (horder h).symm.trans hk⟩
    rw [hcancelled, findIdx?_eq_none_iff_not_mem.2 hnot, hk]
    rfl
  · have hissues : report.issues ≠ [] := by
      intro hnil
      have hlength := hone.2 hmem
      simp only [cancelled, hnil, List.filter_nil, List.length_nil, Nat.zero_ne_one] at hlength
    rw [← Verdict.ofFindings_of_ne_nil hissues, hreport]
    rfl

end Analysis

/-- Surroundings in which a number of expansions raises a cancellation. They remember how many there
were and what they have answered. -/
def Environment.cancelledAfter (count : ℕ) (schedule : Schedule) :
    Environment (StateM (ℕ × List Bool)) where
  decompress body history maxSize := modifyGet fun (calls, asked) =>
    (Decompressor.lz4 body history maxSize, (calls + 1, asked))
  now := pure 0
  cancelled := modifyGet fun (calls, asked) =>
    let answer := asked.contains true || decide (count ≤ calls)
    (answer, (calls, asked ++ [answer]))
  schedule

theorem Environment.polled_cancelledAfter (count : ℕ) (schedule : Schedule) :
    (cancelledAfter count schedule).Polled Prod.snd .lz4 where
  expandsBy _ := ⟨fun _ _ _ _ hasked => ⟨rfl, hasked⟩, .pure .intro⟩
  polls_cancelled _ := rfl
  stays := by
    rintro ⟨calls, asked⟩ hmem
    have hasked : asked.contains true = true := List.contains_iff_mem.2 hmem
    show (asked.contains true || _) = true
    rw [hasked, Bool.true_or]

theorem analyze_cancelled_letters :
    let env := Environment.cancelledAfter 1 .standard
    let options : Options := { parallel := false }
    let frame := FrameLayout.letters.locate
    let input := FrameLayout.letters.encode.toArray
    ((frame.decode env options input).run (0, [])).1 =
      frame.cancelledBefore 2 (Id.run (frame.decode (.ofDecompressor .lz4) options input)) := by
  intro env options frame input
  have hpolled := Environment.polled_cancelledAfter 1 .standard
  have htimeout : options.blockTimeout = none := rfl
  obtain ⟨-, hdecode, -⟩ := analyze_cancelled hpolled htimeout input
  obtain ⟨answers, hanswers, -, hdecoded⟩ := hdecode frame (0, [])
  have hasked : ((frame.decode env options input).run (0, [])).2.2 = [false, false, true] := by
    decide +kernel
  rw [hasked, List.nil_append] at hanswers
  have horder : frame.InOrder options := Bool.and_false _
  exact (hdecoded.of_findIdx? (.inl horder) 2 (by rw [← hanswers]; rfl)).1

end Lz4Frame
