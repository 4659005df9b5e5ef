import Lz4Frame.Proofs.Content.FrontToBack

/-! An analysis that nobody cancels, in surroundings that may do anything else. Its scan finds what
there is to find, and each block has a row that says whether its checksum fits, `analyze_of_scan`.
Where blocks are expanded by a function and none has a time limit, the surroundings make no
difference at all, `run_analyze_eq_report`. -/

namespace Lz4Frame

/-! ### Scans -/

section Scan

variable {σ : Type} {holds : σ → Prop} {cancelled : StateM σ Bool}

theorem Scanner.walk_ensures (hcancelled : Ensures holds cancelled (· = false))
    (scanner : Scanner) (found : Array Block) :
    Ensures holds (walk cancelled scanner found)
      (· = Id.run (walk (pure false) scanner found)) := by
  fun_induction walk cancelled scanner found with
  | case1 scanner found ih =>
    refine .bind hcancelled fun _ hanswer => ?_
    rw [hanswer, if_neg Bool.false_ne_true]
    split
    next scanner' hnext =>
      rw [walk_of_next_none hnext]
      exact .pure rfl
    next error scanner' hnext =>
      rw [walk_of_next_error hnext]
      exact .pure rfl
    next block scanner' hnext =>
      rw [walk_of_next_ok hnext]
      exact ih block scanner' hnext

theorem scan_ensures (hcancelled : Ensures holds cancelled (· = false)) (input : Bytes) :
    Ensures holds (scan cancelled input) (· = Id.run (scan (pure false) input)) := by
  unfold scan
  split
  next => exact .pure rfl
  next header source hread =>
    split
    next => exact .pure rfl
    next scanner hstart =>
      refine .bind (scanner.walk_ensures hcancelled #[]) fun _ hwalk => ?_
      subst hwalk
      exact .pure rfl

end Scan

/-! ### Rows -/

/-- What holds of the row of a block of an input, if the block was not left out. -/
structure BlockRow.Sound (verify : Bool) (input : Bytes) (block : Block) (row : BlockRow) :
    Prop where
  block_eq : row.block = block
  checksum : row.checksum = block.check verify (block.body input)
  failure : ∀ issue, row.decompression = .failed issue → block.Failure issue

theorem forall₂_zipWith {α β γ : Type} {related : α → γ → Prop} {f : α → β → γ} {as : List α}
    {bs : List β} (h : List.Forall₂ (fun a b => related a (f a b)) as bs) :
    List.Forall₂ related as (as.zipWith f bs) := by
  induction h with
  | nil => exact .nil
  | cons hrelated _ ih => exact .cons hrelated ih

section Rows

variable {σ : Type} {env : Environment (StateM σ)} {options : Options} {input : Bytes}
  {frame : Frame}

/-- Where nobody cancels, every block is decoded. -/
theorem Frame.decodeBlocks_sound (hcancelled : Ensures (fun _ => True) env.cancelled (· = false))
    (state : σ) :
    List.Forall₂ (fun block decoded => ∃ sound : DecodedBlock, decoded = some sound ∧
        sound.Sound options.verifyChecksums block (block.body input))
      frame.blocks ((frame.decodeBlocks env options input).run state).1 := by
  have hblocks : Ensures (fun _ => True) (frame.decodeBlocks env options input)
      (List.Forall₂ (fun block decoded => ∃ sound : DecodedBlock, decoded = some sound ∧
        sound.Sound options.verifyChecksums block (block.body input)) frame.blocks) := by
    refine decodeBlocks_ensures hcancelled nofun fun _ history block _ => ?_
    exact (Decoder.decodeBlock_ensures _ history block).mono fun decoded hsound =>
      ⟨decoded, rfl, hsound⟩
  exact (hblocks state .intro).1

/-- The report of an analysis that nobody cancels, on an input with a frame. -/
theorem analyze_of_scan (hcancelled : Ensures (fun _ => True) env.cancelled (· = false))
    (options : Options) (hscan : (Id.run (scan (pure false) input)).frame = some frame)
    (state : σ) :
    ∃ next,
      let report := ((analyze env options input).run state).1
      let decoded := ((frame.decodeBlocks env options input).run next).1
      report = .of input (Id.run (scan (pure false) input)) (frame.outcomeOf options decoded) ∧
        List.Forall₂ (BlockRow.Sound options.verifyChecksums input) frame.blocks report.rows := by
  let next := ((scan env.cancelled input).run state).2
  have hrun := (scan_ensures hcancelled input state .intro).1
  have hdecoded : List.Forall₂ _ frame.blocks ((frame.decodeBlocks env options input).run next).1 :=
    frame.decodeBlocks_sound hcancelled next
  have hreport : ((analyze env options input).run state).1 =
      .of input (Id.run (scan (pure false) input))
        (frame.outcomeOf options ((frame.decodeBlocks env options input).run next).1) := by
    rw [run_analyze, hrun, ScanOutcome.decode, hscan]
    dsimp only
    rw [Frame.run_decode hdecoded.length_eq.symm]
  refine ⟨next, hreport, ?_⟩
  rw [hreport, Report.rows_of, ScanOutcome.rows, hscan]
  refine forall₂_zipWith (forall₂_zipWith (hdecoded.imp ?_))
  rintro block _ ⟨sound, rfl, hsound⟩
  exact ⟨rfl, hsound.checksum, hsound.failure⟩

end Rows

/-! ### Steady surroundings -/

/-- What decoding what a scan found comes to, without any surroundings. -/
def ScanOutcome.decodeAll (decompressor : Decompressor) (options : Options) (input : Bytes)
    (scanned : ScanOutcome) : ContentOutcome :=
  scanned.frame.elim {} fun frame =>
    frame.outcomeOf options ((frame.decodeAll decompressor options input).map some)

theorem ScanOutcome.idRun_decode (decompressor : Decompressor) (options : Options) (input : Bytes)
    (scanned : ScanOutcome) :
    Id.run (scanned.decode (.ofDecompressor decompressor) options input) =
      scanned.decodeAll decompressor options input := by
  unfold decode decodeAll
  rcases scanned.frame with _ | frame
  · rfl
  · exact Frame.decode_steady_eq .standard

/-- The report that is made in no surroundings at all. -/
theorem report_eq_of (decompressor : Decompressor) (options : Options) (input : Bytes) :
    report decompressor options input = .of input (Id.run (scan (pure false) input))
      ((Id.run (scan (pure false) input)).decodeAll decompressor options input) := by
  rw [report_eq_reportBy_standard, reportBy_of_scan rfl]
  exact congrArg _ (ScanOutcome.idRun_decode decompressor options input _)

/-- A report is a matter of what becomes of the blocks and of what is kept and verified. -/
theorem report_congr {decompressor : Decompressor} {options options' : Options} {input : Bytes}
    (hverify : options'.verifyChecksums = options.verifyChecksums)
    (hkeep : options'.keepContent = options.keepContent)
    (hdecoded : ∀ frame, (Id.run (scan (pure false) input)).frame = some frame →
      frame.decodeAll decompressor options' input = frame.decodeAll decompressor options input) :
    report decompressor options' input = report decompressor options input := by
  rw [report_eq_of, report_eq_of]
  congr 1
  unfold ScanOutcome.decodeAll
  rcases hscan : (Id.run (scan (pure false) input)).frame with _ | frame
  · rw [Option.elim_none, Option.elim_none]
  · rw [Option.elim_some, Option.elim_some, hdecoded frame hscan, Frame.outcomeOf, Frame.outcomeOf,
      ContentOutcome.of, ContentOutcome.of, hverify, hkeep]

section Steady

variable {σ : Type} {holds : σ → Prop} {env : Environment (StateM σ)} {decompressor : Decompressor}
  (hsteady : env.SteadyOn holds decompressor false) {options : Options}
  (htimeout : options.blockTimeout = none) (input : Bytes)
include hsteady htimeout

theorem ScanOutcome.decode_ensures (scanned : ScanOutcome) :
    Ensures holds (scanned.decode env options input)
      (· = scanned.decodeAll decompressor options input) := by
  unfold decode decodeAll
  rcases scanned.frame with _ | frame
  · exact .pure rfl
  · intro state hstate
    have hdecoded := frame.run_decodeBlocks_eq hsteady htimeout input hstate
    have hkept : Ensures holds (frame.decodeBlocks env options input)
        (List.Forall₂ (fun _ _ => True) frame.blocks) :=
      Frame.decodeBlocks_ensures hsteady.cancelled (fun _ _ => .intro) fun _ history block _ =>
        (frame.decodeBlock_ensures_eq hsteady.toExpandsBy htimeout input history block).mono
          fun _ _ => .intro
    constructor
    · dsimp only
      rw [Frame.run_decode (by rw [hdecoded, List.length_map, Frame.length_decodeAll]), hdecoded]
      rfl
    · dsimp only
      rw [Frame.decode_eq_map]
      exact (hkept state hstate).2

/-- Where nobody cancels, no block has a time limit and blocks are expanded by a function, both
phases find what they find in no surroundings at all. -/
theorem examine_ensures :
    Ensures holds (examine env options input)
      (· = Id.run (examine (.ofDecompressor decompressor) options input)) := by
  refine .bind (scan_ensures hsteady.cancelled input) fun scanned hscan =>
    .bind (scanned.decode_ensures hsteady htimeout input) fun decoded hdecoded => .pure ?_
  rw [← ScanOutcome.idRun_decode] at hdecoded
  subst hscan hdecoded
  rfl

/-- So the report is the one that is made in no surroundings at all. -/
theorem run_analyze_eq_report {state : σ} (hstate : holds state) :
    ((analyze env options input).run state).1 = report decompressor options input :=
  congrArg (·.report input) (examine_ensures hsteady htimeout input state hstate).1

end Steady

theorem map_block_zipWith {input : Bytes} {blocks : List Block} {outcomes : List BlockOutcome}
    (h : outcomes.length = blocks.length) :
    (blocks.zipWith (BlockRow.of input) outcomes).map BlockRow.block = blocks := by
  apply List.ext_getElem
  · simp [h]
  · intro i _ _
    rw [List.getElem_map, List.getElem_zipWith]
    rfl

section Report

variable {decompressor : Decompressor} {options : Options} {input : Bytes} {frame : Frame}
  (hscan : (Id.run (scan (pure false) input)).frame = some frame)
include hscan

/-- The rows of a report are the blocks of the frame, decoded front to back. -/
theorem rows_report :
    (report decompressor options input).rows = frame.blocks.zipWith (BlockRow.of input)
      ((frame.decodeAll decompressor options input).map DecodedBlock.outcome) := by
  rw [report_eq_of, Report.rows_of, ScanOutcome.rows, ScanOutcome.decodeAll, hscan,
    Option.elim_some, Option.elim_some, Frame.outcomeOf_map_some options Frame.length_decodeAll]
  rfl

/-- Every block has its row. -/
theorem map_block_rows_report :
    (report decompressor options input).rows.map BlockRow.block = frame.blocks := by
  rw [rows_report hscan, map_block_zipWith]
  rw [List.length_map, Frame.length_decodeAll]

theorem getElem?_rows_report (j : ℕ) :
    (report decompressor options input).rows[j]? = frame.blocks[j]?.bind fun block =>
      (frame.decodeAll decompressor options input)[j]?.map fun decoded =>
        .of input block decoded.outcome := by
  rw [rows_report hscan, List.getElem?_zipWith, List.getElem?_map]
  cases frame.blocks[j]? with
  | none => rfl
  | some block => cases (frame.decodeAll decompressor options input)[j]? <;> rfl

theorem exists_of_getElem?_rows_report {j : ℕ} {row : BlockRow}
    (hrow : (report decompressor options input).rows[j]? = some row) :
    ∃ block decoded, frame.blocks[j]? = some block ∧
      (frame.decodeAll decompressor options input)[j]? = some decoded ∧
      row = .of input block decoded.outcome := by
  rw [getElem?_rows_report hscan, Option.bind_eq_some_iff] at hrow
  obtain ⟨block, hblock, hrow⟩ := hrow
  obtain ⟨decoded, hdecoded, hrow⟩ := Option.map_eq_some_iff.1 hrow
  exact ⟨block, decoded, hblock, hdecoded, hrow.symm⟩

end Report

end Lz4Frame
