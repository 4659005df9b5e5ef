import Lz4Frame.Proofs.Content.Blocks

/-! The totals of a decoding: the size of the content, the content and the outcome of its checksum.
There are totals exactly if everything was decoded, `Frame.AllDecoded`, and then they are those of
the contents of the blocks, put one behind the other. This holds in any surroundings, so also where
the decompressor remembers things, time runs and somebody cancels in the middle. -/

namespace Lz4Frame

/-! ### Contents -/

theorem size_whole {contents : List (Option Bytes)} {content : Bytes}
    (h : whole contents = some content) :
    content.size = (contents.map fun content => (content.map Array.size).getD 0).sum := by
  induction contents generalizing content with
  | nil =>
    cases h
    rfl
  | cons first contents ih =>
    cases first with
    | none => cases h
    | some first =>
      obtain ⟨rest, hrest, rfl⟩ := Option.map_eq_some_iff.1 h
      simp [ih hrest]

theorem exists_whole_iff {contents : List (Option Bytes)} :
    (∃ content, whole contents = some content) ↔ ∀ content ∈ contents, content.isSome = true := by
  induction contents with
  | nil => simp [whole]
  | cons first contents ih =>
    cases first with
    | none => simp [whole]
    | some first => simp [whole, ih]

/-! ### Content checksums -/

theorem CheckOutcome.ofContent_eq_absent_iff {announced verify : Bool} {stored : Option UInt32}
    {content : Option Bytes} :
    ofContent announced verify stored content = .absent ↔ announced = false := by
  cases announced <;> cases stored <;> cases content <;> cases verify <;> simp [ofContent]

theorem CheckOutcome.ofContent_eq_checked_iff {announced verify : Bool} {stored : Option UInt32}
    {content : Option Bytes} {check : Check} :
    ofContent announced verify stored content = .checked check ↔
      announced = true ∧ verify = true ∧ ∃ checksum data, stored = some checksum ∧
        content = some data ∧ check = .ofData data.toList checksum := by
  cases announced <;> cases stored <;> cases content <;> cases verify <;>
    simp [ofContent, eq_comm]

theorem CheckOutcome.ofContent_eq_skipped_iff {announced verify : Bool} {stored : Option UInt32}
    {content : Option Bytes} :
    ofContent announced verify stored content = .skipped ↔
      announced = true ∧ ¬ (verify = true ∧ stored.isSome = true ∧ content.isSome = true) := by
  cases announced <;> cases stored <;> cases content <;> cases verify <;> simp [ofContent]

/-! ### Everything decoded -/

/-- Nothing of the content is missing: the frame is complete, no block was left out and each of them
has content. -/
structure Frame.AllDecoded (frame : Frame) (outcome : ContentOutcome) : Prop where
  complete : frame.endOffset.isSome = true
  cancelledAt : outcome.cancelledAt = none
  decompressed : ∀ block ∈ outcome.blocks, ∃ size, block.decompression = .decompressed size

/-- The size of the contents of all blocks. -/
def ContentOutcome.blockSize (outcome : ContentOutcome) : ℕ :=
  (outcome.blocks.map fun block => block.decompression.size?.getD 0).sum

theorem Decompression.isSome_size?_iff {decompression : Decompression} :
    decompression.size?.isSome = true ↔ ∃ size, decompression = .decompressed size := by
  cases decompression <;> simp [size?]

/-- What is said about the content of a block is true. -/
def DecodedBlock.Sized (decoded : DecodedBlock) : Prop :=
  decoded.outcome.decompression.size? = decoded.content.map Array.size

section AllDecoded

variable {frame : Frame} {decoded : List (Option DecodedBlock)} (options : Options)

theorem Frame.contentOf_eq_some_iff {content : Bytes} :
    frame.contentOf decoded = some content ↔
      frame.isComplete = true ∧ whole (decoded.map DecodedBlock.content?) = some content := by
  unfold contentOf
  split_ifs with h <;> simp [h]

/-- Everything was decoded exactly if there is a content. -/
theorem Frame.allDecoded_outcomeOf_iff (hlength : decoded.length = frame.blocks.length)
    (hsized : ∀ block, some block ∈ decoded → block.Sized) :
    frame.AllDecoded (frame.outcomeOf options decoded) ↔
      ∃ content, frame.contentOf decoded = some content := by
  simp only [contentOf_eq_some_iff, exists_and_left]
  by_cases hnone : none ∈ decoded
  · -- neither can be where a block was left out
    obtain ⟨i, hi⟩ := frame.cancelledAt_outcomeOf options hnone
    rw [whole_eq_none_of_mem (List.mem_map.2 ⟨none, hnone, rfl⟩)]
    constructor
    · intro h
      rw [h.cancelledAt] at hi
      cases hi
    · rintro ⟨-, content, hcontent⟩
      cases hcontent
  obtain ⟨decoded, rfl⟩ := exists_eq_map_some hnone
  rw [List.length_map] at hlength
  have hiff : ∀ block ∈ decoded,
      (∃ size, block.outcome.decompression = .decompressed size) ↔ block.content.isSome = true := by
    intro block hmem
    rw [← Decompression.isSome_size?_iff, hsized block (List.mem_map_of_mem hmem),
      Option.isSome_map]
  rw [outcomeOf_map_some options hlength, exists_whole_iff]
  constructor
  · rintro ⟨hcomplete, -, hblocks⟩
    refine ⟨hcomplete, ?_⟩
    simp only [List.map_map, List.forall_mem_map]
    exact fun block hmem => (hiff block hmem).1 (hblocks _ (List.mem_map_of_mem hmem))
  · rintro ⟨hcomplete, hcontents⟩
    simp only [List.map_map, List.forall_mem_map] at hcontents
    refine ⟨hcomplete, rfl, List.forall_mem_map.2 fun block hmem => ?_⟩
    exact (hiff block hmem).2 (hcontents block hmem)

/-- The content is as big as the contents of the blocks are together. -/
theorem Frame.size_of_contentOf (hlength : decoded.length = frame.blocks.length)
    (hsized : ∀ block, some block ∈ decoded → block.Sized) {content : Bytes}
    (h : frame.contentOf decoded = some content) :
    content.size = (frame.outcomeOf options decoded).blockSize := by
  have hwhole := (contentOf_eq_some_iff.1 h).2
  have hnone : none ∉ decoded := by
    intro hmem
    rw [whole_eq_none_of_mem (List.mem_map.2 ⟨none, hmem, rfl⟩)] at hwhole
    cases hwhole
  obtain ⟨decoded, rfl⟩ := exists_eq_map_some hnone
  rw [List.length_map] at hlength
  rw [size_whole hwhole, outcomeOf_map_some options hlength, ContentOutcome.blockSize]
  show _ = ((decoded.map DecodedBlock.outcome).map _).sum
  simp only [List.map_map]
  refine congrArg List.sum (List.map_congr_left fun block hmem => ?_)
  exact congrArg (·.getD 0) (hsized block (List.mem_map_of_mem hmem)).symm

/-- The content is that of the blocks, one behind the other. -/
theorem Frame.contentOf_eq_some_iff_allDecoded (hlength : decoded.length = frame.blocks.length)
    (hsized : ∀ block, some block ∈ decoded → block.Sized) {content : Bytes} :
    frame.contentOf decoded = some content ↔
      frame.AllDecoded (frame.outcomeOf options decoded) ∧
        whole (decoded.map DecodedBlock.content?) = some content := by
  rw [allDecoded_outcomeOf_iff options hlength hsized]
  constructor
  · intro h
    exact ⟨⟨content, h⟩, (contentOf_eq_some_iff.1 h).2⟩
  · rintro ⟨⟨content', h⟩, hcontent⟩
    exact contentOf_eq_some_iff.2 ⟨(contentOf_eq_some_iff.1 h).1, hcontent⟩

theorem Frame.size_outcomeOf_eq_some_iff (hlength : decoded.length = frame.blocks.length)
    (hsized : ∀ block, some block ∈ decoded → block.Sized) {size : ℕ} :
    (frame.outcomeOf options decoded).size = some size ↔
      frame.AllDecoded (frame.outcomeOf options decoded) ∧
        size = (frame.outcomeOf options decoded).blockSize ∧
          ∃ content, whole (decoded.map DecodedBlock.content?) = some content ∧
            size = content.size := by
  show (frame.contentOf decoded).map Array.size = some size ↔ _
  rw [Option.map_eq_some_iff]
  constructor
  · rintro ⟨content, hcontent, rfl⟩
    obtain ⟨hall, hwhole⟩ := (contentOf_eq_some_iff_allDecoded options hlength hsized).1 hcontent
    exact ⟨hall, size_of_contentOf options hlength hsized hcontent, content, hwhole, rfl⟩
  · rintro ⟨hall, -, content, hwhole, rfl⟩
    exact ⟨content, (contentOf_eq_some_iff_allDecoded options hlength hsized).2 ⟨hall, hwhole⟩, rfl⟩

theorem Frame.content_outcomeOf_eq_some_iff (hlength : decoded.length = frame.blocks.length)
    (hsized : ∀ block, some block ∈ decoded → block.Sized) {content : Bytes} :
    (frame.outcomeOf options decoded).content = some content ↔
      frame.AllDecoded (frame.outcomeOf options decoded) ∧ options.keepContent = true ∧
        whole (decoded.map DecodedBlock.content?) = some content := by
  show (if options.keepContent then frame.contentOf decoded else none) = some content ↔ _
  rw [and_left_comm, ← contentOf_eq_some_iff_allDecoded options hlength hsized]
  split_ifs with hkeep <;> simp [hkeep]

theorem Frame.contentChecksum_outcomeOf_eq_checked_iff
    (hlength : decoded.length = frame.blocks.length)
    (hsized : ∀ block, some block ∈ decoded → block.Sized) {check : Check} :
    (frame.outcomeOf options decoded).contentChecksum = .checked check ↔
      frame.header.descriptor.hasContentChecksum = true ∧
        frame.AllDecoded (frame.outcomeOf options decoded) ∧ options.verifyChecksums = true ∧
          ∃ stored content, frame.contentChecksum = some stored ∧
            whole (decoded.map DecodedBlock.content?) = some content ∧
              check = ⟨stored, XxHash32.digest content.toList⟩ := by
  refine CheckOutcome.ofContent_eq_checked_iff.trans (and_congr_right fun _ => ?_)
  simp only [contentOf_eq_some_iff_allDecoded options hlength hsized]
  constructor
  · rintro ⟨hverify, stored, content, hstored, ⟨hall, hcontent⟩, rfl⟩
    exact ⟨hall, hverify, stored, content, hstored, hcontent, rfl⟩
  · rintro ⟨hall, hverify, stored, content, hstored, hcontent, rfl⟩
    exact ⟨hverify, stored, content, hstored, ⟨hall, hcontent⟩, rfl⟩

theorem Frame.contentChecksum_outcomeOf_eq_skipped_iff
    (hlength : decoded.length = frame.blocks.length)
    (hsized : ∀ block, some block ∈ decoded → block.Sized) :
    (frame.outcomeOf options decoded).contentChecksum = .skipped ↔
      frame.header.descriptor.hasContentChecksum = true ∧
        ¬ (frame.AllDecoded (frame.outcomeOf options decoded) ∧ options.verifyChecksums = true ∧
          frame.contentChecksum.isSome = true) := by
  refine CheckOutcome.ofContent_eq_skipped_iff.trans (and_congr_right fun _ => not_congr ?_)
  rw [allDecoded_outcomeOf_iff options hlength hsized, ← Option.isSome_iff_exists]
  exact ⟨fun ⟨hverify, hstored, hcontent⟩ => ⟨hcontent, hverify, hstored⟩,
    fun ⟨hcontent, hverify, hstored⟩ => ⟨hverify, hstored, hcontent⟩⟩

end AllDecoded

/-! ### Reports -/

namespace BlockStats

/-- The totals after some more rows. -/
theorem foldl_add (stats : BlockStats) (rows : List BlockRow) :
    rows.foldl add stats =
      { count := stats.count + rows.length
        compressed := stats.compressed + rows.countP fun row => !row.block.isUncompressed
        uncompressed := stats.uncompressed + rows.countP fun row => row.block.isUncompressed
        totalSize := stats.totalSize + (rows.map fun row => row.block.size).sum
        minSize := (stats.minSize.toList ++ rows.map fun row => row.block.size).min?
        maxSize := (stats.maxSize.toList ++ rows.map fun row => row.block.size).max?
        contentSize := stats.contentSize +
          (rows.map fun row => row.decompression.size?.getD 0).sum } := by
  induction rows generalizing stats with
  | nil =>
    obtain ⟨_, _, _, _, least, most, _⟩ := stats
    cases least <;> cases most <;> rfl
  | cons row rows ih =>
    rw [List.foldl_cons, ih]
    congr 1
    · simp only [add, List.length_cons]
      omega
    · simp only [add, List.countP_cons]
      cases row.block.isUncompressed <;> simp
      omega
    · simp only [add, List.countP_cons]
      omega
    · simp only [add, List.map_cons, List.sum_cons]
      omega
    · cases hleast : stats.minSize <;>
        simp only [add, hleast, Option.elim_none, Option.elim_some, Option.toList_none,
          Option.toList_some, List.singleton_append, List.nil_append, List.map_cons,
          List.min?_cons', List.foldl_cons, min_comm]
    · cases hmost : stats.maxSize <;>
        simp only [add, hmost, Option.elim_none, Option.elim_some, Option.toList_none,
          Option.toList_some, List.singleton_append, List.nil_append, List.map_cons,
          List.max?_cons', List.foldl_cons, max_comm]
    · simp only [add, List.map_cons, List.sum_cons]
      omega

theorem contentSize_ofRows (rows : List BlockRow) :
    (ofRows rows).contentSize = (rows.map fun row => row.decompression.size?.getD 0).sum := by
  rw [ofRows, foldl_add]
  exact Nat.zero_add _

end BlockStats

/-- The rows of a frame add up to the sizes that its blocks have. -/
theorem contentSize_stats_of {input : Bytes} {scanned : ScanOutcome} {frame : Frame}
    {outcome : ContentOutcome} (hframe : scanned.frame = some frame)
    (hlength : outcome.blocks.length = frame.blocks.length) :
    (Report.of input scanned outcome).stats.contentSize = outcome.blockSize := by
  have hrows : scanned.rows input outcome =
      frame.blocks.zipWith (BlockRow.of input) outcome.blocks := by
    rw [ScanOutcome.rows, hframe]
    rfl
  show (BlockStats.ofRows (scanned.rows input outcome)).contentSize = _
  have hblocks : (frame.blocks.zipWith (BlockRow.of input) outcome.blocks).map BlockRow.outcome =
      outcome.blocks := map_outcome_zipWith hlength
  rw [BlockStats.contentSize_ofRows, hrows, ContentOutcome.blockSize, ← hblocks, List.map_map,
    hblocks]
  rfl

/-! ### Decodings -/

section Decode

variable {σ : Type} (env : Environment (StateM σ)) (options : Options) (input : Bytes)
  (frame : Frame) (state : σ)

theorem Frame.sized_decodeBlocks {block : DecodedBlock}
    (h : some block ∈ ((frame.decodeBlocks env options input).run state).1) : block.Sized := by
  obtain ⟨i, hi, hblock⟩ := List.mem_iff_getElem.1 h
  have hfits := (List.forall₂_iff_get.1 (frame.forall₂_decodeBlocks env options input state)).2 i
    (by rw [← frame.length_decodeBlocks env options input state]; exact hi) hi
  exact (hfits block hblock).size

end Decode

theorem size_analyze {σ : Type} (env : Environment (StateM σ)) (options : Options) (input : Bytes)
    (state : σ) :
    let report := ((analyze env options input).run state).1
    report.contentSize = none ∨ report.contentSize = some report.stats.contentSize := by
  rw [run_analyze]
  generalize (scan env.cancelled input).run state = scan
  obtain ⟨scanned, next⟩ := scan
  rcases hframe : scanned.frame with _ | frame
  · refine .inl ?_
    rw [ScanOutcome.decode, hframe]
    rfl
  have hlength := frame.length_decodeBlocks env options input next
  have hdecode : ((scanned.decode env options input).run next).1 =
      frame.outcomeOf options ((frame.decodeBlocks env options input).run next).1 := by
    rw [ScanOutcome.decode, hframe]
    exact Frame.run_decode hlength
  rw [hdecode]
  dsimp only
  rw [contentSize_stats_of hframe]
  · rcases hsize : (frame.outcomeOf options _).size with _ | size
    · exact .inl hsize
    · obtain ⟨-, rfl, -⟩ := (Frame.size_outcomeOf_eq_some_iff options hlength fun _ =>
        frame.sized_decodeBlocks env options input next).1 hsize
      exact .inr hsize
  · show (frame.blocks.zipWith DecodedBlock.outcome? _).length = _
    rw [List.length_zipWith, hlength, Nat.min_self]

/-- The totals of a decoding, in any surroundings. They are there exactly if everything was decoded,
and they are what hashing, counting and putting together the contents of the blocks gives. -/
theorem decode_totals {σ : Type} :
    (∀ (env : Environment (StateM σ)) (options : Options) (input : Bytes) (frame : Frame)
        (state : σ),
      let decoded := ((frame.decodeBlocks env options input).run state).1
      let contents := decoded.map DecodedBlock.content?
      let outcome := ((frame.decode env options input).run state).1
      outcome.blocks = frame.blocks.zipWith DecodedBlock.outcome? decoded ∧
      outcome.cancelledAt = decoded.findIdx? Option.isNone ∧
      (∀ size, outcome.size = some size ↔
        frame.AllDecoded outcome ∧ size = outcome.blockSize ∧
          ∃ content, whole contents = some content ∧ size = content.size) ∧
      (∀ content, outcome.content = some content ↔
        frame.AllDecoded outcome ∧ options.keepContent = true ∧ whole contents = some content) ∧
      (outcome.contentChecksum = .absent ↔
        frame.header.descriptor.hasContentChecksum = false) ∧
      (∀ check, outcome.contentChecksum = .checked check ↔
        frame.header.descriptor.hasContentChecksum = true ∧ frame.AllDecoded outcome ∧
          options.verifyChecksums = true ∧ ∃ stored content,
            frame.contentChecksum = some stored ∧ whole contents = some content ∧
              check = ⟨stored, XxHash32.digest content.toList⟩) ∧
      (outcome.contentChecksum = .skipped ↔
        frame.header.descriptor.hasContentChecksum = true ∧
          ¬ (frame.AllDecoded outcome ∧ options.verifyChecksums = true ∧
            frame.contentChecksum.isSome = true))) ∧
      ∀ (env : Environment (StateM σ)) (options : Options) (input : Bytes) (state : σ),
        let report := ((analyze env options input).run state).1
        report.contentSize = none ∨ report.contentSize = some report.stats.contentSize := by
  constructor
  · intro env options input frame state decoded contents outcome
    have hlength : decoded.length = frame.blocks.length :=
      frame.length_decodeBlocks env options input state
    have hsized : ∀ block, some block ∈ decoded → block.Sized := fun _ =>
      frame.sized_decodeBlocks env options input state
    have houtcome : outcome = frame.outcomeOf options decoded := Frame.run_decode hlength
    clear_value outcome
    subst houtcome
    exact ⟨rfl, rfl, fun _ => Frame.size_outcomeOf_eq_some_iff options hlength hsized,
      fun _ => Frame.content_outcomeOf_eq_some_iff options hlength hsized,
      CheckOutcome.ofContent_eq_absent_iff,
      fun _ => Frame.contentChecksum_outcomeOf_eq_checked_iff options hlength hsized,
      Frame.contentChecksum_outcomeOf_eq_skipped_iff options hlength hsized⟩
  · intro env options input state report
    exact size_analyze env options input state

end Lz4Frame
