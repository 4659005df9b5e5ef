import Lz4Frame.Proofs.Analysis
import Lz4Frame.Proofs.Content.Window

/-! What it takes to be a well-formed frame, and that an analysis accepts nothing else. A frame
conforms if its bodies hold a content that agrees with everything else it says: its checksums, its
content size and its maximum block size. The analysis finds no issue exactly in inputs that are one
conforming frame and nothing more, `verdict_eq_ok_iff_conforms`. -/

namespace Lz4Frame

namespace BlockLayout

/-- What a block says about itself is true: its body is not too big and has the stored checksum. -/
def Intact (maxSize : ℕ) (block : BlockLayout) : Prop :=
  block.body.size ≤ maxSize ∧
    ∀ stored, block.checksum = some stored → stored = XxHash32.digest block.body.toList

/-- The body of a block holds `content`, behind `history`. -/
def Holds (maxSize : ℕ) (history : Bytes) (block : BlockLayout) (content : Bytes) : Prop :=
  match block.kind with
  | .uncompressed => content = block.body
  | .compressed => Block.expand maxSize block.body history = .ok content

/-- Blocks hold a content together. Linked ones may refer to all of the content before them. -/
inductive HoldAll (linked : Bool) (maxSize : ℕ) :
    (history : Bytes) → List BlockLayout → (content : Bytes) → Prop
  | nil (history : Bytes) : HoldAll linked maxSize history [] #[]
  | cons {history content rest : Bytes} {block : BlockLayout} {blocks : List BlockLayout} :
    block.Intact maxSize → block.Holds maxSize history content →
      HoldAll linked maxSize (if linked then history ++ content else history) blocks rest →
        HoldAll linked maxSize history (block :: blocks) (content ++ rest)

end BlockLayout

/-- A frame has a header that the format allows, and the checksums that its flag byte announces. -/
structure FrameLayout.WellFormed (frame : FrameLayout) : Prop where
  header : frame.header.WellFormed
  blockChecksums : ∀ block ∈ frame.blocks,
    block.checksum.isSome = frame.header.descriptor.flags.toNat.testBit 4
  contentChecksum : frame.contentChecksum.isSome = frame.header.descriptor.flags.toNat.testBit 2

theorem FrameLayout.wellFormed (frame : FrameLayout) : frame.WellFormed where
  header := frame.header.wellFormed
  blockChecksums block hblock :=
    (frame.isSome_checksum block hblock).trans frame.header.descriptor.hasBlockChecksums_eq
  contentChecksum :=
    frame.isSome_contentChecksum.trans frame.header.descriptor.hasContentChecksum_eq

/-- A written frame holds `content`, and all of its fields agree with it. Blocks are linked if bit 5
of the flag byte is clear. -/
structure FrameLayout.Conforms (frame : FrameLayout) (content : Bytes) : Prop where
  blocks : BlockLayout.HoldAll (!frame.header.descriptor.flags.toNat.testBit 5)
    (4 ^ (frame.header.descriptor.sizes.toNat / 16 + 4)) #[] frame.blocks content
  contentSize : ∀ size, frame.header.contentSize = some size → size.toNat = content.size
  contentChecksum : ∀ stored, frame.contentChecksum = some stored →
    stored = XxHash32.digest content.toList

/-! ### Blocks without issues -/

/-- An outcome that gives no reason to complain. -/
def BlockOutcome.Clean (outcome : BlockOutcome) : Prop :=
  (∀ issue, outcome.decompression ≠ .failed issue) ∧ outcome.checksum.failed = false

theorem BlockRow.issues_eq_nil_iff (row : BlockRow) : row.issues = [] ↔ row.outcome.Clean := by
  unfold issues BlockOutcome.Clean BlockRow.outcome
  rw [List.append_eq_nil_iff]
  refine and_congr ?_ ?_
  · cases row.decompression <;> simp
  · cases row.checksum with
    | absent => simp [CheckOutcome.failed]
    | skipped => simp [CheckOutcome.failed]
    | checked check => cases h : check.passed <;> simp [CheckOutcome.failed, h]

theorem CheckOutcome.contentIssues_eq_nil_iff (outcome : CheckOutcome) :
    outcome.contentIssues = [] ↔ outcome.failed = false := by
  unfold contentIssues failed
  cases outcome with
  | absent => simp
  | skipped => simp
  | checked check => cases h : check.passed <;> simp [h]

namespace BlockLayout

theorem failed_check_iff (block : BlockLayout) :
    (block.check true).failed = false ↔
      ∀ stored, block.checksum = some stored → stored = XxHash32.digest block.body.toList := by
  unfold check
  cases block.checksum with
  | none => simp [CheckOutcome.failed]
  | some stored => simp [CheckOutcome.failed, Check.passed, Check.ofData]

theorem content_lz4_eq_ok_iff {maxSize index : ℕ} {history content : Bytes} {block : BlockLayout} :
    block.content .lz4 true maxSize index history = .ok content ↔
      block.body.size ≤ maxSize ∧ block.Holds maxSize history content := by
  unfold BlockLayout.content Holds
  by_cases hsize : maxSize < block.body.size
  · simp [hsize]
  · rw [Bool.true_and, if_neg (by simpa using hsize)]
    cases block.kind with
    | uncompressed => simp [Nat.not_lt.1 hsize, eq_comm]
    | compressed =>
      rw [Decompressor.lz4, Block.decompress_eq_expand]
      cases Block.expand maxSize block.body history <;> simp [Except.mapError, Nat.not_lt.1 hsize]

/-- Every block is expanded and checked if nothing else is asked for. -/
theorem decode_default (maxSize index : ℕ) (history : Bytes) (block : BlockLayout) :
    block.decode .lz4 {} maxSize index history =
      .ofContent (block.check true) (block.content .lz4 true maxSize index history) := rfl

theorem clean_ofContent_iff {checksum : CheckOutcome} {result : Except Issue Bytes} :
    (DecodedBlock.ofContent checksum result).outcome.Clean ↔
      checksum.failed = false ∧ ∃ content, result = .ok content := by
  unfold BlockOutcome.Clean
  cases result <;> simp [DecodedBlock.ofContent]

theorem content_ofContent_eq_some_iff {checksum : CheckOutcome} {result : Except Issue Bytes}
    {content : Bytes} :
    (DecodedBlock.ofContent checksum result).content = some content ↔ result = .ok content := by
  cases result <;> simp [DecodedBlock.ofContent]

/-- A block without issues is intact and holds its content. -/
theorem clean_decode_iff {maxSize index : ℕ} {history content : Bytes} {block : BlockLayout} :
    (block.decode .lz4 {} maxSize index history).outcome.Clean ∧
        (block.decode .lz4 {} maxSize index history).content = some content ↔
      block.Intact maxSize ∧ block.Holds maxSize history content := by
  rw [decode_default, clean_ofContent_iff, content_ofContent_eq_some_iff, failed_check_iff,
    content_lz4_eq_ok_iff, Intact]
  constructor
  · rintro ⟨⟨hchecksum, -⟩, hsize, hholds⟩
    exact ⟨⟨hsize, hchecksum⟩, hholds⟩
  · rintro ⟨⟨hsize, hchecksum⟩, hholds⟩
    exact ⟨⟨hchecksum, content, content_lz4_eq_ok_iff.2 ⟨hsize, hholds⟩⟩, hsize, hholds⟩

theorem exists_content_of_clean {maxSize index : ℕ} {history : Bytes} {block : BlockLayout}
    (h : (block.decode .lz4 {} maxSize index history).outcome.Clean) :
    ∃ content, (block.decode .lz4 {} maxSize index history).content = some content := by
  rw [decode_default] at h ⊢
  obtain ⟨-, content, hcontent⟩ := clean_ofContent_iff.1 h
  exact ⟨content, content_ofContent_eq_some_iff.2 hcontent⟩

/-- Blocks without issues hold a content together, the one that their contents make up. -/
theorem clean_decodeUnbounded_iff {linked : Bool} {maxSize index : ℕ} {history content : Bytes}
    {blocks : List BlockLayout} :
    (∀ decoded ∈ decodeUnbounded {} linked maxSize index history blocks,
        decoded.outcome.Clean) ∧
        whole ((decodeUnbounded {} linked maxSize index history blocks).map
          DecodedBlock.content) = some content ↔
      HoldAll linked maxSize history blocks content := by
  induction blocks generalizing index history content with
  | nil =>
    constructor
    · rintro ⟨-, hwhole⟩
      cases hwhole
      exact .nil history
    · intro h
      cases h
      exact ⟨nofun, rfl⟩
  | cons block blocks ih =>
    rw [decodeUnbounded, List.forall_mem_cons, List.map_cons]
    constructor
    · rintro ⟨⟨hfirst, hrest⟩, hwhole⟩
      obtain ⟨first, hcontent⟩ := exists_content_of_clean hfirst
      rw [hcontent] at hrest hwhole
      obtain ⟨rest, hrest', rfl⟩ := Option.map_eq_some_iff.1 hwhole
      obtain ⟨hintact, hholds⟩ := clean_decode_iff.1 ⟨hfirst, hcontent⟩
      exact .cons hintact hholds (ih.1 ⟨hrest, hrest'⟩)
    · intro h
      cases h with
      | cons hintact hholds hrest =>
        obtain ⟨hfirst, hcontent⟩ := clean_decode_iff.2 ⟨hintact, hholds⟩
        obtain ⟨hclean, hwhole⟩ := ih.2 hrest
        rw [hcontent]
        exact ⟨⟨hfirst, hclean⟩, Option.map_eq_some_iff.2 ⟨_, hwhole, rfl⟩⟩

/-- Blocks without issues all have a content. -/
theorem exists_whole_of_clean {linked : Bool} {maxSize index : ℕ} {history : Bytes}
    {blocks : List BlockLayout}
    (h : ∀ decoded ∈ decodeAll .lz4 {} linked maxSize index history blocks,
      decoded.outcome.Clean) :
    ∃ content, whole ((decodeAll .lz4 {} linked maxSize index history blocks).map
      DecodedBlock.content) = some content := by
  induction blocks generalizing index history with
  | nil => exact ⟨#[], rfl⟩
  | cons block blocks ih =>
    obtain ⟨hfirst, hrest⟩ := List.forall_mem_cons.1 h
    obtain ⟨first, hcontent⟩ := exists_content_of_clean hfirst
    obtain ⟨rest, hwhole⟩ := ih hrest
    refine ⟨first ++ rest, ?_⟩
    rw [hcontent] at hwhole
    rw [decodeAll, List.map_cons, hcontent, whole, hwhole]
    rfl

end BlockLayout

/-! ### Frames without issues -/

theorem sizeIssues_eq_nil_iff {declared : Option UInt64} {actual : ℕ} :
    sizeIssues (declared.map UInt64.toNat) (some actual) = [] ↔
      ∀ size, declared = some size → size.toNat = actual := by
  unfold sizeIssues
  cases declared <;> simp

theorem trailingIssues_eq_nil_iff {inputSize frameEnd : ℕ} :
    trailingIssues inputSize (some frameEnd) = [] ↔ inputSize ≤ frameEnd := by
  by_cases h : frameEnd < inputSize
  · simp [trailingIssues, h]
  · simp [trailingIssues, h, Nat.not_lt.1 h]

/-- The content checksum of a complete frame is the one of its content. -/
theorem CheckOutcome.failed_ofContent_iff {announced : Bool} {stored : Option UInt32}
    {content : Bytes} (h : stored.isSome = announced) :
    (ofContent announced true stored (some content)).failed = false ↔
      ∀ checksum, stored = some checksum → checksum = XxHash32.digest content.toList := by
  subst h
  cases stored with
  | none => simp [ofContent, failed]
  | some stored => simp [ofContent, failed, Check.passed, Check.ofData]

/-- A report finds nothing wrong with a complete frame exactly if no part of it does. -/
theorem Report.verdict_of_eq_ok_iff {input : Bytes} {frame : Frame} {endOffset : ℕ}
    {decoded : ContentOutcome} (hend : frame.endOffset = some endOffset)
    (hcancelled : decoded.cancelledAt = none) :
    (of input { frame := some frame } decoded).verdict = .ok ↔
      (∀ outcome ∈ (frame.blocks.zipWith (BlockRow.of input) decoded.blocks).map BlockRow.outcome,
        outcome.Clean) ∧
      decoded.contentChecksum.failed = false ∧
      sizeIssues (frame.header.contentSize.map UInt64.toNat) decoded.size = [] ∧
      input.size ≤ endOffset := by
  have hrows : (frame.blocks.zipWith (BlockRow.of input) decoded.blocks).flatMap BlockRow.issues =
      [] ↔ ∀ outcome ∈ (frame.blocks.zipWith (BlockRow.of input) decoded.blocks).map
        BlockRow.outcome, outcome.Clean := by
    rw [List.flatMap_eq_nil_iff, List.forall_mem_map]
    exact forall₂_congr fun row _ => BlockRow.issues_eq_nil_iff row
  rw [← hrows, ← CheckOutcome.contentIssues_eq_nil_iff, ← trailingIssues_eq_nil_iff, ← hend]
  refine Verdict.ofFindings_eq_ok_iff.trans ?_
  simp only [issuesOf, hcancelled, cancellationIssues, List.append_nil, List.append_eq_nil_iff,
    true_and, and_assoc]
  rfl

/-- Without a dictionary, nothing comes before the first block. -/
theorem initialHistory_default (header : Header) :
    Frame.initialHistory { header } {} = Bytes.tail #[] Format.windowSize := by
  rw [Bytes.tail_of_size_le (Nat.zero_le _)]
  unfold Frame.initialHistory
  split_ifs
  · exact Bytes.tail_of_size_le (Nat.zero_le _)
  · rfl

namespace FrameLayout

variable {frame : FrameLayout} {trailing : List UInt8}

/-- The blocks of a frame give no reason to complain exactly if they hold a content. -/
theorem clean_decoded_iff {content : Bytes} :
    let decoded := (frame.found trailing).decoded .lz4 {} frame.header
    (∀ outcome ∈ decoded.map DecodedBlock.outcome, outcome.Clean) ∧
        whole (decoded.map DecodedBlock.content) = some content ↔
      BlockLayout.HoldAll (!frame.header.descriptor.flags.toNat.testBit 5)
        (4 ^ (frame.header.descriptor.sizes.toNat / 16 + 4)) #[] frame.blocks content := by
  intro decoded
  have hmax : frame.header.maxBlockSize = 4 ^ (frame.header.descriptor.sizes.toNat / 16 + 4) :=
    frame.header.descriptor.bytes_maxSize
  rw [← Descriptor.independentBlocks_eq, ← hmax]
  have hdecoded : decoded = BlockLayout.decodeUnbounded {}
      (!frame.header.descriptor.independentBlocks) frame.header.maxBlockSize 0 #[]
      frame.blocks := by
    rw [← BlockLayout.decodeAll_tail, ← initialHistory_default frame.header]
    rfl
  rw [List.forall_mem_map, hdecoded, BlockLayout.clean_decodeUnbounded_iff]

/-- Where there is a content, the fields that are compared with it decide. -/
theorem fields_agree_iff {content : Bytes}
    (hwhole : whole (((frame.found trailing).decoded .lz4 {} frame.header).map
      DecodedBlock.content) = some content) :
    let decoded := (frame.found trailing).content .lz4 {} frame.header
    decoded.contentChecksum.failed = false ∧
        sizeIssues (frame.header.contentSize.map UInt64.toNat) decoded.size = [] ↔
      (∀ stored, frame.contentChecksum = some stored →
          stored = XxHash32.digest content.toList) ∧
        ∀ size, frame.header.contentSize = some size → size.toNat = content.size := by
  rw [← CheckOutcome.failed_ofContent_iff frame.isSome_contentChecksum, ← sizeIssues_eq_nil_iff]
  simp only [Remainder.content, hwhole]
  rfl

/-- What an analysis complains about in an input that starts with a written frame. -/
theorem verdict_eq_ok_iff {schedule : Schedule} {input : Bytes}
    (h : input.toList = frame.encode ++ trailing) :
    (reportBy schedule .lz4 {} input).verdict = .ok ↔
      trailing = [] ∧ ∃ content, frame.Conforms content := by
  have hsize : input.size ≤ frame.encode.length ↔ trailing = [] := by
    rw [← Array.length_toList, h, List.length_append, ← List.length_eq_zero_iff]
    omega
  have hlength : (((frame.found trailing).decoded .lz4 {} frame.header).map
      DecodedBlock.outcome).length = frame.locate.blocks.length := by
    rw [List.length_map, Remainder.decoded, BlockLayout.length_decodeAll, locate,
      BlockLayout.length_locateAll, found]
  rw [reportBy_of_encode schedule .lz4 {} h, Report.verdict_of_eq_ok_iff rfl rfl, hsize,
    Remainder.blocks_content, map_outcome_zipWith hlength]
  constructor
  · rintro ⟨hclean, hchecksum, hcontentSize, htrailing⟩
    obtain ⟨content, hwhole⟩ := BlockLayout.exists_whole_of_clean (List.forall_mem_map.1 hclean)
    obtain ⟨hchecksum, hcontentSize⟩ := (fields_agree_iff hwhole).1 ⟨hchecksum, hcontentSize⟩
    exact ⟨htrailing, content, clean_decoded_iff.1 ⟨hclean, hwhole⟩, hcontentSize, hchecksum⟩
  · rintro ⟨htrailing, content, hblocks, hcontentSize, hchecksum⟩
    obtain ⟨hclean, hwhole⟩ := clean_decoded_iff.2 hblocks
    obtain ⟨hchecksum, hcontentSize⟩ := (fields_agree_iff hwhole).2 ⟨hchecksum, hcontentSize⟩
    exact ⟨hclean, hchecksum, hcontentSize, htrailing⟩

end FrameLayout

/-- **Soundness and completeness of the verdict.** An analysis finds an input to be all right
exactly if it is one well-formed frame that conforms, and nothing more. -/
theorem verdict_eq_ok_iff_conforms (schedule : Schedule) (input : Bytes) :
    (reportBy schedule .lz4 {} input).verdict = .ok ↔
      ∃ (frame : FrameLayout) (content : Bytes),
        input.toList = frame.encode ∧ frame.WellFormed ∧ frame.Conforms content := by
  constructor
  · intro hok
    rcases FrameLayout.exists_or_fatal input with ⟨frame, trailing, hinput⟩ | ⟨hfatal, -⟩
    · obtain ⟨rfl, content, hconforms⟩ := (FrameLayout.verdict_eq_ok_iff hinput).1 hok
      exact ⟨frame, content, by rw [hinput, List.append_nil], frame.wellFormed, hconforms⟩
    · rw [reportBy_of_scan rfl] at hok
      obtain ⟨hnone, -⟩ := Verdict.ofFindings_eq_ok_iff.1 hok
      rw [hnone] at hfatal
      cases hfatal
  · rintro ⟨frame, content, hinput, -, hconforms⟩
    have hinput' : input.toList = frame.encode ++ [] := by rw [hinput, List.append_nil]
    exact (FrameLayout.verdict_eq_ok_iff hinput').2 ⟨rfl, content, hconforms⟩

/-- Linked blocks, the second of which copies from the first. The content is abcdxabcdy. -/
def FrameLayout.linkedPhrase : FrameLayout where
  header :=
    { descriptor := { phrase.header.descriptor with flags := 0x5D, flags_allowed := by decide }
      contentSize := some 10
      dictionaryId := some 7
      isSome_contentSize := by decide
      isSome_dictionaryId := by decide }
  blocks := [.letters, ⟨.compressed, #[0x10, 0x78, 0x05, 0x00, 0x10, 0x79], some 0xE37DDCA1,
    by decide, by decide⟩, .nothing]
  contentChecksum := some 0xF430FEDF
  isSome_checksum := by decide
  isSome_contentChecksum := by decide

theorem FrameLayout.linkedPhrase_conforms :
    linkedPhrase.Conforms #[0x61, 0x62, 0x63, 0x64, 0x78, 0x61, 0x62, 0x63, 0x64, 0x79] where
  blocks := by
    have hcontent : (#[0x61, 0x62, 0x63, 0x64, 0x78, 0x61, 0x62, 0x63, 0x64, 0x79] : Bytes) =
        #[0x61, 0x62, 0x63, 0x64] ++ (#[0x78, 0x61, 0x62, 0x63, 0x64, 0x79] ++ (#[] ++ #[])) := by
      decide
    have hintact : ∀ block ∈ linkedPhrase.blocks,
        block.body.size ≤ 65536 ∧ block.checksum = some (XxHash32.digest block.body.toList) := by
      decide +kernel
    have hblock : ∀ block ∈ linkedPhrase.blocks, block.Intact 65536 := fun block hmem =>
      ⟨(hintact block hmem).1, fun _ h => Option.some.inj (h.symm.trans (hintact block hmem).2)⟩
    simp only [linkedPhrase, List.forall_mem_cons] at hblock
    obtain ⟨hfirst, hsecond, hthird, -⟩ := hblock
    rw [hcontent]
    refine .cons hfirst rfl (.cons hsecond ?_ (.cons hthird rfl (.nil _)))
    show Block.expand 65536 _ _ = _
    decide +kernel
  contentSize := by
    rintro _ ⟨⟩
    rfl
  contentChecksum := by
    rintro _ ⟨⟩
    decide +kernel

/-- Its bytes are all right, and not with another byte behind the header fields. -/
theorem verdict_eq_ok_iff_conforms_linkedPhrase :
    let fields : List UInt8 := [0x04, 0x22, 0x4D, 0x18, 0x5D, 0x40, 0x0A, 0x00, 0x00, 0x00, 0x00,
      0x00, 0x00, 0x00, 0x07, 0x00, 0x00, 0x00]
    let behind : List UInt8 := [0x04, 0x00, 0x00, 0x80, 0x61, 0x62, 0x63, 0x64, 0x05, 0x37, 0x64,
      0xA3, 0x06, 0x00, 0x00, 0x00, 0x10, 0x78, 0x05, 0x00, 0x10, 0x79, 0xA1, 0xDC, 0x7D, 0xE3,
      0x00, 0x00, 0x00, 0x80, 0x05, 0x5D, 0xCC, 0x02, 0x00, 0x00, 0x00, 0x00, 0xDF, 0xFE, 0x30,
      0xF4]
    (reportBy .standard .lz4 {} (fields ++ [0x13] ++ behind).toArray).verdict = .ok ∧
      (reportBy .standard .lz4 {} (fields ++ [0x00] ++ behind).toArray).verdict ≠ .ok := by
  intro fields behind
  constructor
  · exact (verdict_eq_ok_iff_conforms _ _).2 ⟨.linkedPhrase, _, by decide +kernel,
      FrameLayout.wellFormed _, FrameLayout.linkedPhrase_conforms⟩
  · decide +kernel

end Lz4Frame
