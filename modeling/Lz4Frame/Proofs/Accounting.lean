import Mathlib.Algebra.Order.BigOperators.Group.List
import Lz4Frame.Proofs.Content.Parallel
import Lz4Frame.Proofs.Content.Totals
import Lz4Frame.Proofs.Truncation
import Lz4Frame.Proofs.Uncancelled

/-! Where the bytes of a complete frame are. The header, the blocks, the end mark and the content
checksum lie one behind the other from the start of the input up to the end of the frame,
`FrameLayout.tile_extents_locate`, and the totals of a report say how many bytes they are,
`analyze_accounts`. -/

namespace Lz4Frame

open BlockLayout (encodeAll encodeAll_cons locateAll)

/-! ### Totals -/

namespace BlockStats

/-- The totals fit each other and the rows. -/
structure Consistent (stats : BlockStats) (rows : List BlockRow) : Prop where
  count : stats.count = rows.length
  compressed : stats.compressed = rows.countP fun row => !row.block.isUncompressed
  uncompressed : stats.uncompressed = rows.countP fun row => row.block.isUncompressed
  count_eq_add : stats.count = stats.compressed + stats.uncompressed
  totalSize : stats.totalSize = (rows.map fun row => row.block.size).sum
  minSize_eq_none : stats.minSize = none ↔ stats.count = 0
  maxSize_eq_none : stats.maxSize = none ↔ stats.count = 0
  least : ∀ least, stats.minSize = some least →
    (∃ row ∈ rows, row.block.size = least) ∧ stats.count * least ≤ stats.totalSize
  most : ∀ most, stats.maxSize = some most →
    (∃ row ∈ rows, row.block.size = most) ∧ stats.totalSize ≤ stats.count * most

theorem consistent_ofRows (rows : List BlockRow) : (ofRows rows).Consistent rows := by
  rw [ofRows, foldl_add]
  simp only [Nat.zero_add, Option.toList_none, List.nil_append]
  exact
    { count := rfl
      compressed := rfl
      uncompressed := rfl
      count_eq_add := by
        rw [List.length_eq_countP_add_countP fun row : BlockRow => !row.block.isUncompressed]
        simp
      totalSize := rfl
      minSize_eq_none := by simp
      maxSize_eq_none := by simp
      least := by
        intro least hleast
        obtain ⟨hmem, hle⟩ := List.min?_eq_some_iff.1 hleast
        refine ⟨List.mem_map.1 hmem, ?_⟩
        simpa using List.card_nsmul_le_sum _ _ hle
      most := by
        intro most hmost
        obtain ⟨hmem, hle⟩ := List.max?_eq_some_iff.1 hmost
        refine ⟨List.mem_map.1 hmem, ?_⟩
        simpa using List.sum_le_card_nsmul _ _ hle }

end BlockStats

/-! ### Extents -/

/-- A part of an input, from an offset up to another one. -/
structure Extent where
  start : ℕ
  stop : ℕ

namespace Extent

/-- No part is empty, the first one starts at `start`, each other one where the one before it stops,
and the last one stops at `stop`. -/
def Tile (start : ℕ) : List Extent → (stop : ℕ) → Prop
  | [], stop => start = stop
  | part :: parts, stop => part.start = start ∧ start < part.stop ∧ Tile part.stop parts stop

namespace Tile

variable {start middle stop : ℕ} {parts behind : List Extent}

theorem append (h : Tile start parts middle) (hbehind : Tile middle behind stop) :
    Tile start (parts ++ behind) stop := by
  induction parts generalizing start with
  | nil =>
    obtain rfl : start = middle := h
    exact hbehind
  | cons part parts ih =>
    obtain ⟨hstart, hlt, hparts⟩ := h
    exact ⟨hstart, hlt, ih hparts⟩

theorem le (h : Tile start parts stop) : start ≤ stop := by
  induction parts generalizing start with
  | nil => exact Nat.le_of_eq h
  | cons part parts ih =>
    obtain ⟨-, hlt, hparts⟩ := h
    exact hlt.le.trans (ih hparts)

theorem lt_of_mem (h : Tile start parts stop) {part : Extent} (hpart : part ∈ parts) :
    start ≤ part.start ∧ part.start < part.stop := by
  induction parts generalizing start with
  | nil => cases hpart
  | cons first parts ih =>
    obtain ⟨rfl, hlt, hparts⟩ := h
    rcases List.mem_cons.1 hpart with rfl | hpart
    · exact ⟨le_rfl, hlt⟩
    · obtain ⟨hle, hlt'⟩ := ih hparts hpart
      exact ⟨hlt.le.trans hle, hlt'⟩

theorem pairwise (h : Tile start parts stop) : parts.Pairwise (·.stop ≤ ·.start) := by
  induction parts generalizing start with
  | nil => exact .nil
  | cons part parts ih =>
    obtain ⟨-, -, hparts⟩ := h
    exact .cons (fun other hother => (hparts.lt_of_mem hother).1) (ih hparts)

/-- The offsets in some part are the ones from the start of the first to the end of the last. -/
theorem exists_mem_iff (h : Tile start parts stop) {position : ℕ} :
    (∃ part ∈ parts, part.start ≤ position ∧ position < part.stop) ↔
      start ≤ position ∧ position < stop := by
  induction parts generalizing start with
  | nil =>
    obtain rfl : start = stop := h
    simp
  | cons part parts ih =>
    obtain ⟨rfl, hlt, hparts⟩ := h
    have hle := hparts.le
    rw [List.exists_mem_cons_iff, ih hparts]
    omega

end Tile

end Extent

/-- Where a block is, with its size word and its checksum. -/
def Block.extent (block : Block) : Extent := ⟨block.offset, block.endOffset⟩

/-- Where the content checksum is, if the frame has one. -/
def Frame.checksumExtent? (frame : Frame) : Option Extent :=
  frame.contentChecksum.map fun _ =>
    ⟨frame.endMarkOffset + Format.wordSize, frame.endMarkOffset + 2 * Format.wordSize⟩

/-- Where the parts of a complete frame are: the header, the blocks, the end mark and the content
checksum. -/
def Frame.extents (frame : Frame) : List Extent :=
  ⟨0, frame.header.length⟩ :: frame.blocks.map Block.extent ++
    ⟨frame.endMarkOffset, frame.endMarkOffset + Format.wordSize⟩ :: frame.checksumExtent?.toList

namespace BlockLayout

theorem tile_extents_locateAll (index offset : ℕ) (blocks : List BlockLayout) :
    Extent.Tile offset ((locateAll index offset blocks).map Block.extent)
      (offset + (encodeAll blocks).length) := by
  induction blocks generalizing index offset with
  | nil => rfl
  | cons block blocks ih =>
    have hlength := block.length_encode
    refine ⟨rfl, ?_, ?_⟩
    · show offset < (block.locate index offset).endOffset
      rw [endOffset_locate]
      omega
    · rw [Block.extent, endOffset_locate, encodeAll_cons, List.length_append, ← Nat.add_assoc]
      exact ih _ _

/-- The bytes of blocks that all have a checksum, or of which none has one. -/
theorem length_encodeAll {checksums : Bool} {blocks : List BlockLayout}
    (h : ∀ block ∈ blocks, block.checksum.isSome = checksums) (index offset : ℕ) :
    (encodeAll blocks).length =
      4 * blocks.length + ((locateAll index offset blocks).map Block.size).sum +
        if checksums then 4 * blocks.length else 0 := by
  induction blocks generalizing index offset with
  | nil => simp [locateAll]
  | cons block blocks ih =>
    have hbehind := ih (fun other hother => h other (List.mem_cons_of_mem _ hother)) (index + 1)
      (offset + block.encode.length)
    rw [encodeAll_cons, List.length_append, length_encode, h block List.mem_cons_self, hbehind,
      locateAll, List.map_cons, List.sum_cons, List.length_cons]
    simp only [locate]
    split_ifs <;> omega

end BlockLayout

namespace FrameLayout

theorem length_encode (frame : FrameLayout) :
    frame.encode.length = frame.header.length + (encodeAll frame.blocks).length + 4 +
      if frame.header.descriptor.hasContentChecksum then 4 else 0 := by
  rw [encode, remainder, List.length_append, List.length_append, List.length_append,
    Header.length_encode, Word.length_encodeOptional, frame.isSome_contentChecksum]
  simp [Format.endMark, Nat.add_assoc]

/-- The parts of a frame lie one behind the other, from the start of the header on. -/
theorem tile_extents_locate (frame : FrameLayout) :
    Extent.Tile 0 frame.locate.extents frame.encode.length := by
  have hheader : 0 < frame.header.length := by
    unfold Header.length Format.minHeaderSize
    omega
  have hblocks := BlockLayout.tile_extents_locateAll 0 frame.header.length frame.blocks
  rw [← endMarkOffset_locate] at hblocks
  have hchecksum : Extent.Tile (frame.locate.endMarkOffset + Format.wordSize)
      frame.locate.checksumExtent?.toList frame.encode.length := by
    rw [length_encode, ← endMarkOffset_locate, ← frame.isSome_contentChecksum]
    rw [Frame.checksumExtent?, show frame.locate.contentChecksum = frame.contentChecksum from rfl]
    rcases frame.contentChecksum with _ | word
    · rfl
    · exact ⟨rfl, by simp [Format.wordSize], by simp [Extent.Tile, Format.wordSize]⟩
  exact ⟨rfl, hheader, hblocks.append ⟨rfl, by simp [Format.wordSize], hchecksum⟩⟩

/-- How many bytes a frame has, from the totals over its blocks. -/
theorem length_encode_eq (frame : FrameLayout) :
    frame.encode.length = frame.header.length + 4 * frame.blocks.length +
      (frame.locate.blocks.map Block.size).sum +
      (if frame.header.descriptor.hasBlockChecksums then 4 * frame.blocks.length else 0) + 4 +
      if frame.header.descriptor.hasContentChecksum then 4 else 0 := by
  rw [length_encode, BlockLayout.length_encodeAll frame.isSome_checksum 0 frame.header.length]
  simp only [locate]
  omega

/-- The end mark is where the blocks of a frame end. -/
theorem extract_endMark {input : Bytes} {frame : FrameLayout} {trailing : List UInt8}
    (h : input.toList = frame.encode ++ trailing) :
    (input.extract frame.locate.endMarkOffset
      (frame.locate.endMarkOffset + Format.wordSize)).toList = Format.endMark := by
  rw [Array.toList_extract, List.extract_eq_take_drop, Nat.add_sub_cancel_left,
    endMarkOffset_locate, ← List.drop_drop, drop_length_header h, List.drop_left]
  rfl

end FrameLayout

/-! ### Reports -/

theorem BlockRow.map_block_of_sound {verify : Bool} {input : Bytes} {blocks : List Block}
    {rows : List BlockRow} (h : List.Forall₂ (BlockRow.Sound verify input) blocks rows) :
    rows.map BlockRow.block = blocks := by
  induction h with
  | nil => rfl
  | cons hrow _ ih => rw [List.map_cons, hrow.block_eq, ih]

/-- In the report on a complete frame, the totals tell where the frame ends: every block takes a
size word besides its body, and a checksum where they are announced, and behind the blocks there are
an end mark and perhaps a content checksum. The totals are the ones of the rows, and the parts of
the frame, its rows among them, share out the bytes up to its end. -/
theorem analyze_accounts {σ : Type} {env : Environment (StateM σ)}
    (hcancelled : Ensures (fun _ => True) env.cancelled (· = false)) (options : Options)
    {input : Bytes} {frame : Frame} {stop : ℕ}
    (hscan : (Id.run (scan (pure false) input)).frame = some frame)
    (hstop : frame.endOffset = some stop) (state : σ) :
    let report := ((analyze env options input).run state).1
    let count := report.stats.count
    let descriptor := frame.header.descriptor
    report.header = some frame.header ∧ report.frameEnd = some stop ∧
      stop = frame.header.length + 4 * count + report.stats.totalSize +
        (if descriptor.hasBlockChecksums then 4 * count else 0) + 4 +
        (if descriptor.hasContentChecksum then 4 else 0) ∧
      stop ≤ input.size ∧ report.stats.Consistent report.rows ∧
      report.rows.map BlockRow.block = frame.blocks ∧
      (input.extract frame.endMarkOffset (frame.endMarkOffset + 4)).toList = Format.endMark ∧
      frame.checksumExtent?.isSome = descriptor.hasContentChecksum ∧
      (∀ part ∈ frame.extents, part.start < part.stop) ∧
      frame.extents.Pairwise (·.stop ≤ ·.start) ∧
      ∀ position, (∃ part ∈ frame.extents, part.start ≤ position ∧ position < part.stop) ↔
        position < stop := by
  intro report count descriptor
  obtain ⟨next, hreport, hrows⟩ := analyze_of_scan hcancelled options hscan state
  have hblocks : report.rows.map BlockRow.block = frame.blocks :=
    BlockRow.map_block_of_sound hrows
  have hstats : report.stats.Consistent report.rows := by
    rw [show report = _ from hreport]
    exact BlockStats.consistent_ofRows _
  have hheader : report.header = some frame.header := by
    rw [show report = _ from hreport]
    exact congrArg (Option.map Frame.header) hscan
  have hend : report.frameEnd = some stop := by
    rw [show report = _ from hreport]
    exact (congrArg (Option.bind · Frame.endOffset) hscan).trans hstop
  have hcount : count = frame.blocks.length := by
    rw [← hblocks, List.length_map]
    exact hstats.count
  have htotal : report.stats.totalSize = (frame.blocks.map Block.size).sum := by
    rw [hstats.totalSize, ← hblocks, List.map_map]
    rfl
  obtain ⟨layout, trailing, rfl, hinput⟩ := FrameLayout.exists_of_scan hscan hstop
  cases hstop
  have htile := layout.tile_extents_locate
  refine ⟨hheader, hend, ?_, (FrameLayout.extract_encode hinput).1, hstats, hblocks,
    FrameLayout.extract_endMark hinput, ?_, fun part hpart => (htile.lt_of_mem hpart).2,
    htile.pairwise, fun position => ?_⟩
  · have hlength : layout.locate.blocks.length = layout.blocks.length :=
      BlockLayout.length_locateAll _ _ _
    rw [hcount, htotal, hlength]
    exact layout.length_encode_eq
  · rw [Frame.checksumExtent?, Option.isSome_map]
    exact layout.isSome_contentChecksum
  · rw [htile.exists_mem_iff]
    exact and_iff_right (Nat.zero_le _)

/-- A frame with all that it can announce, and one more byte behind it. -/
theorem analyze_accounts_phrase :
    let input := FrameLayout.phraseBytes ++ #[0xFF]
    let frame := FrameLayout.phrase.locate
    let report := ((analyze (.ticking .backward) {} input).run 0).1
    let count := report.stats.count
    (Id.run (scan (pure false) input)).frame = some frame ∧ frame.endOffset = some 61 ∧
      frame.extents = [⟨0, 19⟩, ⟨19, 31⟩, ⟨31, 45⟩, ⟨45, 53⟩, ⟨53, 57⟩, ⟨57, 61⟩] ∧
      report.frameEnd = some 61 ∧
      61 = 19 + 4 * count + report.stats.totalSize + 4 * count + 4 + 4 ∧ 61 ≤ input.size ∧
      report.stats.Consistent report.rows ∧ frame.extents.Pairwise (·.stop ≤ ·.start) := by
  intro input frame report count
  have hinput : input.toList = FrameLayout.phrase.encode ++ [0xFF] := by
    rw [Array.toList_append, FrameLayout.phraseBytes_eq]
  have hscan : (Id.run (scan (pure false) input)).frame = some frame := by
    rw [FrameLayout.scan_encode_append hinput]
  have hstop : frame.endOffset = some 61 := rfl
  have hextents : FrameLayout.phrase.locate.extents =
      [⟨0, 19⟩, ⟨19, 31⟩, ⟨31, 45⟩, ⟨45, 53⟩, ⟨53, 57⟩, ⟨57, 61⟩] := rfl
  have hheader : frame.header.length = 19 := by decide
  have hblocks : frame.header.descriptor.hasBlockChecksums = true := by decide
  have hcontent : frame.header.descriptor.hasContentChecksum = true := by decide
  have hcancelled := (Environment.steadyOn_ticking .backward).cancelled
  obtain ⟨-, hend, htotal, hle, hstats, -, -, -, -, hpairwise, -⟩ :=
    analyze_accounts hcancelled {} hscan hstop 0
  rw [hheader, if_pos hblocks, if_pos hcontent] at htotal
  exact ⟨hscan, hstop, hextents, hend, htotal, hle, hstats, hpairwise⟩

end Lz4Frame
