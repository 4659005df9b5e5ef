import Lz4Frame.Proofs.Expansion
import Lz4Frame.Proofs.Content.Parallel
import Lz4Frame.Proofs.Content.Totals
import Lz4Frame.Proofs.Scan.Outcomes
import Lz4Frame.Proofs.Uncancelled

/-! How big the contents of a report can be, whatever sizes the input declares. A body that was
found lies in the input, and none of its bytes stands for more than 255 bytes of content. So each
content is bounded by its body and by its frame, `Block.Admits`, and all contents together by the
input, `analyze_sizes`. Time may run, somebody may cancel, and blocks may be taken in any order. -/

namespace Lz4Frame

open BlockLayout (encodeAll locateAll)

/-! ### Bodies -/

/-- The bodies of all blocks are in the input, and no two of them share a byte of it. -/
structure BodiesWithin (input : Bytes) (blocks : List Block) : Prop where
  size_body : ∀ block ∈ blocks, (block.body input).size = block.size
  sum_size_le : (blocks.map Block.size).sum ≤ input.size

theorem BodiesWithin.take {input : Bytes} {blocks : List Block} (h : BodiesWithin input blocks)
    (k : ℕ) : BodiesWithin input (blocks.take k) where
  size_body block hmem := h.size_body block (List.mem_of_mem_take hmem)
  sum_size_le := by
    have hsum := h.sum_size_le
    rw [← List.take_append_drop k blocks, List.map_append, List.sum_append] at hsum
    omega

theorem BlockLayout.sum_size_locateAll_le (index offset : ℕ) (blocks : List BlockLayout) :
    ((locateAll index offset blocks).map Block.size).sum ≤ (encodeAll blocks).length := by
  induction blocks generalizing index offset with
  | nil => exact Nat.le_refl 0
  | cons block blocks ih =>
    have hbehind := ih (index + 1) (offset + block.encode.length)
    have hblock : (block.locate index offset).size ≤ block.encode.length := by
      rw [length_encode]
      show block.body.size ≤ _
      omega
    rw [locateAll, List.map_cons, List.sum_cons, encodeAll_cons, List.length_append]
    exact Nat.add_le_add hblock hbehind

theorem bodiesWithin_of_scan {input : Bytes} {frame : Frame}
    (hscan : (Id.run (scan (pure false) input)).frame = some frame) :
    BodiesWithin input frame.blocks where
  size_body block hmem := by
    obtain ⟨i, hblock⟩ := List.mem_iff_getElem?.1 hmem
    exact Bytes.size_of_slice? (slice?_of_scan hscan hblock)
  sum_size_le := by
    obtain ⟨blocks, rest, hblocks, -, hinput⟩ := exists_layouts_of_scan hscan
    have hsum := BlockLayout.sum_size_locateAll_le 0 frame.header.length blocks
    rw [hblocks, ← Array.length_toList, hinput, List.length_append, List.length_append]
    omega

/-- Also where a scan was cancelled, what it has found is there. -/
theorem bodiesWithin_of_run_scan {σ : Type} {cancelled : StateM σ Bool} {input : Bytes} {state : σ}
    {frame : Frame} (hscan : ((scan cancelled input).run state).1.frame = some frame) :
    BodiesWithin input frame.blocks := by
  obtain hfull | ⟨full, k, hfull, -, hcancelled⟩ := run_scan_eq_or cancelled input state
  · rw [hfull] at hscan
    exact bodiesWithin_of_scan hscan
  · rw [hcancelled, ScanOutcome.cancelledBefore, hfull] at hscan
    cases hscan
    exact (bodiesWithin_of_scan hfull).take k

/-! ### Blocks -/

/-- The content of a block may have `size` bytes, in a frame whose blocks may have `maxBlockSize`
bytes each. -/
structure Block.Admits (maxBlockSize : ℕ) (strict : Bool) (block : Block) (size : ℕ) : Prop where
  uncompressed : block.isUncompressed = true → size = block.size
  compressed : block.isUncompressed = false → size ≤ min maxBlockSize (255 * block.size)
  strict : strict = true → size ≤ maxBlockSize ∧ block.size ≤ maxBlockSize

theorem Block.Admits.le {maxBlockSize : ℕ} {strict : Bool} {block : Block} {size : ℕ}
    (h : block.Admits maxBlockSize strict size) : size ≤ 255 * block.size := by
  rcases hkind : block.isUncompressed with _ | _
  · exact (h.compressed hkind).trans (Nat.min_le_right _ _)
  · have := h.uncompressed hkind
    omega

theorem Limits.eq_ok_of_judge {limits : Limits} {elapsed : ℕ}
    {result : Except FailureReason Bytes} {content : Bytes}
    (h : limits.judge elapsed result = .ok content) : result = .ok content := by
  unfold judge at h
  split at h
  · exact h
  · split_ifs at h
    exact h

theorem Decompressor.size_lz4_le {body history content : Bytes} {maxSize : ℕ}
    (h : lz4 body history maxSize = .ok content) : content.size ≤ min maxSize (255 * body.size) := by
  rw [lz4, Block.decompress_eq_expand] at h
  rcases hexpand : Block.expand maxSize body history with error | expanded
  · rw [hexpand] at h
    cases h
  · rw [hexpand] at h
    cases h
    exact (Block.expand_bounded maxSize body history).content content hexpand

section Blocks

variable {σ : Type} {env : Environment (StateM σ)}
  (hexpands : env.ExpandsBy (fun _ => True) .lz4)
include hexpands

theorem Block.content_admits (limits : Limits) {block : Block} {body : Bytes}
    (hbody : body.size = block.size) (history : Bytes) :
    Ensures (fun _ => True) (block.content env limits body history) fun content => ∀ data,
      content = .ok data → block.Admits limits.maxBlockSize limits.strictBlockSize data.size := by
  unfold content
  by_cases hbig : (limits.strictBlockSize && decide (limits.maxBlockSize < block.size)) = true
  · rw [if_pos hbig]
    exact .pure fun _ => nofun
  rw [if_neg hbig]
  have hfits : limits.strictBlockSize = true → block.size ≤ limits.maxBlockSize := by
    simpa using hbig
  by_cases hkind : block.isUncompressed = true
  · rw [if_pos hkind]
    refine .pure ?_
    rintro _ ⟨⟩
    refine ⟨fun _ => hbody, ?_, fun hstrict => ⟨?_, hfits hstrict⟩⟩
    · rw [hkind]
      nofun
    · rw [hbody]
      exact hfits hstrict
  · rw [if_neg hkind]
    refine .bind hexpands.now fun start _ => ?_
    refine .bind (hexpands.decompress body history limits.maxBlockSize) fun result hresult => ?_
    refine .bind hexpands.now fun stop _ => .pure fun data hdata => ?_
    rcases hjudge : limits.judge (stop - start) result with reason | content
    · rw [hjudge] at hdata
      cases hdata
    · rw [hjudge] at hdata
      cases hdata
      have hle := Decompressor.size_lz4_le (hresult.symm.trans (Limits.eq_ok_of_judge hjudge))
      rw [hbody] at hle
      exact ⟨fun hstored => (hkind hstored).elim, fun _ => hle,
        fun hstrict => ⟨hle.trans (Nat.min_le_left _ _), hfits hstrict⟩⟩

theorem Decoder.decodeBlock_admits {decoder : Decoder (StateM σ)} (henv : decoder.env = env)
    (history : Bytes) {block : Block} (hbody : (block.body decoder.input).size = block.size) :
    Ensures (fun _ => True) (decoder.decodeBlock history block) fun decoded => ∀ size,
      decoded.outcome.decompression = .decompressed size →
        block.Admits decoder.limits.maxBlockSize decoder.limits.strictBlockSize size := by
  subst henv
  unfold decodeBlock
  dsimp only
  split_ifs
  · refine .map ((Block.content_admits hexpands decoder.limits hbody history).mono ?_)
    rintro (issue | content) hcontent size hsize
    · cases hsize
    · cases hsize
      exact hcontent content rfl
  · exact .pure fun _ => nofun

theorem Frame.decodeBlocks_admits (options : Options) (input : Bytes) (frame : Frame) (state : σ) :
    List.Forall₂ (fun block decoded => (block.body input).size = block.size → ∀ size,
        (DecodedBlock.outcome? block decoded).decompression = .decompressed size →
          block.Admits frame.header.maxBlockSize options.strictBlockSize size)
      frame.blocks ((frame.decodeBlocks env options input).run state).1 := by
  refine (decodeBlocks_ensures (.trivial env.cancelled) ?_ ?_ state .intro).1
  · -- a block that was left out has no content
    intro _ block _ size hsize
    cases hsize
  · intro _ history block _
    by_cases hbody : (block.body input).size = block.size
    · refine (Decoder.decodeBlock_admits hexpands rfl history hbody).mono fun decoded hadmits _ => ?_
      exact hadmits
    · exact (Ensures.trivial _).mono fun decoded _ h => (hbody h).elim

end Blocks

/-! ### Reports -/

theorem BlockStats.contentSize_ofRows_le {rows : List BlockRow}
    (h : ∀ row ∈ rows, ∀ size, row.decompression = .decompressed size →
      size ≤ 255 * row.block.size) :
    (ofRows rows).contentSize ≤ 255 * ((rows.map BlockRow.block).map Block.size).sum := by
  rw [contentSize_ofRows]
  induction rows with
  | nil => exact Nat.le_refl 0
  | cons row rows ih =>
    have hbehind := ih fun row' hmem => h row' (List.mem_cons_of_mem row hmem)
    have hrow : row.decompression.size?.getD 0 ≤ 255 * row.block.size := by
      rcases hsize : row.decompression with _ | size | issue
      · exact Nat.zero_le _
      · exact h row List.mem_cons_self size hsize
      · exact Nat.zero_le _
    simp only [List.map_cons, List.sum_cons]
    omega

section Rows

variable {σ : Type} {env : Environment (StateM σ)} (options : Options) {input : Bytes}
  {scanned : ScanOutcome} {frame : Frame} (state : σ)

theorem ScanOutcome.map_block_rows_decode (hframe : scanned.frame = some frame) :
    (scanned.rows input ((scanned.decode env options input).run state).1).map BlockRow.block =
      frame.blocks := by
  have hlength := frame.length_decodeBlocks env options input state
  rw [rows, decode, hframe]
  dsimp only [Option.elim_some]
  rw [Frame.run_decode hlength, map_block_zipWith]
  show (frame.blocks.zipWith DecodedBlock.outcome? _).length = _
  rw [List.length_zipWith, hlength, Nat.min_self]

theorem ScanOutcome.admits_of_mem_rows (hexpands : env.ExpandsBy (fun _ => True) .lz4)
    (hwithin : ∀ frame, scanned.frame = some frame → BodiesWithin input frame.blocks)
    {row : BlockRow}
    (hrow : row ∈ scanned.rows input ((scanned.decode env options input).run state).1) :
    ∃ frame, scanned.frame = some frame ∧ ∀ size, row.decompression = .decompressed size →
      row.block.Admits frame.header.maxBlockSize options.strictBlockSize size := by
  obtain ⟨frame, block, decoded, hframe, hmem, hadmits, rfl⟩ := exists_of_mem_rows env options
    input (fun frame => frame.decodeBlocks_admits hexpands options input state) hrow
  exact ⟨frame, hframe, hadmits ((hwithin frame hframe).size_body block hmem)⟩

/-- Together the contents are no bigger than the bodies allow. -/
theorem ScanOutcome.contentSize_ofRows_le (hexpands : env.ExpandsBy (fun _ => True) .lz4)
    (hwithin : ∀ frame, scanned.frame = some frame → BodiesWithin input frame.blocks) :
    (BlockStats.ofRows
        (scanned.rows input ((scanned.decode env options input).run state).1)).contentSize ≤
      255 * input.size := by
  rcases hframe : scanned.frame with _ | frame
  · rw [rows, hframe]
    exact Nat.zero_le _
  · have hrows := BlockStats.contentSize_ofRows_le fun row hrow size hsize => by
      obtain ⟨_, -, hadmits⟩ := admits_of_mem_rows options state hexpands hwithin hrow
      exact (hadmits size hsize).le
    rw [map_block_rows_decode options state hframe] at hrows
    exact hrows.trans (Nat.mul_le_mul_left 255 (hwithin frame hframe).sum_size_le)

end Rows

/-- Whatever sizes an input declares, no content is bigger than its block and its frame allow, and
all contents together have at most 255 times as many bytes as the input. -/
theorem analyze_sizes {σ : Type} {env : Environment (StateM σ)}
    (hexpands : env.ExpandsBy (fun _ => True) .lz4) (options : Options) (input : Bytes)
    (state : σ) :
    let report := ((analyze env options input).run state).1
    (∀ row ∈ report.rows, ∃ header, report.header = some header ∧
      ∀ size, row.decompression = .decompressed size →
        row.block.Admits header.maxBlockSize options.strictBlockSize size) ∧
      report.stats.contentSize ≤ 255 * input.size ∧
      ∀ size, report.contentSize = some size → size ≤ 255 * input.size := by
  intro report
  have hwithin : ∀ frame, ((scan env.cancelled input).run state).1.frame = some frame →
      BodiesWithin input frame.blocks := fun _ => bodiesWithin_of_run_scan
  have htotal : report.stats.contentSize ≤ 255 * input.size :=
    ScanOutcome.contentSize_ofRows_le options _ hexpands hwithin
  refine ⟨fun row hrow => ?_, htotal, fun size hsize => ?_⟩
  · obtain ⟨frame, hframe, hadmits⟩ :=
      ScanOutcome.admits_of_mem_rows options _ hexpands hwithin hrow
    exact ⟨frame.header, congrArg (Option.map Frame.header) hframe, hadmits⟩
  · obtain hnone | hsome := size_analyze env options input state
    · exact nomatch hnone.symm.trans hsize
    · cases hsome.symm.trans hsize
      exact htotal

theorem analyze_sizes_letters :
    let report := ((analyze (.ticking .backward) {} FrameLayout.letters.encode.toArray).run 0).1
    (∀ row ∈ report.rows, ∃ header, report.header = some header ∧
      ∀ size, row.decompression = .decompressed size →
        row.block.Admits header.maxBlockSize true size) ∧
      report.stats.contentSize ≤ 255 * FrameLayout.letters.encode.toArray.size ∧
      ∀ size, report.contentSize = some size →
        size ≤ 255 * FrameLayout.letters.encode.toArray.size :=
  analyze_sizes (Environment.steadyOn_ticking .backward).toExpandsBy {} _ 0

end Lz4Frame
