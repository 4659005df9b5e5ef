import Lz4Frame.Proofs.Content.FrontToBack
import Lz4Frame.Proofs.Scan.Bodies
import Lz4Frame.Proofs.Uncancelled

/-! Blocks do not get in each other's way. Two inputs that differ within the body of one block only
have the same scan, and each of their blocks has a row. Independent blocks have nothing from each
other, so no other row is another one. Linked blocks have their history from the ones before them,
so that behind the block a content may be another one, but neither a checksum nor a sample, nor the
content of a block that is stored as it is, `analyze_agreeOutside`. -/

namespace Lz4Frame

/-! ### Decoding -/

section Decode

variable {decompressor : Decompressor} {options : Options} {input input' : Bytes} {frame : Frame}
  {i j : ℕ} {block : Block}

theorem Frame.checksum_decodePure (history : Bytes) (block : Block) :
    (frame.decodePure decompressor options input history block).outcome.checksum =
      block.check options.verifyChecksums (block.body input) := by
  unfold decodePure Decoder.decodeBlock
  dsimp only
  split_ifs
  · show (DecodedBlock.ofContent _ (Id.run _)).outcome.checksum = _
    unfold DecodedBlock.ofContent
    split <;> rfl
  · rfl

/-- A body that is stored as it is needs no history. -/
theorem Frame.decodePure_of_isUncompressed (h : block.isUncompressed = true)
    (history history' : Bytes) :
    frame.decodePure decompressor options input history block =
      frame.decodePure decompressor options input history' block := by
  unfold decodePure Decoder.decodeBlock Block.content
  simp only [h, if_true]

/-- What becomes of an independent block is a matter of its body. -/
theorem Frame.getElem?_decodeAll_of_independent
    (hindependent : frame.header.descriptor.independentBlocks = true)
    (hbody : ∀ block, frame.blocks[j]? = some block → block.body input' = block.body input) :
    (frame.decodeAll decompressor options input')[j]? =
      (frame.decodeAll decompressor options input)[j]? := by
  rw [decodeAll_of_independent hindependent, decodeAll_of_independent hindependent,
    List.getElem?_map, List.getElem?_map]
  rcases hblock : frame.blocks[j]? with _ | block
  · rw [Option.map_none, Option.map_none]
  · rw [Option.map_some, Option.map_some, decodePure_congr (hbody block hblock)]

/-- What becomes of a linked block is a matter of the bodies up to it. -/
theorem Frame.getElem?_decodeAll_of_le
    (hbody : ∀ k block, k ≤ j → frame.blocks[k]? = some block →
      block.body input' = block.body input) :
    (frame.decodeAll decompressor options input')[j]? =
      (frame.decodeAll decompressor options input)[j]? :=
  Decoder.getElem?_decodeAll_congr
    (fun k block hk hblock _ => decodePure_congr (hbody k block hk hblock)) _

/-- Some history was there for each block. -/
theorem Frame.exists_decodePure_of_getElem? {decoded : DecodedBlock}
    (hblock : frame.blocks[j]? = some block)
    (hdecoded : (frame.decodeAll decompressor options input)[j]? = some decoded) :
    ∃ history, decoded = frame.decodePure decompressor options input history block := by
  obtain ⟨history, hpure⟩ : ∃ history, (frame.decodeAll decompressor options input)[j]? =
      some (frame.decodePure decompressor options input history block) :=
    Decoder.exists_getElem?_decodeAll hblock
  exact ⟨history, Option.some_inj.1 (hdecoded.symm.trans hpure)⟩

/-- A block with the same body has the same checksum, whatever its history, and the same content if
it is stored as it is. -/
theorem Frame.decodeAll_alike {decoded decoded' : DecodedBlock}
    (hblock : frame.blocks[j]? = some block) (hbody : block.body input' = block.body input)
    (hdecoded : (frame.decodeAll decompressor options input)[j]? = some decoded)
    (hdecoded' : (frame.decodeAll decompressor options input')[j]? = some decoded') :
    decoded'.outcome.checksum = decoded.outcome.checksum ∧
      (block.isUncompressed = true → decoded' = decoded) := by
  obtain ⟨history, rfl⟩ := exists_decodePure_of_getElem? hblock hdecoded
  obtain ⟨history', rfl⟩ := exists_decodePure_of_getElem? hblock hdecoded'
  refine ⟨?_, fun huncompressed => ?_⟩
  · rw [checksum_decodePure, checksum_decodePure, hbody]
  · rw [decodePure_congr hbody, decodePure_of_isUncompressed huncompressed history' history]

end Decode

/-! ### Rows -/

/-- The sample of a block is the front of its body. -/
theorem Block.sample_eq {input : Bytes} {block : Block}
    (h : input.slice? block.bodyOffset block.size = some (block.body input)) (count : ℕ) :
    input.sample block.bodyOffset (min count block.size) =
      (block.body input).extract 0 (min count block.size) := by
  obtain ⟨-, hbody⟩ := Bytes.slice?_eq_some_iff.1 h
  rw [← hbody, Array.extract_extract, Bytes.sample]
  congr 1
  omega

theorem BlockRow.of_congr {input input' : Bytes} {block : Block} (outcome : BlockOutcome)
    (h : input.slice? block.bodyOffset block.size = some (block.body input))
    (h' : input'.slice? block.bodyOffset block.size = some (block.body input'))
    (hbody : block.body input' = block.body input) :
    of input' block outcome = of input block outcome := by
  rw [of, of, Block.sample_eq h, Block.sample_eq h', hbody]

section Report

variable {σ : Type} {env : Environment (StateM σ)} {decompressor : Decompressor}
  (hsteady : env.SteadyOn (fun _ => True) decompressor false) {options : Options}
  (htimeout : options.blockTimeout = none) {input : Bytes} {frame : Frame}
  (hscan : (Id.run (scan (pure false) input)).frame = some frame) (state : σ)
include hsteady htimeout hscan

/-- Every block has its row. -/
theorem map_block_rows :
    ((analyze env options input).run state).1.rows.map BlockRow.block = frame.blocks := by
  rw [run_analyze_eq_report hsteady htimeout input .intro, map_block_rows_report hscan]

theorem getElem?_rows_analyze (j : ℕ) :
    ((analyze env options input).run state).1.rows[j]? = frame.blocks[j]?.bind fun block =>
      (frame.decodeAll decompressor options input)[j]?.map fun decoded =>
        .of input block decoded.outcome := by
  rw [run_analyze_eq_report hsteady htimeout input .intro, getElem?_rows_report hscan]

theorem exists_of_getElem?_rows {j : ℕ} {row : BlockRow}
    (hrow : ((analyze env options input).run state).1.rows[j]? = some row) :
    ∃ block decoded, frame.blocks[j]? = some block ∧
      (frame.decodeAll decompressor options input)[j]? = some decoded ∧
      row = .of input block decoded.outcome := by
  rw [run_analyze_eq_report hsteady htimeout input .intro] at hrow
  exact exists_of_getElem?_rows_report hscan hrow

end Report

/-- Whatever happens within the body of one block, the scan and the rows before it do not see it,
and every block keeps its row. If blocks are independent, no other row sees it. Else, a row behind
it may have another content, but the same checksum and sample, and also the same content if its
block is stored as it is. -/
theorem analyze_agreeOutside {σ : Type} {env : Environment (StateM σ)}
    {decompressor : Decompressor} (hsteady : env.SteadyOn (fun _ => True) decompressor false)
    {options : Options} (htimeout : options.blockTimeout = none) {input input' : Bytes}
    {frame : Frame} (hscan : (Id.run (scan (pure false) input)).frame = some frame) {i : ℕ}
    {block : Block} (hblock : frame.blocks[i]? = some block)
    (hagree : input.AgreeOutside block.bodyOffset block.bodyEnd input') (state state' : σ) :
    let report := ((analyze env options input).run state).1
    let report' := ((analyze env options input').run state').1
    ((scan env.cancelled input').run state').1 = ((scan env.cancelled input).run state).1 ∧
      report.rows.map BlockRow.block = frame.blocks ∧
      report'.rows.map BlockRow.block = frame.blocks ∧
      (frame.header.descriptor.independentBlocks = true →
        ∀ j, j ≠ i → report'.rows[j]? = report.rows[j]?) ∧
      (∀ j, j < i → report'.rows[j]? = report.rows[j]?) ∧
      ∀ j row row', i < j → report.rows[j]? = some row → report'.rows[j]? = some row' →
        row'.checksum = row.checksum ∧ row'.sample = row.sample ∧
          (row.block.isUncompressed = true → row'.decompression = row.decompression) := by
  intro report report'
  obtain ⟨hsame, hothers⟩ := scan_of_agreeOutside hscan hblock hagree
  have hscan' : (Id.run (scan (pure false) input')).frame = some frame := by
    rw [hsame, hscan]
  have hof : ∀ {j other}, frame.blocks[j]? = some other → j ≠ i → ∀ outcome,
      BlockRow.of input' other outcome = BlockRow.of input other outcome :=
    fun hother hj outcome => BlockRow.of_congr outcome (slice?_of_scan hscan hother)
      (slice?_of_scan hscan' hother) (hothers _ _ hother hj)
  have hrows : ∀ j, j ≠ i →
      (frame.decodeAll decompressor options input')[j]? =
        (frame.decodeAll decompressor options input)[j]? → report'.rows[j]? = report.rows[j]? := by
    intro j hj hdecoded
    rw [getElem?_rows_analyze hsteady htimeout hscan, getElem?_rows_analyze hsteady htimeout hscan',
      hdecoded]
    rcases hother : frame.blocks[j]? with _ | other
    · rfl
    · simp only [Option.bind_some, hof hother hj]
  refine ⟨?_, map_block_rows hsteady htimeout hscan state,
    map_block_rows hsteady htimeout hscan' state', fun hindependent j hj => ?_, fun j hj => ?_,
    fun j row row' hj hrow hrow' => ?_⟩
  · rw [(scan_ensures hsteady.cancelled input' state' .intro).1,
      (scan_ensures hsteady.cancelled input state .intro).1, hsame]
  · refine hrows j hj (Frame.getElem?_decodeAll_of_independent hindependent ?_)
    exact fun block hblock => hothers j block hblock hj
  · refine hrows j hj.ne (Frame.getElem?_decodeAll_of_le fun k block hk hblock => ?_)
    exact hothers k block hblock (hk.trans_lt hj).ne
  · -- the history may be another one
    obtain ⟨other, decoded, hother, hdecoded, rfl⟩ :=
      exists_of_getElem?_rows hsteady htimeout hscan state hrow
    obtain ⟨_, decoded', hother', hdecoded', rfl⟩ :=
      exists_of_getElem?_rows hsteady htimeout hscan' state' hrow'
    obtain rfl := Option.some_inj.1 (hother.symm.trans hother')
    obtain ⟨hchecksum, hstored⟩ :=
      Frame.decodeAll_alike hother (hothers j other hother hj.ne') hdecoded hdecoded'
    rw [hof hother hj.ne']
    refine ⟨hchecksum, rfl, fun huncompressed => ?_⟩
    rw [hstored huncompressed]

theorem analyze_agreeOutside_letters :
    let env := Environment.ticking .backward
    let input := FrameLayout.letters.encode.toArray
    let changed := input.setIfInBounds 16 0x00
    ((analyze env {} changed).run 0).1.rows[2]? = ((analyze env {} input).run 0).1.rows[2]? := by
  intro env input changed
  have hsteady := Environment.steadyOn_ticking .backward
  have htimeout : ({} : Options).blockTimeout = none := rfl
  have hscan : (Id.run (scan (pure false) input)).frame = some FrameLayout.letters.locate := by
    rw [FrameLayout.scan_encode]
  have hblock : FrameLayout.letters.locate.blocks[1]? =
      some ⟨1, 12, 1, .compressed, 16, none⟩ := rfl
  have hagree : Bytes.AgreeOutside 16 17 input changed :=
    .setIfInBounds (Nat.le_refl 16) (Nat.lt_succ_self 16) input 0x00
  obtain ⟨-, -, -, hindependent, -⟩ :=
    analyze_agreeOutside hsteady htimeout hscan hblock hagree 0 0
  exact hindependent rfl 2 (by decide)

end Lz4Frame
