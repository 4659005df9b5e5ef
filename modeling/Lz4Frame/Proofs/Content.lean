import Mathlib.Data.List.ReduceOption
import Lz4Frame.Proofs.Content.Order
import Lz4Frame.Proofs.Scan.Inverse

/-! What decoding gives for the blocks of a scanned frame, as a function of what was written. The
blocks are decoded front to back, and a frame has a content exactly if it is complete and each of
its blocks has some. Hashing and counting the content block by block gives the checksum and the size
of all of it. -/

namespace Lz4Frame

open BlockLayout (encodeAll encodeAll_cons locateAll)

/-! ### Blocks -/

/-- A clock that stands still never runs out. -/
theorem Limits.judge_zero (limits : Limits) (result : Except FailureReason Bytes) :
    limits.judge 0 result = result := by
  unfold judge
  split
  · rfl
  · rw [if_neg (Nat.not_lt_zero _)]

namespace BlockLayout

/-- The content of a block behind `history`. -/
def content (decompressor : Decompressor) (strict : Bool) (maxSize index : ℕ) (history : Bytes)
    (block : BlockLayout) : Except Issue Bytes :=
  if strict && maxSize < block.body.size then
    .error (.oversizedBlock index block.body.size maxSize)
  else match block.kind with
    | .uncompressed => .ok block.body
    | .compressed =>
      (decompressor block.body history maxSize).mapError (.decompressionFailure index)

/-- What the checksum of a block says about its body. -/
def check (verify : Bool) (block : BlockLayout) : CheckOutcome :=
  match block.checksum with
  | none => .absent
  | some stored => if verify then .checked (.ofData block.body.toList stored) else .skipped

/-- One block behind `history`. -/
def decode (decompressor : Decompressor) (options : Options) (maxSize index : ℕ)
    (history : Bytes) (block : BlockLayout) : DecodedBlock :=
  let checksum := block.check options.verifyChecksums
  if options.decompress then
    .ofContent checksum (block.content decompressor options.strictBlockSize maxSize index history)
  else
    ⟨⟨checksum, .notAttempted⟩, none⟩

/-- All blocks, front to back. -/
def decodeAll (decompressor : Decompressor) (options : Options) (linked : Bool) (maxSize : ℕ) :
    (index : ℕ) → (history : Bytes) → List BlockLayout → List DecodedBlock
  | _, _, [] => []
  | index, history, block :: blocks =>
    let decoded := block.decode decompressor options maxSize index history
    decoded :: decodeAll decompressor options linked maxSize (index + 1)
      (if linked then Decoder.extendHistory history decoded.content else history) blocks

variable {decompressor : Decompressor} {schedule : Schedule} {input : Bytes} {options : Options}

theorem content_locate (schedule : Schedule) (limits : Limits) (index offset : ℕ) (history : Bytes)
    (block : BlockLayout) :
    Id.run ((block.locate index offset).content (.steady decompressor schedule) limits block.body
        history) =
      block.content decompressor limits.strictBlockSize limits.maxBlockSize index history := by
  unfold Block.content content
  rw [show (block.locate index offset).size = block.body.size from rfl,
    show (block.locate index offset).isUncompressed = (block.kind == .uncompressed) from rfl]
  by_cases hsize : (limits.strictBlockSize && decide (limits.maxBlockSize < block.body.size)) = true
  · rw [if_pos hsize, if_pos hsize]
    rfl
  · rw [if_neg hsize, if_neg hsize]
    cases block.kind with
    | uncompressed => rfl
    | compressed =>
      show (limits.judge (0 - 0) _).mapError _ = _
      rw [Limits.judge_zero]
      rfl

theorem decode_locate {decoder : Decoder Id}
    (henv : decoder.env = .steady decompressor schedule)
    (hstrict : decoder.limits.strictBlockSize = decoder.options.strictBlockSize)
    {rest : List UInt8} {block : BlockLayout} {offset : ℕ} (index : ℕ) (history : Bytes)
    (h : decoder.input.toList.drop offset = block.encode ++ rest) :
    Id.run (decoder.decodeBlock history (block.locate index offset)) =
      block.decode decompressor decoder.options decoder.limits.maxBlockSize index history := by
  unfold Decoder.decodeBlock decode
  rw [body_locate index h, henv, ← hstrict, ← content_locate schedule]
  split_ifs <;> rfl

theorem decodeAll_locateAll {decoder : Decoder Id}
    (henv : decoder.env = .steady decompressor schedule)
    (hstrict : decoder.limits.strictBlockSize = decoder.options.strictBlockSize)
    {rest : List UInt8} {blocks : List BlockLayout} (linked : Bool) (index offset : ℕ)
    (history : Bytes) (h : decoder.input.toList.drop offset = encodeAll blocks ++ rest) :
    decoder.decodeAll linked history (locateAll index offset blocks) =
      decodeAll decompressor decoder.options linked decoder.limits.maxBlockSize index history
        blocks := by
  induction blocks generalizing index offset history with
  | nil => rfl
  | cons block blocks ih =>
    rw [encodeAll_cons, List.append_assoc] at h
    have hdrop : decoder.input.toList.drop (offset + block.encode.length) =
        encodeAll blocks ++ rest := by
      rw [← List.drop_drop, h, List.drop_left]
    rw [locateAll, Decoder.decodeAll, decode_locate henv hstrict index history h, ih _ _ _ hdrop]
    rfl

end BlockLayout

/-! ### The content of all blocks -/

/-- Contents one behind the other, if there are all of them. -/
def whole : List (Option Bytes) → Option Bytes
  | [] => some #[]
  | none :: _ => none
  | some content :: contents => (whole contents).map (content ++ ·)

namespace Assembly

/-- The assembly of blocks that all had content. -/
def holding (keep : Bool) (content : Bytes) : Assembly where
  hasher := XxHash32.Hasher.update {} content.toList
  kept := if keep then some content else none

theorem start_eq_holding (keep : Bool) : start keep = holding keep #[] := rfl

theorem add_holding (keep : Bool) (content more : Bytes) :
    (holding keep content).add (some more) = holding keep (content ++ more) := by
  cases keep <;> simp [add, holding, XxHash32.Hasher.update_append]

theorem complete_foldl_add {assembly : Assembly} (h : assembly.complete = false)
    (contents : List (Option Bytes)) : (contents.foldl add assembly).complete = false := by
  induction contents generalizing assembly with
  | nil => exact h
  | cons content contents ih =>
    refine ih ?_
    cases content with
    | none => rfl
    | some content => simp [add, h]

theorem complete_foldl_add_of_whole_eq_none {contents : List (Option Bytes)}
    (h : whole contents = none) (assembly : Assembly) :
    (contents.foldl add assembly).complete = false := by
  induction contents generalizing assembly with
  | nil => cases h
  | cons first contents ih =>
    cases first with
    | none => exact complete_foldl_add rfl contents
    | some first => exact ih (Option.map_eq_none_iff.1 h) _

theorem foldl_add_holding {contents : List (Option Bytes)} {rest : Bytes}
    (h : whole contents = some rest) (keep : Bool) (content : Bytes) :
    contents.foldl add (holding keep content) = holding keep (content ++ rest) := by
  induction contents generalizing content rest with
  | nil =>
    cases h
    rw [Array.append_empty]
    rfl
  | cons first contents ih =>
    cases first with
    | none => cases h
    | some first =>
      obtain ⟨rest, hrest, rfl⟩ := Option.map_eq_some_iff.1 h
      rw [List.foldl_cons, add_holding, ih hrest, Array.append_assoc]

end Assembly

/-- The assembly takes the contents there are, and each block gets its outcome. -/
theorem Progress.foldl_add (decoded : List (Option DecodedBlock)) (progress : Progress) :
    decoded.foldl add progress =
      { assembly := (decoded.reduceOption.map DecodedBlock.content).foldl Assembly.add
          progress.assembly
        outcomes := progress.outcomes ++ (decoded.map (Option.map DecodedBlock.outcome)).toArray } := by
  induction decoded generalizing progress with
  | nil => simp
  | cons first decoded ih =>
    rw [List.foldl_cons, ih]
    cases first <;> simp [add, List.reduceOption_cons_of_none, List.reduceOption_cons_of_some]

/-! ### Frames -/

/-- What is known about a content checksum, if there is to be one. -/
def CheckOutcome.ofContent (announced verify : Bool) (stored : Option UInt32)
    (content : Option Bytes) : CheckOutcome :=
  if announced then
    match stored, content with
    | some stored, some content =>
      if verify then .checked (.ofData content.toList stored) else .skipped
    | _, _ => .skipped
  else
    .absent

/-- The outcome of blocks that were all decoded. -/
def ContentOutcome.of (options : Options) (descriptor : Descriptor) (stored : Option UInt32)
    (blocks : List BlockOutcome) (content : Option Bytes) : ContentOutcome where
  blocks := blocks
  contentChecksum := .ofContent descriptor.hasContentChecksum options.verifyChecksums stored content
  size := content.map Array.size
  content := if options.keepContent then content else none

theorem zipWith_getD {blocks : List Block} {outcomes : List BlockOutcome}
    (hlength : outcomes.length = blocks.length) :
    blocks.zipWith (fun block outcome => outcome.getD (BlockOutcome.notAttempted block))
      (outcomes.map some) = outcomes := by
  rw [List.zipWith_map_right]
  simp only [Option.getD_some]
  exact List.ext_getElem (by simp [hlength]) fun i _ _ => List.getElem_zipWith

theorem Frame.conclude_eq {frame : Frame} {decoded : List DecodedBlock} (options : Options)
    (hlength : decoded.length = frame.blocks.length) :
    frame.conclude options
        ((decoded.map some).foldl Progress.add { assembly := .start options.keepContent }) =
      .of options frame.header.descriptor frame.contentChecksum
        (decoded.map DecodedBlock.outcome)
        (if frame.isComplete then whole (decoded.map DecodedBlock.content) else none) := by
  have hall : (decoded.map some).reduceOption = decoded := by
    rw [List.reduceOption, List.filterMap_map]
    exact List.filterMap_some
  have houtcomes : (decoded.map some).map (Option.map DecodedBlock.outcome) =
      (decoded.map DecodedBlock.outcome).map some := by
    rw [List.map_map, List.map_map]
    rfl
  have hfind : ((decoded.map DecodedBlock.outcome).map some).findIdx? Option.isNone = none := by
    simp
  have hzip : frame.blocks.zipWith
      (fun block outcome => outcome.getD (BlockOutcome.notAttempted block))
      ((decoded.map DecodedBlock.outcome).map some) = decoded.map DecodedBlock.outcome :=
    zipWith_getD (by rw [List.length_map, hlength])
  rw [Progress.foldl_add, hall, Assembly.start_eq_holding, houtcomes, conclude]
  simp only [Array.empty_append, List.size_toArray, List.length_map, hlength, Nat.sub_self,
    List.replicate_zero, List.append_nil, hfind, hzip, Option.isNone_none, Bool.and_true]
  rcases hwhole : whole (decoded.map DecodedBlock.content) with _ | content
  · -- some block has no content, so there is none at all
    rw [Assembly.complete_foldl_add_of_whole_eq_none hwhole]
    cases frame.contentChecksum <;> simp [ContentOutcome.of, CheckOutcome.ofContent]
  · have hsize : (XxHash32.Hasher.update {} content.toList).length = content.size := by
      simp [XxHash32.Hasher.update]
    rw [Assembly.foldl_add_holding hwhole, Array.empty_append]
    cases frame.isComplete <;> cases frame.contentChecksum <;>
      simp [ContentOutcome.of, CheckOutcome.ofContent, Assembly.holding, Check.ofData,
        Check.ofHasher, XxHash32.Hasher.digest_update, hsize]

theorem BlockLayout.length_decodeAll (decompressor : Decompressor) (options : Options)
    (linked : Bool) (maxSize index : ℕ) (history : Bytes) (blocks : List BlockLayout) :
    (decodeAll decompressor options linked maxSize index history blocks).length =
      blocks.length := by
  induction blocks generalizing index history with
  | nil => rfl
  | cons block blocks ih => rw [decodeAll, List.length_cons, List.length_cons, ih]

/-- The content of a frame whose blocks lie where they were written, by any schedule. -/
theorem Frame.decode_eq {frame : Frame} {input : Bytes} {blocks : List BlockLayout} {offset : ℕ}
    {rest : List UInt8} (decompressor : Decompressor) (schedule : Schedule) (options : Options)
    (hblocks : frame.blocks = locateAll 0 offset blocks)
    (h : input.toList.drop offset = encodeAll blocks ++ rest) :
    let decoded := BlockLayout.decodeAll decompressor options
      (!frame.header.descriptor.independentBlocks) frame.header.maxBlockSize 0
      (frame.initialHistory options) blocks
    Id.run (frame.decode (.steady decompressor schedule) options input) =
      .of options frame.header.descriptor frame.contentChecksum
        (decoded.map DecodedBlock.outcome)
        (if frame.isComplete then whole (decoded.map DecodedBlock.content) else none) := by
  intro decoded
  let decoder : Decoder Id :=
    { env := .steady decompressor schedule, options, limits := frame.limits options, input }
  have hdecoded : decoder.decodeAll (!frame.header.descriptor.independentBlocks)
      (frame.initialHistory options) frame.blocks = decoded := by
    rw [hblocks]
    exact BlockLayout.decodeAll_locateAll rfl rfl _ 0 offset _ h
  rw [← Frame.conclude_eq options (by
    rw [hblocks, BlockLayout.length_decodeAll, BlockLayout.length_locateAll]), ← hdecoded]
  exact frame.decode_steady decompressor schedule options input

/-- Of a header, decoding looks at the descriptor alone. -/
theorem Frame.decode_congr {m : Type → Type} [Monad m] (env : Environment m) (options : Options)
    (input : Bytes) {frame frame' : Frame}
    (hdescriptor : frame.header.descriptor = frame'.header.descriptor)
    (hblocks : frame.blocks = frame'.blocks)
    (hchecksum : frame.contentChecksum = frame'.contentChecksum)
    (hend : frame.endOffset = frame'.endOffset) :
    frame.decode env options input = frame'.decode env options input := by
  obtain ⟨⟨descriptor, _, _, _, _⟩, blocks, contentChecksum, endOffset⟩ := frame
  subst hdescriptor hblocks hchecksum hend
  rfl

end Lz4Frame
