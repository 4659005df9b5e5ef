import Lz4Frame.Proofs.Content.Parallel

/-! All blocks of a frame, decoded front to back by a function. This is what every decoding that is
not cancelled comes to, `Frame.decode_steady_eq`, and what one that is cancelled is a part of. The
history is all that one block has from another. -/

namespace Lz4Frame

/-- All blocks of a frame, decoded front to back without any surroundings. -/
def Frame.decodeAll (decompressor : Decompressor) (options : Options) (input : Bytes)
    (frame : Frame) : List DecodedBlock :=
  Decoder.decodeAll
    { env := .ofDecompressor decompressor, options, limits := frame.limits options, input }
    (!frame.header.descriptor.independentBlocks) (frame.initialHistory options) frame.blocks

namespace Decoder

theorem decodeAll_congr {decoder decoder' : Decoder Id}
    (hblock : decoder.decodeBlock = decoder'.decodeBlock) (linked : Bool) (history : Bytes)
    (blocks : List Block) :
    decoder.decodeAll linked history blocks = decoder'.decodeAll linked history blocks := by
  induction blocks generalizing history with
  | nil => rfl
  | cons block blocks ih => rw [decodeAll, decodeAll, hblock, ih]

theorem length_decodeAll (decoder : Decoder Id) (linked : Bool) (history : Bytes)
    (blocks : List Block) : (decoder.decodeAll linked history blocks).length = blocks.length := by
  induction blocks generalizing history with
  | nil => rfl
  | cons block blocks ih => rw [decodeAll, List.length_cons, List.length_cons, ih]

/-- Each block is decoded behind some history. -/
theorem exists_getElem?_decodeAll {decoder : Decoder Id} {linked : Bool} {history : Bytes}
    {blocks : List Block} {i : ℕ} {block : Block} (h : blocks[i]? = some block) :
    ∃ history', (decoder.decodeAll linked history blocks)[i]? =
      some (Id.run (decoder.decodeBlock history' block)) := by
  induction blocks generalizing history i with
  | nil => cases h
  | cons first blocks ih =>
    rw [decodeAll]
    cases i with
    | zero =>
      cases h
      exact ⟨history, List.getElem?_cons_zero⟩
    | succ i =>
      rw [List.getElem?_cons_succ] at h ⊢
      exact ih h

/-- What becomes of a block is a matter of the blocks up to it. -/
theorem getElem?_decodeAll_congr {decoder decoder' : Decoder Id} {linked : Bool}
    {blocks : List Block} {i : ℕ}
    (hblock : ∀ (j : ℕ) (block : Block), j ≤ i → blocks[j]? = some block →
      ∀ history, decoder.decodeBlock history block = decoder'.decodeBlock history block)
    (history : Bytes) :
    (decoder.decodeAll linked history blocks)[i]? =
      (decoder'.decodeAll linked history blocks)[i]? := by
  induction blocks generalizing history i with
  | nil => rfl
  | cons first blocks ih =>
    rw [decodeAll, decodeAll, hblock 0 first (Nat.zero_le i) rfl history]
    cases i with
    | zero => rw [List.getElem?_cons_zero, List.getElem?_cons_zero]
    | succ i =>
      rw [List.getElem?_cons_succ, List.getElem?_cons_succ]
      exact ih (fun j block hj => hblock (j + 1) block (Nat.succ_le_succ hj)) _

/-- In any surroundings where nobody cancels, all blocks are decoded. -/
theorem blocksInOrder_ensures_eq {σ : Type} {holds : σ → Prop} {decoder : Decoder (StateM σ)}
    {plain : Decoder Id} {linked : Bool}
    (hcancelled : Ensures holds decoder.env.cancelled (· = false))
    (hblock : ∀ history block, Ensures holds (decoder.decodeBlock history block)
      (· = Id.run (plain.decodeBlock history block)))
    (history : Bytes) (blocks : List Block) :
    Ensures holds (decoder.blocksInOrder linked history blocks)
      (· = (plain.decodeAll linked history blocks).map some) := by
  induction blocks generalizing history with
  | nil => exact .pure rfl
  | cons block blocks ih =>
    refine .bind hcancelled fun _ hanswer => ?_
    subst hanswer
    refine .bind (hblock history block) fun _ hdecoded => ?_
    subst hdecoded
    refine .bind (ih _) fun _ hbehind => .pure ?_
    rw [hbehind]
    rfl

end Decoder

variable {decompressor : Decompressor} {options : Options} {input : Bytes} {frame : Frame}

theorem Frame.length_decodeAll :
    (frame.decodeAll decompressor options input).length = frame.blocks.length :=
  Decoder.length_decodeAll _ _ _ _

/-- Of the options, only those count that have a say about single blocks or about the history before
the first one. -/
theorem Frame.decodeAll_congr {options' : Options}
    (hblock : frame.decodePure decompressor options' input =
      frame.decodePure decompressor options input)
    (hhistory : frame.initialHistory options' = frame.initialHistory options) :
    frame.decodeAll decompressor options' input = frame.decodeAll decompressor options input := by
  rw [decodeAll, decodeAll, hhistory]
  exact Decoder.decodeAll_congr hblock _ _ _

/-- Independent blocks are decoded each for itself. -/
theorem Frame.decodeAll_of_independent
    (h : frame.header.descriptor.independentBlocks = true) :
    frame.decodeAll decompressor options input = frame.blocks.map
      (frame.decodePure decompressor options input (frame.initialHistory options)) := by
  rw [decodeAll, h]
  exact Decoder.decodeAll_independent _ _ _

/-- Where nobody cancels, all blocks are decoded, by any schedule. -/
theorem Frame.decode_steady_eq (schedule : Schedule) :
    Id.run (frame.decode (.steady decompressor schedule) options input) =
      frame.outcomeOf options ((frame.decodeAll decompressor options input).map some) := by
  have hdecoded : Decoder.decodeAll
      { env := .steady decompressor schedule, options, limits := frame.limits options, input }
      (!frame.header.descriptor.independentBlocks) (frame.initialHistory options) frame.blocks =
        frame.decodeAll decompressor options input := by
    refine Decoder.decodeAll_congr ?_ _ _ _
    rfl
  have hlength : ((frame.decodeAll decompressor options input).map some).length =
      frame.blocks.length := by
    rw [List.length_map, length_decodeAll]
  rw [frame.decode_steady, hdecoded, conclude_foldl_add options hlength]

/-- The same in any surroundings where nobody cancels. -/
theorem Frame.run_decodeBlocks_eq {σ : Type} {holds : σ → Prop} {env : Environment (StateM σ)}
    (hsteady : env.SteadyOn holds decompressor false) (htimeout : options.blockTimeout = none)
    (input : Bytes) (frame : Frame) {state : σ} (hstate : holds state) :
    ((frame.decodeBlocks env options input).run state).1 =
      (frame.decodeAll decompressor options input).map some := by
  rcases horder : frame.header.descriptor.independentBlocks && options.parallel with _ | _
  · have hblocks : Ensures holds (frame.decodeBlocks env options input)
        (· = (frame.decodeAll decompressor options input).map some) := by
      simp only [decodeBlocks, horder, Bool.false_eq_true, if_false]
      exact Decoder.blocksInOrder_ensures_eq hsteady.cancelled
        (frame.decodeBlock_ensures_eq hsteady.toExpandsBy htimeout input) _ _
    exact (hblocks state hstate).1
  · have hindependent := (Bool.and_eq_true_iff.1 horder).1
    rw [run_decodeBlocks_steady hsteady htimeout input hindependent hstate,
      decodeAll_of_independent hindependent, List.map_map]
    rfl

end Lz4Frame
