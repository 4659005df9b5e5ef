import Lz4Frame.Proofs.Content.Blocks

/-! Blocks that share no history may be decoded in any order. Where the decompressor is a function,
no block has a time limit and a cancellation came before all blocks or does not come at all, what
becomes of an independent block is a function of the block, `Frame.decodeBlock_ensures_eq`. So
decoding window by window gives the outcome that decoding one after the other gives,
`decode_parallel`, and so the same report, wherever the windows end and whatever order is taken in
each of them. -/

namespace Lz4Frame

variable {σ : Type} {holds : σ → Prop} {env : Environment (StateM σ)}
  {decompressor : Decompressor} {raised : Bool}

/-- In the states in which `holds` is true, which the surroundings do not leave, blocks are expanded
by a function. Time may run. -/
structure Environment.ExpandsBy (holds : σ → Prop) (env : Environment (StateM σ))
    (decompressor : Decompressor) : Prop where
  decompress : ∀ body history maxSize, Ensures holds (env.decompress body history maxSize)
    (· = decompressor body history maxSize)
  now : Ensures holds env.now fun _ => True

/-- Beside that, a cancellation is raised or not. -/
structure Environment.SteadyOn (holds : σ → Prop) (env : Environment (StateM σ))
    (decompressor : Decompressor) (raised : Bool) : Prop
    extends env.ExpandsBy holds decompressor where
  cancelled : Ensures holds env.cancelled (· = raised)

/-- Without a time limit, it does not matter how long an expansion takes. -/
theorem Block.content_ensures_eq (hexpands : env.ExpandsBy holds decompressor) {limits : Limits}
    (htimeout : limits.timeout = none) (block : Block) (body history : Bytes) :
    Ensures holds (block.content env limits body history)
      (· = Id.run (block.content (.ofDecompressor decompressor) limits body history)) := by
  have hjudge : ∀ elapsed result, limits.judge elapsed result = result := by
    intro elapsed result
    rw [Limits.judge, htimeout]
  unfold content
  split_ifs
  · exact .pure rfl
  · exact .pure rfl
  · refine .bind hexpands.now fun start _ => ?_
    refine .bind (hexpands.decompress body history limits.maxBlockSize) fun result hresult => ?_
    refine .bind hexpands.now fun stop _ => .pure ?_
    subst hresult
    simp [Environment.ofDecompressor, hjudge]

/-- One block as it is decoded by a function, without any surroundings. -/
def Frame.decodePure (decompressor : Decompressor) (options : Options) (input : Bytes)
    (frame : Frame) (history : Bytes) (block : Block) : DecodedBlock :=
  Id.run (Decoder.decodeBlock
    { env := .ofDecompressor decompressor, options, limits := frame.limits options, input }
    history block)

/-- All that is read of the input is the body. -/
theorem Frame.decodePure_congr {options : Options} {input input' : Bytes} {frame : Frame}
    {history : Bytes} {block : Block} (h : block.body input' = block.body input) :
    frame.decodePure decompressor options input' history block =
      frame.decodePure decompressor options input history block := by
  unfold decodePure Decoder.decodeBlock
  dsimp only
  rw [h]

theorem Frame.decodeBlock_ensures_eq (hexpands : env.ExpandsBy holds decompressor)
    {options : Options} (htimeout : options.blockTimeout = none) (input : Bytes) (frame : Frame)
    (history : Bytes) (block : Block) :
    Ensures holds
      (Decoder.decodeBlock { env, options, limits := frame.limits options, input } history block)
      (· = frame.decodePure decompressor options input history block) := by
  unfold decodePure Decoder.decodeBlock
  dsimp only
  split_ifs
  · have hcontent := block.content_ensures_eq hexpands
      (show (frame.limits options).timeout = none from htimeout) (block.body input) history
    refine .map (hcontent.mono fun content hcontent => ?_)
    rw [hcontent]
    rfl
  · exact .pure rfl

section Frame

variable {options : Options} (hsteady : env.SteadyOn holds decompressor raised)
  (htimeout : options.blockTimeout = none)
include hsteady htimeout

/-- What becomes of independent blocks: each is decoded for itself, or none of them is. -/
theorem Frame.run_decodeBlocks_steady {frame : Frame} {state : σ} (input : Bytes)
    (hindependent : frame.header.descriptor.independentBlocks = true) (hstate : holds state) :
    ((frame.decodeBlocks env options input).run state).1 =
      frame.blocks.map fun block =>
        if raised then none
        else some (frame.decodePure decompressor options input (frame.initialHistory options)
          block) := by
  refine run_decodeBlocks_eq_map hsteady.cancelled ?_ ?_ hstate
  · rintro rfl block
    rfl
  · rintro rfl history block hhistory
    refine (decodeBlock_ensures_eq hsteady.toExpandsBy htimeout input frame history block).mono ?_
    rintro _ rfl
    rw [hhistory hindependent]
    rfl

end Frame

/-- Going through the blocks one after the other takes no more than asking for a cancellation and
decoding single blocks. -/
theorem Decoder.decodeInOrder_congr {m : Type → Type} [Monad m] {decoder decoder' : Decoder m}
    (hcancelled : decoder.env.cancelled = decoder'.env.cancelled)
    (hblock : decoder.decodeBlock = decoder'.decodeBlock) :
    decoder.decodeInOrder = decoder'.decodeInOrder := by
  funext linked history blocks progress
  induction blocks generalizing history progress with
  | nil => rfl
  | cons block blocks ih => simp only [decodeInOrder, hcancelled, hblock, ih]

/-- Decoding by windows, in whatever order, and decoding one block after the other have the same
outcome. So the analysis reports the same. -/
theorem decode_parallel (hsteady : env.SteadyOn holds decompressor raised) {options : Options}
    (htimeout : options.blockTimeout = none) (input : Bytes) (state : σ) :
    let parallel : Options := { options with parallel := true }
    let sequential : Options := { options with parallel := false }
    (∀ frame : Frame, holds state →
      ((frame.decode env parallel input).run state).1 =
        ((frame.decode env sequential input).run state).1) ∧
      (holds ((scan env.cancelled input).run state).2 →
        ((analyze env parallel input).run state).1 =
          ((analyze env sequential input).run state).1) := by
  intro parallel sequential
  have hdecode : ∀ (frame : Frame) (state : σ), holds state →
      ((frame.decode env parallel input).run state).1 =
        ((frame.decode env sequential input).run state).1 := by
    intro frame state hstate
    rcases hindependent : frame.header.descriptor.independentBlocks with _ | _
    · -- linked blocks are never taken by windows
      simp only [Frame.decode, hindependent, Bool.false_and, Bool.false_eq_true, if_false]
      have hsame : Decoder.decodeInOrder
            { env, options := parallel, limits := frame.limits parallel, input } =
          Decoder.decodeInOrder
            { env, options := sequential, limits := frame.limits sequential, input } :=
        Decoder.decodeInOrder_congr rfl rfl
      rw [hsame]
      rfl
    · have hparallel := Frame.run_decodeBlocks_steady hsteady
        (show parallel.blockTimeout = none from htimeout) input hindependent hstate
      have hsequential := Frame.run_decodeBlocks_steady hsteady
        (show sequential.blockTimeout = none from htimeout) input hindependent hstate
      rw [Frame.run_decode (by rw [hparallel, List.length_map]),
        Frame.run_decode (by rw [hsequential, List.length_map]), hparallel, hsequential]
      rfl
  refine ⟨fun frame hstate => hdecode frame state hstate, fun hstate => ?_⟩
  rw [run_analyze, run_analyze]
  generalize (scan env.cancelled input).run state = scan at hstate ⊢
  obtain ⟨scanned, next⟩ := scan
  dsimp only at hstate ⊢
  rcases hframe : scanned.frame with _ | frame
  · simp only [ScanOutcome.decode, hframe]
  · simp only [ScanOutcome.decode, hframe]
    rw [hdecode frame next hstate]

/-- Two blocks at a time, the later one first. -/
def Schedule.backward : Schedule where
  window := 2
  order _ count := (List.range count).reverse
  window_pos := by decide
  order_perm _ count := List.reverse_perm (List.range count)

/-- Surroundings in which time runs: every look at the clock takes a nanosecond. -/
def Environment.ticking (schedule : Schedule) : Environment (StateM ℕ) where
  decompress body history maxSize := pure (Decompressor.lz4 body history maxSize)
  now := modifyGet fun time => (time, time + 1)
  cancelled := pure false
  schedule

theorem Environment.steadyOn_ticking (schedule : Schedule) :
    (ticking schedule).SteadyOn (fun _ => True) .lz4 false where
  decompress _ _ _ := .pure rfl
  now := .trivial _
  cancelled := .pure rfl

/-- A frame of three independent blocks, the second of which has no content. -/
def FrameLayout.letters : FrameLayout :=
  { letter with
    blocks := letter.blocks ++ [⟨.compressed, #[0xFF], none, by decide, fun _ => by decide⟩,
      ⟨.compressed, #[0x10, 0x62], none, by decide, fun _ => by decide⟩]
    isSome_checksum := by simp [letter]; rfl }

theorem decode_parallel_letters :
    let env := Environment.ticking .backward
    let frame := FrameLayout.letters.locate
    let input := FrameLayout.letters.encode.toArray
    ((frame.decode env { parallel := true } input).run 0).1 =
        ((frame.decode env { parallel := false } input).run 0).1 ∧
      ((analyze env { parallel := true } input).run 0).1 =
        ((analyze env { parallel := false } input).run 0).1 := by
  intro env frame input
  have hsteady := Environment.steadyOn_ticking .backward
  have htimeout : ({} : Options).blockTimeout = none := rfl
  obtain ⟨hdecode, hanalyze⟩ := decode_parallel hsteady htimeout input 0
  exact ⟨hdecode frame .intro, hanalyze .intro⟩

end Lz4Frame
