import Mathlib.Data.List.Forall2
import Lz4Frame.Proofs.Analysis

/-! A decoding in any surroundings, with the clock, the decompressor and the cancellation as they
come. It decodes the blocks, `Frame.decodeBlocks`, and its outcome is a function of what became of
each of them, `Frame.decode_eq_map` and `Frame.conclude_foldl_add`: nothing that is dropped on the
way is missed in the end. What holds of every single block holds of all of them,
`Frame.decodeBlocks_ensures`, whatever the order in which they are taken. -/

namespace Lz4Frame

/-! ### Runs -/

section Ensures

variable {σ α β : Type} {holds : σ → Prop}

/-- From each state in which `holds` is true, `x` gives a value with `post` and leaves such a state
behind. -/
def Ensures (holds : σ → Prop) (x : StateM σ α) (post : α → Prop) : Prop :=
  ∀ state, holds state → post (x.run state).1 ∧ holds (x.run state).2

namespace Ensures

theorem pure {post : α → Prop} {a : α} (h : post a) : Ensures holds (Pure.pure a) post :=
  fun _ hstate => ⟨h, hstate⟩

theorem bind {x : StateM σ α} {f : α → StateM σ β} {post : α → Prop} {post' : β → Prop}
    (hx : Ensures holds x post) (hf : ∀ a, post a → Ensures holds (f a) post') :
    Ensures holds (x >>= f) post' := by
  intro state hstate
  obtain ⟨hpost, hnext⟩ := hx state hstate
  exact hf _ hpost _ hnext

theorem map {x : StateM σ α} {f : α → β} {post : β → Prop}
    (hx : Ensures holds x fun a => post (f a)) : Ensures holds (f <$> x) post :=
  fun state hstate => hx state hstate

theorem mono {x : StateM σ α} {post post' : α → Prop} (hx : Ensures holds x post)
    (h : ∀ a, post a → post' a) : Ensures holds x post' :=
  fun state hstate => ⟨h _ (hx state hstate).1, (hx state hstate).2⟩

/-- Nothing is asked for and nothing is promised. -/
theorem trivial (x : StateM σ α) : Ensures (fun _ => True) x fun _ => True :=
  fun _ _ => ⟨.intro, .intro⟩

/-- What each step of a fold keeps, with the items behind it in view, the whole fold keeps. -/
theorem foldlM {f : β → α → StateM σ β} {keeps : List α → β → Prop}
    (hf : ∀ item items b, keeps (item :: items) b → Ensures holds (f b item) (keeps items))
    {items : List α} {b : β} (h : keeps items b) :
    Ensures holds (items.foldlM f b) (keeps []) := by
  induction items generalizing b with
  | nil => exact pure h
  | cons item items ih =>
    rw [List.foldlM_cons]
    exact bind (hf item items b h) fun _ hnext => ih hnext

end Ensures

end Ensures

/-! ### What becomes of the blocks -/

namespace Decoder

variable {m : Type → Type} [Monad m]

/-- The blocks one after the other. From a cancellation on there is nothing for any of them. -/
def blocksInOrder (decoder : Decoder m) (linked : Bool) (history : Bytes) :
    List Block → m (List (Option DecodedBlock))
  | [] => pure []
  | block :: blocks => do
    if ← decoder.env.cancelled then
      pure (List.replicate (blocks.length + 1) none)
    else
      let decoded ← decoder.decodeBlock history block
      let behind ← decoder.blocksInOrder linked
        (if linked then extendHistory history decoded.content else history) blocks
      pure (some decoded :: behind)

/-- The blocks window by window, behind `front` others. -/
def blocksByWindow (decoder : Decoder m) (history : Bytes) (front : ℕ) :
    List Block → m (List (Option DecodedBlock))
  | [] => pure []
  | block :: blocks => do
    let size := decoder.env.schedule.window
    let places ← decoder.decodeWindow history front (block :: blocks.take (size - 1)).toArray
    let behind ← decoder.blocksByWindow history (front + places.size) (blocks.drop (size - 1))
    pure (places.toList ++ behind)
termination_by blocks => blocks.length
decreasing_by simp only [List.length_drop, List.length_cons]; omega

end Decoder

/-- What becomes of each block of a frame. A block that a cancellation left out has nothing. -/
def Frame.decodeBlocks {m : Type → Type} [Monad m] (env : Environment m) (options : Options)
    (input : Bytes) (frame : Frame) : m (List (Option DecodedBlock)) :=
  let decoder : Decoder m := { env, options, limits := frame.limits options, input }
  let history := frame.initialHistory options
  let independent := frame.header.descriptor.independentBlocks
  if independent && options.parallel then
    decoder.blocksByWindow history 0 frame.blocks
  else
    decoder.blocksInOrder (!independent) history frame.blocks

/-! ### Nothing is missed -/

/-- Blocks that were left out need not be told apart from blocks that were not reached. -/
theorem Frame.conclude_foldl_add_none (frame : Frame) (options : Options) {progress : Progress}
    {count : ℕ} (h : progress.outcomes.size + count = frame.blocks.length) :
    frame.conclude options ((List.replicate count none).foldl Progress.add progress) =
      frame.conclude options progress := by
  have hcount : frame.blocks.length - progress.outcomes.size = count := by omega
  rw [Progress.foldl_add]
  simp [conclude, h, hcount]

section Decode

variable {m : Type → Type} [Monad m] [LawfulMonad m]

theorem Decoder.decodeByWindow_eq_map (decoder : Decoder m) (history : Bytes)
    (blocks : List Block) (progress : Progress) :
    decoder.decodeByWindow history blocks progress =
      (fun decoded => decoded.foldl Progress.add progress) <$>
        decoder.blocksByWindow history progress.outcomes.size blocks := by
  fun_induction Decoder.decodeByWindow decoder history blocks progress with
  | case1 progress => simp [blocksByWindow]
  | case2 block blocks progress size ih =>
    rw [blocksByWindow, map_bind]
    refine bind_congr fun places => ?_
    have hsize : (places.foldl Progress.add progress).outcomes.size =
        progress.outcomes.size + places.size := by
      rw [← Array.foldl_toList, Progress.foldl_add]
      simp
    rw [ih places, map_bind, hsize]
    simp [size, List.foldl_append]

/-- Where a cancellation leaves the last blocks out, the decoding has stopped before them. -/
theorem Decoder.conclude_decodeInOrder (decoder : Decoder m) (frame : Frame) (options : Options)
    (linked : Bool) (history : Bytes) {blocks : List Block} {progress : Progress}
    (h : progress.outcomes.size + blocks.length = frame.blocks.length) :
    frame.conclude options <$> decoder.decodeInOrder linked history blocks progress =
      (fun decoded => frame.conclude options (decoded.foldl Progress.add progress)) <$>
        decoder.blocksInOrder linked history blocks := by
  induction blocks generalizing history progress with
  | nil => simp [decodeInOrder, blocksInOrder]
  | cons block blocks ih =>
    rw [decodeInOrder, blocksInOrder, map_bind, map_bind]
    refine bind_congr fun cancelled => ?_
    cases cancelled with
    | true =>
      rw [List.length_cons] at h
      simp only [if_true, map_pure]
      rw [Frame.conclude_foldl_add_none frame options h]
    | false =>
      simp only [Bool.false_eq_true, if_false, map_bind]
      refine bind_congr fun decoded => ?_
      have hnext : (progress.add (some decoded)).outcomes.size + blocks.length =
          frame.blocks.length := by
        rw [← h, List.length_cons]
        simp only [Progress.add, Array.size_push]
        omega
      rw [ih _ hnext]
      simp

/-- A decoding is made up of what becomes of the blocks. -/
theorem Frame.decode_eq_map (env : Environment m) (options : Options) (input : Bytes)
    (frame : Frame) :
    frame.decode env options input =
      (fun decoded => frame.conclude options
        (decoded.foldl Progress.add { assembly := .start options.keepContent })) <$>
        frame.decodeBlocks env options input := by
  unfold decode decodeBlocks
  dsimp only
  split_ifs
  · rw [bind_pure_comp, Decoder.decodeByWindow_eq_map, Functor.map_map]
    rfl
  · rw [bind_pure_comp, Decoder.conclude_decodeInOrder]
    exact Nat.zero_add _

end Decode

theorem whole_eq_none_of_mem {contents : List (Option Bytes)} (h : none ∈ contents) :
    whole contents = none := by
  induction contents with
  | nil => cases h
  | cons first contents ih =>
    cases first with
    | none => rfl
    | some first =>
      have hmem : none ∈ contents := by simpa using h
      rw [whole, ih hmem]
      rfl

theorem exists_eq_map_some {α : Type} {items : List (Option α)} (h : none ∉ items) :
    ∃ all : List α, items = all.map some := by
  induction items with
  | nil => exact ⟨[], rfl⟩
  | cons item items ih =>
    rw [List.mem_cons, not_or] at h
    obtain ⟨hitem, hitems⟩ := h
    obtain ⟨first, rfl⟩ := Option.ne_none_iff_exists'.1 (Ne.symm hitem)
    obtain ⟨all, rfl⟩ := ih hitems
    exact ⟨first :: all, rfl⟩

/-- The content of a block, if it was decoded and has some. -/
def DecodedBlock.content? (decoded : Option DecodedBlock) : Option Bytes :=
  decoded.bind DecodedBlock.content

/-- The content of a frame, if there is all of it. -/
def Frame.contentOf (frame : Frame) (decoded : List (Option DecodedBlock)) : Option Bytes :=
  if frame.isComplete then whole (decoded.map DecodedBlock.content?) else none

/-- The outcome of a block that may have been left out. -/
def DecodedBlock.outcome? (block : Block) (decoded : Option DecodedBlock) : BlockOutcome :=
  decoded.elim (.notAttempted block) DecodedBlock.outcome

/-- The outcome of a frame, from what became of its blocks. -/
def Frame.outcomeOf (options : Options) (frame : Frame) (decoded : List (Option DecodedBlock)) :
    ContentOutcome :=
  { ContentOutcome.of options frame.header.descriptor frame.contentChecksum
      (frame.blocks.zipWith DecodedBlock.outcome? decoded) (frame.contentOf decoded) with
    cancelledAt := decoded.findIdx? Option.isNone }

/-- The outcome of a frame whose blocks were all decoded. -/
theorem Frame.outcomeOf_map_some {frame : Frame} {decoded : List DecodedBlock} (options : Options)
    (hlength : decoded.length = frame.blocks.length) :
    frame.outcomeOf options (decoded.map some) =
      .of options frame.header.descriptor frame.contentChecksum
        (decoded.map DecodedBlock.outcome)
        (if frame.isComplete then whole (decoded.map DecodedBlock.content) else none) := by
  have hzip : frame.blocks.zipWith DecodedBlock.outcome? (decoded.map some) =
      decoded.map DecodedBlock.outcome :=
    calc frame.blocks.zipWith DecodedBlock.outcome? (decoded.map some)
      _ = frame.blocks.zipWith
            (fun block outcome => outcome.getD (BlockOutcome.notAttempted block))
            ((decoded.map DecodedBlock.outcome).map some) := by
          rw [List.map_map, List.zipWith_map_right, List.zipWith_map_right]
          rfl
      _ = decoded.map DecodedBlock.outcome :=
          zipWith_getD (by rw [List.length_map, hlength])
  have hcontent : (decoded.map some).map DecodedBlock.content? =
      decoded.map DecodedBlock.content := by
    rw [List.map_map]
    rfl
  have hfind : (decoded.map some).findIdx? Option.isNone = none := by
    simp
  rw [outcomeOf, contentOf, hzip, hcontent, hfind]
  rfl

theorem Frame.cancelledAt_outcomeOf {decoded : List (Option DecodedBlock)} (options : Options)
    (frame : Frame) (h : none ∈ decoded) :
    ∃ i, (frame.outcomeOf options decoded).cancelledAt = some i := by
  rw [← Option.ne_none_iff_exists']
  show decoded.findIdx? Option.isNone ≠ none
  rw [Ne, List.findIdx?_eq_none_iff]
  exact fun hsome => Bool.false_ne_true (hsome none h).symm

theorem Frame.conclude_foldl_add {frame : Frame} {decoded : List (Option DecodedBlock)}
    (options : Options) (hlength : decoded.length = frame.blocks.length) :
    frame.conclude options
        (decoded.foldl Progress.add { assembly := .start options.keepContent }) =
      frame.outcomeOf options decoded := by
  by_cases hnone : none ∈ decoded
  · -- a block was left out, so there is no content
    have hwhole : whole (decoded.map DecodedBlock.content?) = none :=
      whole_eq_none_of_mem (List.mem_map.2 ⟨none, hnone, rfl⟩)
    obtain ⟨i, hi⟩ : ∃ i, decoded.findIdx? Option.isNone = some i :=
      frame.cancelledAt_outcomeOf options hnone
    have hisNone : Option.isNone ∘ Option.map DecodedBlock.outcome = Option.isNone := by
      funext decoded
      cases decoded <;> rfl
    have houtcome : (fun block decoded =>
        ((Option.map DecodedBlock.outcome decoded).getD (.notAttempted block))) =
          DecodedBlock.outcome? := by
      funext block decoded
      cases decoded <;> rfl
    rw [Progress.foldl_add, conclude, outcomeOf, contentOf, hwhole]
    simp only [Array.empty_append, List.size_toArray, List.length_map, hlength, Nat.sub_self,
      List.replicate_zero, List.append_nil, List.findIdx?_map, hisNone, hi,
      List.zipWith_map_right, houtcome, Option.isNone_some, Bool.and_false, Bool.false_and,
      ite_self, Bool.false_eq_true, if_false]
    cases frame.contentChecksum <;> simp [ContentOutcome.of, CheckOutcome.ofContent]
  · -- all blocks were decoded
    obtain ⟨decoded, rfl⟩ := exists_eq_map_some hnone
    rw [List.length_map] at hlength
    rw [conclude_eq options hlength, outcomeOf_map_some options hlength]

/-! ### What holds of each block -/

section EachBlock

variable {σ : Type} {holds : σ → Prop} {answer : Bool → Prop}
  {fits : Block → Option DecodedBlock → Prop}

/-- The issues of a block without content: it is too big, or it cannot be expanded. -/
def Block.Failure (block : Block) (issue : Issue) : Prop :=
  (∃ max, issue = .oversizedBlock block.index block.size max) ∨
    ∃ reason, issue = .decompressionFailure block.index reason

/-- What holds of a block with the given body once it was decoded, in any surroundings. The checksum
is a matter of the body, and what is said about the content is true. -/
structure DecodedBlock.Sound (verify : Bool) (block : Block) (body : Bytes)
    (decoded : DecodedBlock) : Prop where
  checksum : decoded.outcome.checksum = block.check verify body
  size : decoded.outcome.decompression.size? = decoded.content.map Array.size
  failure : ∀ issue, decoded.outcome.decompression = .failed issue → block.Failure issue

theorem Block.content_ensures (env : Environment (StateM σ)) (limits : Limits) (block : Block)
    (body history : Bytes) :
    Ensures (fun _ => True) (block.content env limits body history) fun content =>
      ∀ issue, content = .error issue → block.Failure issue := by
  unfold content
  split_ifs
  · refine .pure ?_
    rintro _ ⟨⟩
    exact .inl ⟨_, rfl⟩
  · exact .pure fun _ => nofun
  · refine .bind (.trivial env.now) fun start _ => ?_
    refine .bind (.trivial _) fun result _ => ?_
    refine .bind (.trivial env.now) fun stop _ => .pure fun issue hissue => ?_
    cases hjudge : limits.judge (stop - start) result with
    | ok content =>
      rw [hjudge] at hissue
      cases hissue
    | error reason =>
      rw [hjudge] at hissue
      cases hissue
      exact .inr ⟨reason, rfl⟩

theorem Decoder.decodeBlock_ensures (decoder : Decoder (StateM σ)) (history : Bytes)
    (block : Block) :
    Ensures (fun _ => True) (decoder.decodeBlock history block)
      (·.Sound decoder.options.verifyChecksums block (block.body decoder.input)) := by
  unfold decodeBlock
  dsimp only
  split_ifs
  · refine .map ((block.content_ensures decoder.env decoder.limits _ history).mono ?_)
    intro content hcontent
    cases content with
    | ok content => exact ⟨rfl, rfl, fun _ => nofun⟩
    | error issue =>
      refine ⟨rfl, rfl, ?_⟩
      rintro _ ⟨⟩
      exact hcontent issue rfl
  · exact .pure ⟨rfl, rfl, fun _ => nofun⟩

namespace Decoder

variable {decoder : Decoder (StateM σ)} {history : Bytes}

theorem blocksInOrder_ensures {linked : Bool}
    (hcancelled : Ensures holds decoder.env.cancelled answer)
    (hleft : answer true → ∀ block, fits block none)
    (hblock : answer false → ∀ history' block, (linked = false → history' = history) →
      Ensures holds (decoder.decodeBlock history' block) fun decoded => fits block (some decoded))
    (blocks : List Block) :
    Ensures holds (decoder.blocksInOrder linked history blocks) (List.Forall₂ fits blocks) := by
  induction blocks generalizing history with
  | nil => exact .pure .nil
  | cons block blocks ih =>
    refine .bind hcancelled fun cancelled hanswer => ?_
    cases cancelled with
    | true =>
      refine .pure (List.forall₂_iff_get.2 ⟨by simp, fun i _ _ => ?_⟩)
      simpa using hleft hanswer _
    | false =>
      refine .bind (hblock hanswer history block fun _ => rfl) fun decoded hfits => ?_
      refine .bind (ih fun hanswer history' block hsame => ?_) fun behind hbehind => ?_
      · refine hblock hanswer history' block fun hlinked => ?_
        rw [hsame hlinked, if_neg (by simp [hlinked])]
      · exact .pure (.cons hfits hbehind)

/-- Every place of a window fits its block or still waits for its turn. -/
def Fitting (fits : Block → Option DecodedBlock → Prop) (blocks : Array Block) (turns : List ℕ)
    (places : Array (Option DecodedBlock)) : Prop :=
  places.size = blocks.size ∧
    ∀ i block place, blocks[i]? = some block → places[i]? = some place →
      fits block place ∨ place = none ∧ i ∈ turns

/-- A turn at which `decoded` is put into place. -/
theorem Fitting.setIfInBounds {blocks : Array Block} {turn : ℕ} {turns : List ℕ}
    {places : Array (Option DecodedBlock)} {block : Block} {decoded : Option DecodedBlock}
    (hfitting : Fitting fits blocks (turn :: turns) places) (hblock : blocks[turn]? = some block)
    (hdecoded : fits block decoded) :
    Fitting fits blocks turns (places.setIfInBounds turn decoded) := by
  obtain ⟨hsize, hplaces⟩ := hfitting
  refine ⟨by rw [Array.size_setIfInBounds, hsize], fun i block' place hblock' hplace => ?_⟩
  by_cases hi : turn = i
  · subst hi
    have hlt := (Array.getElem?_eq_some_iff.1 hblock).1
    rw [Array.getElem?_setIfInBounds_self_of_lt (by omega)] at hplace
    rw [hblock] at hblock'
    cases hplace
    cases hblock'
    exact .inl hdecoded
  · rw [Array.getElem?_setIfInBounds_ne hi] at hplace
    refine (hplaces i block' place hblock' hplace).imp_right fun ⟨hnone, hmem⟩ => ⟨hnone, ?_⟩
    exact (List.mem_cons.1 hmem).resolve_left (Ne.symm hi)

/-- A turn at which nothing is put into place. -/
theorem Fitting.tail {blocks : Array Block} {turn : ℕ} {turns : List ℕ}
    {places : Array (Option DecodedBlock)} (hfitting : Fitting fits blocks (turn :: turns) places)
    (hnone : ∀ block, blocks[turn]? = some block → fits block none) :
    Fitting fits blocks turns places := by
  refine ⟨hfitting.1, fun i block place hblock hplace => ?_⟩
  rcases hfitting.2 i block place hblock hplace with hfits | ⟨rfl, hmem⟩
  · exact .inl hfits
  · rcases List.mem_cons.1 hmem with rfl | hmem
    · exact .inl (hnone block hblock)
    · exact .inr ⟨rfl, hmem⟩

theorem decodeWindow_ensures (hcancelled : Ensures holds decoder.env.cancelled answer)
    (hleft : answer true → ∀ block, fits block none)
    (hblock : answer false → ∀ block,
      Ensures holds (decoder.decodeBlock history block) fun decoded => fits block (some decoded))
    (front : ℕ) (blocks : Array Block) :
    Ensures holds (decoder.decodeWindow history front blocks) fun places =>
      List.Forall₂ fits blocks.toList places.toList := by
  have hstart : Fitting fits blocks (decoder.env.schedule.order front blocks.size)
      (Array.replicate blocks.size none) := by
    refine ⟨Array.size_replicate, fun i block place hi hplace => .inr ?_⟩
    have hlt := (Array.getElem?_eq_some_iff.1 hi).1
    rw [Array.getElem?_replicate, if_pos hlt] at hplace
    cases hplace
    rw [(decoder.env.schedule.order_perm front blocks.size).mem_iff, List.mem_range]
    exact ⟨rfl, hlt⟩
  refine .mono (.foldlM (fun turn turns places hfitting => ?_) hstart) fun places hfitting => ?_
  · -- one turn
    split
    next hnone =>
      refine .pure (hfitting.tail fun block hi => ?_)
      rw [hnone] at hi
      cases hi
    next block hi =>
      refine .bind hcancelled fun cancelled hanswer => ?_
      cases cancelled with
      | true => exact .pure (hfitting.tail fun block _ => hleft hanswer block)
      | false =>
        refine .bind (hblock hanswer block) fun decoded hdecoded => ?_
        exact .pure (hfitting.setIfInBounds hi hdecoded)
  · -- nobody waits any more
    obtain ⟨hsize, hplaces⟩ := hfitting
    refine List.forall₂_iff_get.2 ⟨hsize.symm, fun i hi hi' => ?_⟩
    have hfits := hplaces i blocks[i] places[i] (Array.getElem?_eq_getElem hi)
      (Array.getElem?_eq_getElem hi')
    exact hfits.resolve_right fun ⟨_, hmem⟩ => List.not_mem_nil hmem

theorem blocksByWindow_ensures (hcancelled : Ensures holds decoder.env.cancelled answer)
    (hleft : answer true → ∀ block, fits block none)
    (hblock : answer false → ∀ block,
      Ensures holds (decoder.decodeBlock history block) fun decoded => fits block (some decoded))
    (front : ℕ) (blocks : List Block) :
    Ensures holds (decoder.blocksByWindow history front blocks) (List.Forall₂ fits blocks) := by
  fun_induction blocksByWindow decoder history front blocks with
  | case1 front => exact .pure .nil
  | case2 front block blocks size ih =>
    refine .bind (decodeWindow_ensures hcancelled hleft hblock front _) fun places hplaces => ?_
    refine .bind (ih places) fun behind hbehind => .pure ?_
    have hwindow : block :: blocks = (block :: blocks.take (size - 1)) ++ blocks.drop (size - 1) := by
      rw [List.cons_append, List.take_append_drop]
    rw [hwindow]
    exact List.rel_append hplaces hbehind

end Decoder

/-- What holds of each block behind any history it may have holds of all of them, in any order. -/
theorem Frame.decodeBlocks_ensures {env : Environment (StateM σ)} {options : Options}
    {input : Bytes} {frame : Frame} (hcancelled : Ensures holds env.cancelled answer)
    (hleft : answer true → ∀ block, fits block none)
    (hblock : answer false → ∀ history block,
      (frame.header.descriptor.independentBlocks = true → history = frame.initialHistory options) →
      Ensures holds
        (Decoder.decodeBlock { env, options, limits := frame.limits options, input } history block)
        fun decoded => fits block (some decoded)) :
    Ensures holds (frame.decodeBlocks env options input) (List.Forall₂ fits frame.blocks) := by
  unfold decodeBlocks
  dsimp only
  split_ifs
  · exact Decoder.blocksByWindow_ensures hcancelled hleft
      (fun hanswer block => hblock hanswer _ block fun _ => rfl) 0 frame.blocks
  · refine Decoder.blocksInOrder_ensures hcancelled hleft (fun hanswer history block h => ?_) _
    exact hblock hanswer history block fun hindependent => h (by rw [hindependent, Bool.not_true])

/-- In any surroundings, what was decoded is sound. -/
theorem Frame.forall₂_decodeBlocks (env : Environment (StateM σ)) (options : Options)
    (input : Bytes) (frame : Frame) (state : σ) :
    List.Forall₂ (fun block decoded => ∀ sound : DecodedBlock, decoded = some sound →
        sound.Sound options.verifyChecksums block (block.body input))
      frame.blocks ((frame.decodeBlocks env options input).run state).1 := by
  have hblocks : Ensures (fun _ => True) (frame.decodeBlocks env options input)
      (List.Forall₂ (fun block decoded => ∀ sound : DecodedBlock, decoded = some sound →
        sound.Sound options.verifyChecksums block (block.body input)) frame.blocks) := by
    refine decodeBlocks_ensures (.trivial env.cancelled) (fun _ _ => nofun) ?_
    intro _ history block _
    refine (Decoder.decodeBlock_ensures _ history block).mono fun decoded hsound => ?_
    rintro _ ⟨⟩
    exact hsound
  exact (hblocks state .intro).1

theorem Frame.length_decodeBlocks (env : Environment (StateM σ)) (options : Options)
    (input : Bytes) (frame : Frame) (state : σ) :
    ((frame.decodeBlocks env options input).run state).1.length = frame.blocks.length :=
  (frame.forall₂_decodeBlocks env options input state).length_eq.symm

/-- Where what becomes of a block is a function of the block, it is what becomes of each of them. -/
theorem Frame.run_decodeBlocks_eq_map {env : Environment (StateM σ)} {options : Options}
    {input : Bytes} {frame : Frame} {fate : Block → Option DecodedBlock} {state : σ}
    (hcancelled : Ensures holds env.cancelled answer)
    (hleft : answer true → ∀ block, none = fate block)
    (hblock : answer false → ∀ history block,
      (frame.header.descriptor.independentBlocks = true → history = frame.initialHistory options) →
      Ensures holds
        (Decoder.decodeBlock { env, options, limits := frame.limits options, input } history block)
        fun decoded => some decoded = fate block)
    (hstate : holds state) :
    ((frame.decodeBlocks env options input).run state).1 = frame.blocks.map fate := by
  have hblocks : Ensures holds (frame.decodeBlocks env options input)
      (List.Forall₂ (fun block decoded => decoded = fate block) frame.blocks) :=
    decodeBlocks_ensures hcancelled hleft hblock
  rw [← List.forall₂_eq_eq_eq]
  exact List.forall₂_map_right_iff.2 (hblocks state hstate).1.flip

/-- The outcome of a decoding, from what became of the blocks. -/
theorem Frame.run_decode {env : Environment (StateM σ)} {options : Options} {input : Bytes}
    {frame : Frame} {state : σ}
    (h : ((frame.decodeBlocks env options input).run state).1.length = frame.blocks.length) :
    ((frame.decode env options input).run state).1 =
      frame.outcomeOf options ((frame.decodeBlocks env options input).run state).1 := by
  rw [Frame.decode_eq_map]
  exact conclude_foldl_add options h

/-- The decoding goes on in the state in which the scan has left its surroundings. -/
theorem run_analyze (env : Environment (StateM σ)) (options : Options) (input : Bytes)
    (state : σ) :
    let scanned := (scan env.cancelled input).run state
    ((analyze env options input).run state).1 =
      .of input scanned.1 ((scanned.1.decode env options input).run scanned.2).1 := rfl

end EachBlock

end Lz4Frame
