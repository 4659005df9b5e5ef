import Mathlib.Data.List.Perm.Basic
import Lz4Frame.Proofs.Content.FrontToBack

/-! A decoding in surroundings that can be asked for a cancellation, by the answers that they give.
Before each block they are asked once. Taken in order, the blocks before the first answer that says
so are decoded as if nobody cancelled and the others are left out, `Decoder.blocksInOrder_asks`.
Taken by windows, there are as many blocks left out as there are such answers,
`Decoder.blocksByWindow_asks`. -/

namespace Lz4Frame

variable {σ α β : Type} {polls : σ → List Bool}

/-! ### Answers -/

/-- Answers that were given behind the ones in `before`: once there is a cancellation, there always
is one. -/
structure Lasting (before answers : List Bool) : Prop where
  not_mem : true ∈ before → false ∉ answers
  pairwise : answers.Pairwise (· ≤ ·)

theorem Lasting.append {before answers more : List Bool} (h : Lasting before answers)
    (hmore : Lasting (before ++ answers) more) : Lasting before (answers ++ more) := by
  refine ⟨fun htrue => ?_, List.pairwise_append.2 ⟨h.pairwise, hmore.pairwise, ?_⟩⟩
  · rw [List.mem_append, not_or]
    exact ⟨h.not_mem htrue, hmore.not_mem (List.mem_append_left _ htrue)⟩
  · rintro (_ | _) hmem (_ | _) hmem'
    · decide
    · decide
    · exact absurd hmem' (hmore.not_mem (List.mem_append_right _ hmem))
    · decide

/-- Surroundings that remember how they answered when they were asked for a cancellation. A
cancellation that was seen once stays. In between, anything may happen, also within an expansion,
but blocks are expanded by a function. -/
structure Environment.Polled (polls : σ → List Bool) (env : Environment (StateM σ))
    (decompressor : Decompressor) : Prop where
  expandsBy : ∀ asked, env.ExpandsBy (polls · = asked) decompressor
  polls_cancelled : ∀ state,
    polls (env.cancelled.run state).2 = polls state ++ [(env.cancelled.run state).1]
  stays : ∀ state, true ∈ polls state → (env.cancelled.run state).1 = true

/-- From every state, `x` gets answers and gives a value with `post`. -/
def Asks (polls : σ → List Bool) (x : StateM σ α) (post : List Bool → α → Prop) : Prop :=
  ∀ state, ∃ answers, polls (x.run state).2 = polls state ++ answers ∧
    Lasting (polls state) answers ∧ post answers (x.run state).1

namespace Asks

theorem pure {post : List Bool → α → Prop} {a : α} (h : post [] a) :
    Asks polls (Pure.pure a) post := fun state =>
  ⟨[], (List.append_nil (polls state)).symm, ⟨fun _ => List.not_mem_nil, .nil⟩, h⟩

theorem bind {x : StateM σ α} {f : α → StateM σ β} {post : List Bool → α → Prop}
    {post' : List Bool → β → Prop} (hx : Asks polls x post)
    (hf : ∀ answers a, post answers a →
      Asks polls (f a) fun more b => post' (answers ++ more) b) :
    Asks polls (x >>= f) post' := by
  intro state
  obtain ⟨answers, hanswers, hlasting, hpost⟩ := hx state
  obtain ⟨more, hmore, hlasting', hpost'⟩ := hf answers _ hpost (x.run state).2
  rw [hanswers] at hmore hlasting'
  exact ⟨answers ++ more, hmore.trans (List.append_assoc _ _ _), hlasting.append hlasting', hpost'⟩

theorem map {x : StateM σ α} {f : α → β} {post : List Bool → β → Prop}
    (hx : Asks polls x fun answers a => post answers (f a)) : Asks polls (f <$> x) post :=
  fun state => hx state

theorem mono {x : StateM σ α} {post post' : List Bool → α → Prop} (hx : Asks polls x post)
    (h : ∀ answers a, post answers a → post' answers a) : Asks polls x post' := by
  intro state
  obtain ⟨answers, hanswers, hlasting, hpost⟩ := hx state
  exact ⟨answers, hanswers, hlasting, h _ _ hpost⟩

/-- The answers that `x` gets have no cancellation that does not stay. -/
theorem pairwise {x : StateM σ α} {post : List Bool → α → Prop} (hx : Asks polls x post) :
    Asks polls x fun answers a => answers.Pairwise (· ≤ ·) ∧ post answers a := by
  intro state
  obtain ⟨answers, hanswers, hlasting, hpost⟩ := hx state
  exact ⟨answers, hanswers, hlasting, hlasting.pairwise, hpost⟩

theorem and_ensures {x : StateM σ α} {post : List Bool → α → Prop} {post' : α → Prop}
    (hx : Asks polls x post) (h : Ensures (fun _ => True) x post') :
    Asks polls x fun answers a => post answers a ∧ post' a := by
  intro state
  obtain ⟨answers, hanswers, hlasting, hpost⟩ := hx state
  exact ⟨answers, hanswers, hlasting, hpost, (h state .intro).1⟩

/-- Where nobody is asked, there are no answers. -/
theorem of_ensures {x : StateM σ α} {post : α → Prop}
    (h : ∀ asked, Ensures (polls · = asked) x post) :
    Asks polls x fun answers a => answers = [] ∧ post a := by
  intro state
  obtain ⟨hpost, hpolls⟩ := h (polls state) state rfl
  exact ⟨[], hpolls.trans (List.append_nil _).symm, ⟨fun _ => List.not_mem_nil, .nil⟩, rfl, hpost⟩

theorem foldlM {f : β → α → StateM σ β} {keeps : List Bool → List α → β → Prop}
    (hf : ∀ answers item items b, keeps answers (item :: items) b →
      Asks polls (f b item) fun more => keeps (answers ++ more) items)
    {answers : List Bool} {items : List α} {b : β} (h : keeps answers items b) :
    Asks polls (items.foldlM f b) fun more => keeps (answers ++ more) [] := by
  induction items generalizing answers b with
  | nil => exact pure (by rwa [List.append_nil])
  | cons item items ih =>
    rw [List.foldlM_cons]
    refine bind (hf answers item items b h) fun more b' hkeeps => ?_
    refine (ih hkeeps).mono fun rest b'' hkeeps' => ?_
    rwa [← List.append_assoc]

end Asks

theorem Environment.Polled.asks_cancelled {env : Environment (StateM σ)}
    {decompressor : Decompressor} (hpolled : env.Polled polls decompressor) :
    Asks polls env.cancelled fun answers answer => answers = [answer] := by
  refine fun state => ⟨_, hpolled.polls_cancelled state, ⟨fun htrue => ?_, ?_⟩, rfl⟩
  · rw [hpolled.stays state htrue]
    decide
  · exact List.pairwise_singleton _ _

theorem Environment.Polled.expandsBy_always {env : Environment (StateM σ)}
    {decompressor : Decompressor} (hpolled : env.Polled polls decompressor) :
    env.ExpandsBy (fun _ => True) decompressor where
  decompress body history maxSize := fun state _ =>
    ⟨((hpolled.expandsBy (polls state)).decompress body history maxSize state rfl).1, .intro⟩
  now := .trivial env.now

/-! ### Blocks -/

/-- What became of the blocks, if the ones from `cancelledAt` on were left out. -/
def leaveOut (cancelledAt : Option ℕ) (all : List DecodedBlock) : List (Option DecodedBlock) :=
  match cancelledAt with
  | none => all.map some
  | some k => (all.take k).map some ++ List.replicate (all.length - k) none

namespace Decoder

variable {decoder : Decoder (StateM σ)} {plain : Decoder Id} {history : Bytes}

/-- Blocks in order, up to the first answer that says so. -/
theorem blocksInOrder_asks {linked : Bool}
    (hcancelled : Asks polls decoder.env.cancelled fun answers answer => answers = [answer])
    (hblock : ∀ history block, Asks polls (decoder.decodeBlock history block) fun answers decoded =>
      answers = [] ∧ decoded = Id.run (plain.decodeBlock history block))
    (blocks : List Block) :
    Asks polls (decoder.blocksInOrder linked history blocks) fun answers decoded =>
      answers.length ≤ blocks.length ∧ (true ∉ answers → answers.length = blocks.length) ∧
        decoded = leaveOut (answers.findIdx? id) (plain.decodeAll linked history blocks) := by
  induction blocks generalizing history with
  | nil => exact .pure ⟨Nat.le_refl 0, fun _ => rfl, rfl⟩
  | cons block blocks ih =>
    refine .bind hcancelled fun _ cancelled hanswer => ?_
    subst hanswer
    cases cancelled with
    | true =>
      refine .pure ⟨Nat.succ_le_succ (Nat.zero_le _), fun hnot => ?_, ?_⟩
      · exact absurd List.mem_cons_self hnot
      · simp [leaveOut, length_decodeAll]
    | false =>
      refine .bind (hblock history block) fun _ decoded hdecoded => ?_
      obtain ⟨rfl, rfl⟩ := hdecoded
      refine .bind ih fun answers behind hbehind => ?_
      obtain ⟨hle, hlength, rfl⟩ := hbehind
      refine .pure ⟨by simpa using hle, fun hnot => ?_, ?_⟩
      · simpa using hlength (by simpa using hnot)
      rw [decodeAll]
      cases hfind : answers.findIdx? id <;> simp [leaveOut, hfind, List.findIdx?_cons]

/-- The places of a window and the answers so far. The blocks in `turns` still wait, and they count
as left out. -/
structure Waiting (size : ℕ) (answers : List Bool) (turns : List ℕ)
    (places : Array (Option DecodedBlock)) : Prop where
  size_eq : places.size = size
  nodup : turns.Nodup
  waits : ∀ turn ∈ turns, places[turn]? = some none
  perm : (answers ++ List.replicate turns.length true).Perm (places.toList.map Option.isNone)

namespace Waiting

variable {size turn : ℕ} {turns : List ℕ} {answers : List Bool}
  {places : Array (Option DecodedBlock)}

theorem lt_size (h : Waiting size answers (turn :: turns) places) : turn < size := by
  rw [← h.size_eq]
  exact (Array.getElem?_eq_some_iff.1 (h.waits turn List.mem_cons_self)).1

/-- A turn at which the block is left out. -/
theorem tail (h : Waiting size answers (turn :: turns) places) :
    Waiting size (answers ++ [true]) turns places where
  size_eq := h.size_eq
  nodup := (List.nodup_cons.1 h.nodup).2
  waits next hnext := h.waits next (List.mem_cons_of_mem _ hnext)
  perm := by
    rw [List.append_assoc, List.singleton_append, ← List.replicate_succ]
    exact h.perm

/-- A turn at which the block is put into place. -/
theorem setIfInBounds (h : Waiting size answers (turn :: turns) places) (decoded : DecodedBlock) :
    Waiting size (answers ++ [false]) turns (places.setIfInBounds turn (some decoded)) := by
  obtain ⟨hturn, hnodup⟩ := List.nodup_cons.1 h.nodup
  obtain ⟨hlt, hplace⟩ := Array.getElem?_eq_some_iff.1 (h.waits turn List.mem_cons_self)
  refine ⟨by rw [Array.size_setIfInBounds, h.size_eq], hnodup, fun next hnext => ?_, ?_⟩
  · rw [Array.getElem?_setIfInBounds_ne (by rintro rfl; exact hturn hnext)]
    exact h.waits next (List.mem_cons_of_mem _ hnext)
  · let left := places.toList.map Option.isNone
    have hlt' : turn < left.length := by simpa [left] using hlt
    have hleft : left[turn] = true := by simp [left, hplace]
    have hrest : (answers ++ List.replicate turns.length true).Perm (left.eraseIdx turn) := by
      have hall : (true :: left.eraseIdx turn).Perm left :=
        hleft ▸ List.getElem_cons_eraseIdx_perm hlt'
      exact (List.perm_cons true).1 (List.perm_middle.symm.trans (h.perm.trans hall.symm))
    have hset : (places.setIfInBounds turn (some decoded)).toList.map Option.isNone =
        left.set turn false := by
      rw [Array.toList_setIfInBounds, List.map_set]
      rfl
    rw [hset, List.append_assoc, List.singleton_append]
    exact List.perm_middle.trans
      ((hrest.cons false).trans (List.set_perm_cons_eraseIdx hlt' false).symm)

end Waiting

theorem decodeWindow_asks
    (hcancelled : Asks polls decoder.env.cancelled fun answers answer => answers = [answer])
    (hblock : ∀ history block, Asks polls (decoder.decodeBlock history block) fun answers _ =>
      answers = [])
    (front : ℕ) (blocks : Array Block) :
    Asks polls (decoder.decodeWindow history front blocks) fun answers places =>
      answers.Perm (places.toList.map Option.isNone) := by
  have horder := decoder.env.schedule.order_perm front blocks.size
  have hstart : Waiting blocks.size [] (decoder.env.schedule.order front blocks.size)
      (Array.replicate blocks.size none) := by
    refine ⟨Array.size_replicate, horder.nodup_iff.2 List.nodup_range, fun turn hturn => ?_, ?_⟩
    · rw [horder.mem_iff, List.mem_range] at hturn
      rw [Array.getElem?_replicate, if_pos hturn]
    · simp [horder.length_eq]
  refine .mono (.foldlM (fun answers turn turns places hwaiting => ?_) hstart) ?_
  · -- one turn
    rw [Array.getElem?_eq_getElem hwaiting.lt_size]
    refine .bind hcancelled fun _ cancelled hanswer => ?_
    subst hanswer
    cases cancelled with
    | true => exact .pure hwaiting.tail
    | false =>
      refine .bind (hblock history _) fun _ decoded hnone => ?_
      subst hnone
      exact .pure (hwaiting.setIfInBounds decoded)
  · -- nobody waits any more
    intro answers places hwaiting
    simpa using hwaiting.perm

theorem blocksByWindow_asks
    (hcancelled : Asks polls decoder.env.cancelled fun answers answer => answers = [answer])
    (hblock : ∀ history block, Asks polls (decoder.decodeBlock history block) fun answers _ =>
      answers = [])
    (front : ℕ) (blocks : List Block) :
    Asks polls (decoder.blocksByWindow history front blocks) fun answers decoded =>
      answers.Perm (decoded.map Option.isNone) := by
  fun_induction blocksByWindow decoder history front blocks with
  | case1 front => exact .pure .nil
  | case2 front block blocks size ih =>
    refine .bind (decodeWindow_asks hcancelled hblock front _) fun answers places hplaces => ?_
    refine .bind (ih places) fun more behind hbehind => .pure ?_
    rw [List.append_nil, List.map_append]
    exact hplaces.append hbehind

end Decoder

/-! ### Frames -/

/-- The blocks are taken one after the other. -/
def Frame.InOrder (options : Options) (frame : Frame) : Prop :=
  (frame.header.descriptor.independentBlocks && options.parallel) = false

/-- What the answers say about the blocks. If none of them is a cancellation, all blocks are
decoded, and else some are left out. Which ones is clear if the blocks are taken in order, or if
already the first answer was a cancellation. -/
structure Frame.AnsweredBy (options : Options) (frame : Frame) (all : List DecodedBlock)
    (answers : List Bool) (decoded : List (Option DecodedBlock)) : Prop where
  length_eq : decoded.length = frame.blocks.length
  length_le : answers.length ≤ frame.blocks.length
  all_of_not_mem : true ∉ answers →
    answers.length = frame.blocks.length ∧ decoded = all.map some
  none_mem : true ∈ answers → none ∈ decoded
  leaveOut : frame.InOrder options ∨ answers.head? = some true →
    decoded = leaveOut (answers.findIdx? id) all

theorem length_leaveOut {cancelledAt : Option ℕ} {all : List DecodedBlock}
    (h : ∀ k, cancelledAt = some k → k ≤ all.length) :
    (leaveOut cancelledAt all).length = all.length := by
  cases cancelledAt with
  | none => exact List.length_map some
  | some k =>
    have := h k rfl
    simp [leaveOut]
    omega

theorem findIdx?_lt_length {answers : List Bool} {k : ℕ} (h : answers.findIdx? id = some k) :
    k < answers.length := (List.findIdx?_eq_some_iff_getElem.1 h).1

theorem findIdx?_eq_none_iff_not_mem {answers : List Bool} :
    answers.findIdx? id = none ↔ true ∉ answers := by
  simp [List.findIdx?_eq_none_iff]

theorem isSome_findIdx?_iff_mem {answers : List Bool} :
    (answers.findIdx? id).isSome ↔ true ∈ answers := by
  simp [List.findIdx?_isSome]

theorem exists_findIdx?_of_mem {answers : List Bool} (h : true ∈ answers) :
    ∃ k, answers.findIdx? id = some k :=
  Option.isSome_iff_exists.1 (isSome_findIdx?_iff_mem.2 h)

theorem Frame.answeredBy_of_leaveOut {options : Options} {frame : Frame}
    {all : List DecodedBlock} {answers : List Bool} (hall : all.length = frame.blocks.length)
    (hle : answers.length ≤ frame.blocks.length)
    (hlength : true ∉ answers → answers.length = frame.blocks.length) :
    frame.AnsweredBy options all answers (Lz4Frame.leaveOut (answers.findIdx? id) all) := by
  refine ⟨?_, hle, fun hnot => ⟨hlength hnot, ?_⟩, fun hmem => ?_, fun _ => rfl⟩
  · rw [length_leaveOut fun k hk => ?_, hall]
    have := findIdx?_lt_length hk
    omega
  · rw [findIdx?_eq_none_iff_not_mem.2 hnot]
    rfl
  · obtain ⟨k, hk⟩ := exists_findIdx?_of_mem hmem
    have := findIdx?_lt_length hk
    rw [hk]
    refine List.mem_append_right _ (List.mem_replicate.2 ⟨?_, rfl⟩)
    omega

theorem Frame.answeredBy_of_perm {options : Options} {frame : Frame} {f : Block → DecodedBlock}
    {answers : List Bool} {decoded : List (Option DecodedBlock)}
    (hwindow : ¬ frame.InOrder options) (hlasting : answers.Pairwise (· ≤ ·))
    (hperm : answers.Perm (decoded.map Option.isNone))
    (hblocks : List.Forall₂ (fun block decoded => decoded = none ∨ decoded = some (f block))
      frame.blocks decoded) :
    frame.AnsweredBy options (frame.blocks.map f) answers decoded := by
  have hlength : answers.length = frame.blocks.length := by
    rw [hperm.length_eq, List.length_map, hblocks.length_eq]
  refine ⟨hblocks.length_eq.symm, hlength.le, fun hnot => ⟨hlength, ?_⟩, fun hmem => ?_,
    fun hfirst => ?_⟩
  · rw [List.map_map]
    refine List.ext_getElem (by rw [List.length_map, hblocks.length_eq]) fun i hi hi' => ?_
    rw [List.length_map] at hi'
    rw [List.getElem_map]
    refine ((List.forall₂_iff_get.1 hblocks).2 i hi' hi).resolve_left fun hnone => hnot ?_
    exact hperm.mem_iff.2 (List.mem_map.2 ⟨none, hnone ▸ List.get_mem _ _, rfl⟩)
  · obtain ⟨place, hplace, hnone⟩ := List.mem_map.1 (hperm.mem_iff.1 hmem)
    rwa [Option.isNone_iff_eq_none.1 hnone] at hplace
  · -- each answer was a cancellation, so nothing was decoded
    rcases answers with _ | ⟨first, answers⟩
    · cases hfirst.resolve_left hwindow
    obtain rfl : first = true := Option.some_inj.1 (hfirst.resolve_left hwindow)
    have hfalse : false ∉ true :: answers := by
      rw [List.mem_cons, not_or]
      exact ⟨Bool.false_ne_true, fun hmem => absurd ((List.pairwise_cons.1 hlasting).1 _ hmem)
        (by decide)⟩
    have hdecoded : decoded = List.replicate frame.blocks.length none := by
      refine List.eq_replicate_iff.2 ⟨hblocks.length_eq.symm, fun place hplace => ?_⟩
      rcases place with _ | place
      · rfl
      · exact absurd (hperm.mem_iff.2 (List.mem_map.2 ⟨_, hplace, rfl⟩)) hfalse
    rw [hdecoded]
    simp [Lz4Frame.leaveOut, List.findIdx?_cons]

/-- What becomes of the blocks of a frame, by the answers. -/
theorem Frame.decodeBlocks_asks {env : Environment (StateM σ)} {decompressor : Decompressor}
    (hpolled : env.Polled polls decompressor) {options : Options}
    (htimeout : options.blockTimeout = none) (input : Bytes) (frame : Frame) :
    Asks polls (frame.decodeBlocks env options input)
      (frame.AnsweredBy options (frame.decodeAll decompressor options input)) := by
  have hblock : ∀ history block,
      Asks polls (Decoder.decodeBlock { env, options, limits := frame.limits options, input }
        history block) fun answers decoded =>
          answers = [] ∧ decoded = frame.decodePure decompressor options input history block :=
    fun history block => .of_ensures fun asked =>
      frame.decodeBlock_ensures_eq (hpolled.expandsBy asked) htimeout input history block
  rcases horder : frame.header.descriptor.independentBlocks && options.parallel with _ | _
  · -- in order
    have hrun : Asks polls (frame.decodeBlocks env options input) fun answers decoded =>
        answers.length ≤ frame.blocks.length ∧
          (true ∉ answers → answers.length = frame.blocks.length) ∧
          decoded = Lz4Frame.leaveOut (answers.findIdx? id)
            (frame.decodeAll decompressor options input) := by
      simp only [decodeBlocks, horder, Bool.false_eq_true, if_false]
      exact Decoder.blocksInOrder_asks hpolled.asks_cancelled hblock _
    refine hrun.mono ?_
    rintro answers _ ⟨hle, hlength, rfl⟩
    exact answeredBy_of_leaveOut length_decodeAll hle hlength
  · -- window by window
    have hindependent := (Bool.and_eq_true_iff.1 horder).1
    have hrun : Asks polls (frame.decodeBlocks env options input) fun answers decoded =>
        answers.Perm (decoded.map Option.isNone) := by
      simp only [decodeBlocks, horder, if_true]
      refine Decoder.blocksByWindow_asks hpolled.asks_cancelled (fun history block => ?_) 0 _
      exact (hblock history block).mono fun _ _ => And.left
    have hfits : Ensures (fun _ => True) (frame.decodeBlocks env options input)
        (List.Forall₂ (fun block decoded => decoded = none ∨ decoded =
          some (frame.decodePure decompressor options input (frame.initialHistory options) block))
          frame.blocks) := by
      refine decodeBlocks_ensures (.trivial _) (fun _ block => .inl rfl)
        fun _ history block hhistory => ?_
      refine (frame.decodeBlock_ensures_eq hpolled.expandsBy_always htimeout input history
        block).mono ?_
      rintro _ rfl
      rw [hhistory hindependent]
      exact .inr rfl
    refine (hrun.and_ensures hfits).pairwise.mono ?_
    rintro answers decoded ⟨hlasting, hperm, hblocks⟩
    rw [decodeAll_of_independent hindependent]
    exact answeredBy_of_perm (by simp [InOrder, horder]) hlasting hperm hblocks

end Lz4Frame
