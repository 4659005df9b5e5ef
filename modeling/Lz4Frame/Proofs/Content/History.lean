import Lz4Frame.Proofs.Content.Polls
import Lz4Frame.Proofs.Content.Window
import Lz4Frame.Proofs.Uncancelled

/-! What a decompressor is asked for. A block is handed over if it is compressed and not refused for
its size, with the history that is there for it. Independent blocks all find what can be reached of
the dictionary. Linked blocks find the last window of everything behind that, or behind the last
block without content. The loop keeps one buffer for it, which it extends, cuts and clears, and
cutting is never missed, `Frame.historyAt_histories`. So whatever the order in which blocks are
taken, it is known what is asked for, `decode_histories`. -/

namespace Lz4Frame

/-! ### Requests -/

/-- One call of a decompressor. -/
structure Request where
  body : Bytes
  history : Bytes
  maxSize : ℕ
  deriving DecidableEq

/-- What is asked for to have the content of a block behind `history`, if anything is. -/
def Block.request? (options : Options) (maxSize : ℕ) (input : Bytes) (block : Block)
    (history : Bytes) : Option Request :=
  if options.decompress && !(options.strictBlockSize && maxSize < block.size) &&
      !block.isUncompressed then
    some ⟨block.body input, history, maxSize⟩
  else
    none

theorem reduceOption_cons {α : Type} (item : Option α) (items : List (Option α)) :
    (item :: items).reduceOption = item.toList ++ items.reduceOption := by
  cases item <;> rfl

theorem filterMap_range_getElem? {α : Type} (items : Array α) :
    (List.range items.size).filterMap (fun i => items[i]?) = items.toList := by
  have hmap : (List.range items.size).map (fun i => items[i]?) = items.toList.map some :=
    List.ext_getElem (by simp) (by simp)
  rw [← Function.id_comp (fun i => items[i]?), ← List.filterMap_map, hmap, List.filterMap_map]
  exact List.filterMap_some

section Logs

variable {σ α β : Type} {log : σ → List Request}

/-- Surroundings that remember what was asked of a decompressor that is a function. Nobody cancels,
and time may run. -/
structure Environment.Records (log : σ → List Request) (env : Environment (StateM σ))
    (decompressor : Decompressor) : Prop where
  decompress : ∀ body history maxSize state,
    let after := (env.decompress body history maxSize).run state
    after.1 = decompressor body history maxSize ∧
      log after.2 = log state ++ [⟨body, history, maxSize⟩]
  now : ∀ state, log (env.now.run state).2 = log state
  cancelled : ∀ state,
    let after := env.cancelled.run state
    after.1 = false ∧ log after.2 = log state

/-- From every state, `x` gives `a` and has made these requests. -/
def Logs (log : σ → List Request) (x : StateM σ α) (a : α) (made : List Request) : Prop :=
  ∀ state, (x.run state).1 = a ∧ log (x.run state).2 = log state ++ made

namespace Logs

theorem pure (a : α) : Logs log (Pure.pure a) a [] :=
  fun state => ⟨rfl, (List.append_nil (log state)).symm⟩

theorem bind {x : StateM σ α} {f : α → StateM σ β} {a : α} {b : β} {made more : List Request}
    (hx : Logs log x a made) (hf : Logs log (f a) b more) :
    Logs log (x >>= f) b (made ++ more) := by
  intro state
  obtain ⟨rfl, hmade⟩ := hx state
  obtain ⟨hb, hmore⟩ := hf (x.run state).2
  exact ⟨hb, hmore.trans (by rw [hmade, List.append_assoc])⟩

theorem map {x : StateM σ α} {a : α} {made : List Request} (hx : Logs log x a made)
    (f : α → β) : Logs log (f <$> x) (f a) made :=
  fun state => ⟨congrArg f (hx state).1, (hx state).2⟩

theorem of_eq {x : StateM σ α} {a : α} {made made' : List Request} (hx : Logs log x a made)
    (hmade : made = made') : Logs log x a made' :=
  hmade ▸ hx

theorem foldlM {f : β → α → StateM σ β} {g : β → α → β} {request : α → Option Request}
    (h : ∀ b a, Logs log (f b a) (g b a) (request a).toList) (items : List α) (b : β) :
    Logs log (items.foldlM f b) (items.foldl g b) (items.filterMap request) := by
  induction items generalizing b with
  | nil => exact .pure b
  | cons item items ih =>
    rw [List.foldlM_cons, List.foldl_cons]
    refine .of_eq ((h b item).bind (ih _)) ?_
    rw [List.filterMap_cons]
    cases request item <;> rfl

end Logs

variable {env : Environment (StateM σ)} {decompressor : Decompressor}

theorem Environment.Records.steadyOn (h : env.Records log decompressor) :
    env.SteadyOn (fun _ => True) decompressor false where
  decompress body history maxSize state _ := ⟨(h.decompress body history maxSize state).1, .intro⟩
  now := .trivial env.now
  cancelled state _ := ⟨(h.cancelled state).1, .intro⟩

theorem Environment.Records.cancelled_logs (h : env.Records log decompressor) :
    Logs log env.cancelled false [] := by
  intro state
  obtain ⟨hanswer, hrequests⟩ := h.cancelled state
  exact ⟨hanswer, by rw [hrequests, List.append_nil]⟩

/-! ### One block -/

/-- A compressed block that is not refused is one request, whatever time its expansion takes. -/
theorem Block.content_logs (h : env.Records log decompressor) {limits : Limits}
    (htimeout : limits.timeout = none) (block : Block) (body history : Bytes) :
    Logs log (block.content env limits body history)
      (Id.run (block.content (.ofDecompressor decompressor) limits body history))
      (if limits.strictBlockSize && limits.maxBlockSize < block.size then []
        else if block.isUncompressed then []
        else [⟨body, history, limits.maxBlockSize⟩]) := by
  unfold content
  split_ifs
  · exact .pure _
  · exact .pure _
  · intro state
    obtain ⟨hcontent, hrequests⟩ :=
      h.decompress body history limits.maxBlockSize (env.now.run state).2
    rw [h.now] at hrequests
    refine ⟨?_, (h.now _).trans hrequests⟩
    show (limits.judge _ _).mapError _ = (limits.judge _ _).mapError _
    rw [Limits.judge, Limits.judge, htimeout]
    exact congrArg _ hcontent

variable {options : Options}

theorem Frame.decodeBlock_logs (h : env.Records log decompressor)
    (htimeout : options.blockTimeout = none) (input : Bytes) (frame : Frame) (history : Bytes)
    (block : Block) :
    Logs log
      (Decoder.decodeBlock { env, options, limits := frame.limits options, input } history block)
      (frame.decodePure decompressor options input history block)
      (block.request? options frame.header.maxBlockSize input history).toList := by
  have hcontent := block.content_logs h (show (frame.limits options).timeout = none from htimeout)
    (block.body input) history
  unfold decodePure Decoder.decodeBlock
  rcases hdecompress : options.decompress with _ | _
  · rw [Block.request?, hdecompress]
    exact .pure _
  · have hmade : (block.request? options frame.header.maxBlockSize input history).toList =
        if options.strictBlockSize && frame.header.maxBlockSize < block.size then []
        else if block.isUncompressed then []
        else [⟨block.body input, history, frame.header.maxBlockSize⟩] := by
      rw [Block.request?, hdecompress]
      split_ifs <;> simp_all
    rw [hmade]
    exact hcontent.map _

/-! ### All blocks -/

namespace Decoder

/-- The history that is there for each block, by the contents of the blocks. -/
def histories (linked : Bool) (history : Bytes) : List (Option Bytes) → List Bytes
  | [] => []
  | content :: contents =>
    history ::
      histories linked (if linked then extendHistory history content else history) contents

theorem length_histories (linked : Bool) (history : Bytes) (contents : List (Option Bytes)) :
    (histories linked history contents).length = contents.length := by
  induction contents generalizing history with
  | nil => rfl
  | cons content contents ih => rw [histories, List.length_cons, List.length_cons, ih]

theorem getElem?_histories (linked : Bool) (history : Bytes) (contents : List (Option Bytes))
    (k : ℕ) :
    (histories linked history contents)[k]? = contents[k]?.map fun _ =>
      if linked then (contents.take k).foldl extendHistory history else history := by
  induction contents generalizing history k with
  | nil => rfl
  | cons content contents ih =>
    cases k with
    | zero => cases linked <;> rfl
    | succ k =>
      rw [histories, List.getElem?_cons_succ, List.getElem?_cons_succ, ih]
      cases linked <;> rfl

/-- Independent blocks have one history. -/
theorem histories_of_independent (history : Bytes) (contents : List (Option Bytes)) :
    histories false history contents = contents.map fun _ => history := by
  refine List.ext_getElem? fun k => ?_
  rw [getElem?_histories, List.getElem?_map]
  rfl

variable {decoder : Decoder (StateM σ)} {plain : Decoder Id}
  {request : Bytes → Block → Option Request}

/-- Each block is decoded behind its history. -/
theorem decodeAll_eq_zipWith (plain : Decoder Id) (linked : Bool) (history : Bytes)
    (blocks : List Block) :
    plain.decodeAll linked history blocks =
      (histories linked history
        ((plain.decodeAll linked history blocks).map DecodedBlock.content)).zipWith
        (fun history block => Id.run (plain.decodeBlock history block)) blocks := by
  induction blocks generalizing history with
  | nil => rfl
  | cons block blocks ih =>
    rw [decodeAll, List.map_cons, histories, List.zipWith_cons_cons, ← ih]

theorem blocksInOrder_logs (hcancelled : Logs log decoder.env.cancelled false [])
    (hblock : ∀ history block, Logs log (decoder.decodeBlock history block)
      (Id.run (plain.decodeBlock history block)) (request history block).toList)
    (linked : Bool) (history : Bytes) (blocks : List Block) :
    let decoded := plain.decodeAll linked history blocks
    Logs log (decoder.blocksInOrder linked history blocks) (decoded.map some)
      ((histories linked history (decoded.map DecodedBlock.content)).zipWith request
        blocks).reduceOption := by
  induction blocks generalizing history with
  | nil => exact .pure _
  | cons block blocks ih =>
    refine .of_eq (hcancelled.bind ((hblock history block).bind ((ih _).bind (.pure _)))) ?_
    rw [List.nil_append, List.append_nil]
    exact (reduceOption_cons _ _).symm

/-- A window makes the requests of its blocks, by turns. -/
theorem decodeWindow_logs {request : Block → Option Request}
    (hcancelled : Logs log decoder.env.cancelled false []) (history : Bytes)
    (hblock : ∀ block, Logs log (decoder.decodeBlock history block)
      (Id.run (plain.decodeBlock history block)) (request block).toList)
    (front : ℕ) (blocks : Array Block) :
    ∃ made, made.Perm (blocks.toList.filterMap request) ∧
      Logs log (decoder.decodeWindow history front blocks)
        (blocks.map (some ∘ fun block => Id.run (plain.decodeBlock history block))) made := by
  have horder := decoder.env.schedule.order_perm front blocks.size
  refine ⟨(decoder.env.schedule.order front blocks.size).filterMap
    fun turn => blocks[turn]?.bind request, ?_, ?_⟩
  · rw [← filterMap_range_getElem? blocks, List.filterMap_filterMap]
    exact horder.filterMap _
  · rw [← foldl_takeTurn_of_perm horder]
    refine .foldlM (fun places turn => ?_) _ _
    unfold takeTurn
    cases blocks[turn]? with
    | none => exact .pure places
    | some block =>
      exact .of_eq (hcancelled.bind ((hblock block).bind (.pure _))) (List.append_nil _)

theorem blocksByWindow_logs {request : Block → Option Request}
    (hcancelled : Logs log decoder.env.cancelled false []) (history : Bytes)
    (hblock : ∀ block, Logs log (decoder.decodeBlock history block)
      (Id.run (plain.decodeBlock history block)) (request block).toList)
    (front : ℕ) (blocks : List Block) :
    ∃ made, made.Perm (blocks.filterMap request) ∧
      Logs log (decoder.blocksByWindow history front blocks)
        (blocks.map (some ∘ fun block => Id.run (plain.decodeBlock history block))) made := by
  fun_induction blocksByWindow decoder history front blocks with
  | case1 front => exact ⟨[], .nil, .pure []⟩
  | case2 front block blocks size ih =>
    let window := (block :: blocks.take (size - 1)).toArray
    obtain ⟨made, hperm, hwindow⟩ := decodeWindow_logs hcancelled history hblock front window
    obtain ⟨more, hperm', hbehind⟩ :=
      ih (window.map (some ∘ fun block => Id.run (plain.decodeBlock history block)))
    have hblocks : block :: blocks = window.toList ++ blocks.drop (size - 1) := by
      rw [List.cons_append, List.take_append_drop]
    refine ⟨made ++ more, ?_, ?_⟩
    · rw [hblocks, List.filterMap_append]
      exact hperm.append hperm'
    · rw [hblocks, List.map_append, ← Array.toList_map]
      exact .of_eq (hwindow.bind (hbehind.bind (.pure _))) (by rw [List.append_nil])

end Decoder

/-! ### Histories -/

namespace Decoder

/-- A history that is cut from block to block is the last window of one that is never cut. -/
theorem foldl_extendHistory_tail (history : Bytes) (contents : List (Option Bytes)) :
    contents.foldl extendHistory (history.tail Format.windowSize) =
      (contents.foldl extendUnbounded history).tail Format.windowSize := by
  induction contents generalizing history with
  | nil => rw [List.foldl_nil, List.foldl_nil]
  | cons content contents ih => rw [List.foldl_cons, extendHistory_tail, ih, List.foldl_cons]

variable {contents : List (Option Bytes)} {content : Bytes}

theorem foldl_extendUnbounded_of_whole (h : whole contents = some content) (history : Bytes) :
    contents.foldl extendUnbounded history = history ++ content := by
  induction contents generalizing history content with
  | nil =>
    cases h
    rw [List.foldl_nil, Array.append_empty]
  | cons first contents ih =>
    cases first with
    | none => cases h
    | some first =>
      obtain ⟨rest, hrest, rfl⟩ := Option.map_eq_some_iff.1 h
      rw [List.foldl_cons, ih hrest, extendUnbounded, Array.append_assoc]

/-- Nothing is left of what was there before a block without content. -/
theorem foldl_extendUnbounded_of_none {j : ℕ} (hnone : contents[j]? = some none)
    (h : whole (contents.drop (j + 1)) = some content) (history : Bytes) :
    contents.foldl extendUnbounded history = content := by
  obtain ⟨hj, hnone⟩ := List.getElem?_eq_some_iff.1 hnone
  have hsplit : contents = contents.take j ++ none :: contents.drop (j + 1) := by
    rw [← hnone, ← List.drop_eq_getElem_cons hj, List.take_append_drop]
  rw [hsplit, List.foldl_append, List.foldl_cons, extendUnbounded,
    foldl_extendUnbounded_of_whole h, Array.empty_append]

end Decoder

namespace Frame

/-- The history for block `k` of a frame whose blocks have `contents`, where `start` is within reach
before the first one. -/
structure HistoryAt (frame : Frame) (start : Bytes) (contents : List (Option Bytes)) (k : ℕ)
    (history : Bytes) : Prop where
  size_le : history.size ≤ Format.windowSize
  of_independent : frame.header.descriptor.independentBlocks = true → history = start
  of_whole : frame.header.descriptor.independentBlocks = false →
    ∀ content, whole (contents.take k) = some content →
      history = (start ++ content).tail Format.windowSize
  of_none : frame.header.descriptor.independentBlocks = false →
    ∀ j content, j < k → contents[j]? = some none →
      whole ((contents.take k).drop (j + 1)) = some content →
      history = content.tail Format.windowSize

theorem initialHistory_eq (frame : Frame) (options : Options) :
    frame.initialHistory options = if frame.header.descriptor.hasDictionaryId then
      options.dictionary.elim #[] (Bytes.tail · Format.windowSize) else #[] := by
  rw [initialHistory]
  cases options.dictionary with
  | none => rw [Option.getD_none, Option.elim_none, Bytes.tail_of_size_le (Nat.zero_le _)]
  | some dictionary => rw [Option.getD_some, Option.elim_some]

theorem size_initialHistory_le (frame : Frame) (options : Options) :
    (frame.initialHistory options).size ≤ Format.windowSize := by
  rw [initialHistory]
  split_ifs
  · exact Bytes.size_tail_le _ _
  · exact Nat.zero_le _

/-- The histories that the loop has are the ones that are meant. -/
theorem historyAt_histories (frame : Frame) {start : Bytes} (hstart : start.size ≤ Format.windowSize)
    {contents : List (Option Bytes)} {k : ℕ} (hk : k < contents.length) :
    ∃ history, (Decoder.histories (!frame.header.descriptor.independentBlocks) start contents)[k]? =
      some history ∧ frame.HistoryAt start contents k history := by
  have htail : (contents.take k).foldl Decoder.extendHistory start =
      ((contents.take k).foldl Decoder.extendUnbounded start).tail Format.windowSize := by
    rw [← Decoder.foldl_extendHistory_tail, Bytes.tail_of_size_le hstart]
  rw [Decoder.getElem?_histories, List.getElem?_eq_getElem hk, htail]
  refine ⟨_, rfl, ?_⟩
  cases hindependent : frame.header.descriptor.independentBlocks with
  | false =>
    -- the buffer is the last window of all contents since the last block without any
    rw [Bool.not_false, if_pos rfl]
    refine ⟨Bytes.size_tail_le _ _, fun h => ?_, fun _ content hwhole => ?_,
      fun _ j content hj hnone hwhole => ?_⟩
    · cases hindependent.symm.trans h
    · rw [Decoder.foldl_extendUnbounded_of_whole hwhole]
    · have hnone' : (contents.take k)[j]? = some none := by
        rwa [List.getElem?_take_of_lt hj]
      rw [Decoder.foldl_extendUnbounded_of_none hnone' hwhole]
  | true =>
    refine ⟨hstart, fun _ => rfl, fun h => ?_, fun h => ?_⟩
    · cases hindependent.symm.trans h
    · cases hindependent.symm.trans h

/-- What is asked for, block after block, if the blocks of a frame have these histories. -/
def requests (options : Options) (input : Bytes) (frame : Frame) (histories : List Bytes) :
    List Request :=
  (histories.zipWith (fun history block =>
    block.request? options frame.header.maxBlockSize input history) frame.blocks).reduceOption

/-- Behind one and the same history, it is a matter of the blocks alone. -/
theorem requests_map (options : Options) (input : Bytes) (frame : Frame) (history : Bytes) :
    frame.requests options input (frame.blocks.map fun _ => history) =
      frame.blocks.filterMap fun block =>
        block.request? options frame.header.maxBlockSize input history := by
  rw [requests, List.zipWith_map_left, List.zipWith_self, List.reduceOption, List.filterMap_map]
  rfl

theorem decodeBlocks_logs (h : env.Records log decompressor)
    (htimeout : options.blockTimeout = none) (input : Bytes) (frame : Frame) :
    let decoded := frame.decodeAll decompressor options input
    let asked := frame.requests options input
      (Decoder.histories (!frame.header.descriptor.independentBlocks)
        (frame.initialHistory options) (decoded.map DecodedBlock.content))
    ∃ made, made.Perm asked ∧ (frame.InOrder options → made = asked) ∧
      Logs log (frame.decodeBlocks env options input) (decoded.map some) made := by
  intro decoded asked
  have hblock := fun history block => frame.decodeBlock_logs h htimeout input history block
  rcases horder : frame.header.descriptor.independentBlocks && options.parallel with _ | _
  · -- in order
    refine ⟨asked, .refl asked, fun _ => rfl, ?_⟩
    simp only [decodeBlocks, horder, Bool.false_eq_true, if_false]
    exact Decoder.blocksInOrder_logs h.cancelled_logs hblock _ _ _
  · -- window by window, where the requests of a window may come in any order
    have hindependent := (Bool.and_eq_true_iff.1 horder).1
    have hdecoded : decoded = _ := decodeAll_of_independent hindependent
    have hasked : asked = frame.blocks.filterMap fun block =>
        block.request? options frame.header.maxBlockSize input (frame.initialHistory options) := by
      rw [← requests_map]
      simp only [asked, hindependent, Bool.not_true, hdecoded, List.map_map,
        Decoder.histories_of_independent]
      rfl
    obtain ⟨made, hperm, hlogs⟩ := Decoder.blocksByWindow_logs h.cancelled_logs
      (frame.initialHistory options) (hblock (frame.initialHistory options)) 0 frame.blocks
    refine ⟨made, hasked ▸ hperm, fun hinOrder => ?_, ?_⟩
    · cases horder.symm.trans hinOrder
    · rw [hdecoded, List.map_map]
      simp only [decodeBlocks, horder, if_true]
      exact hlogs

end Frame

/-- Without a dictionary id in the frame, no dictionary makes a difference. -/
theorem report_dictionary (decompressor : Decompressor) (options : Options)
    (dictionary : Option Bytes) {input : Bytes}
    (h : ∀ frame, (Id.run (scan (pure false) input)).frame = some frame →
      frame.header.descriptor.hasDictionaryId = false) :
    report decompressor { options with dictionary } input = report decompressor options input := by
  refine report_congr rfl rfl fun frame hframe => ?_
  have hhistory : ∀ options : Options, frame.initialHistory options = #[] := by
    intro options
    rw [Frame.initialHistory, h frame hframe, if_neg Bool.false_ne_true]
  exact Frame.decodeAll_congr rfl (by rw [hhistory, hhistory])

/-- Each block that is handed to a decompressor has the history that is there for it: what can be
reached of the dictionary if blocks are independent, and else the last window of everything behind
that or behind the last block without content. Without a dictionary id, the report has nothing from
the dictionary. -/
theorem decode_histories (hrecords : env.Records log decompressor)
    (htimeout : options.blockTimeout = none) (input : Bytes) :
    (∀ (frame : Frame) (state : σ),
      let start := if frame.header.descriptor.hasDictionaryId then
        options.dictionary.elim #[] (Bytes.tail · Format.windowSize) else #[]
      let decoded := frame.decodeAll decompressor options input
      let after := (frame.decode env options input).run state
      ∃ (histories : List Bytes) (made : List Request),
        after.1 = frame.outcomeOf options (decoded.map some) ∧
          log after.2 = log state ++ made ∧
          made.Perm (frame.requests options input histories) ∧
          (frame.InOrder options → made = frame.requests options input histories) ∧
          histories.length = frame.blocks.length ∧
          ∀ k block, frame.blocks[k]? = some block →
            ∃ history, histories[k]? = some history ∧
              decoded[k]? = some (frame.decodePure decompressor options input history block) ∧
              frame.HistoryAt start (decoded.map DecodedBlock.content) k history) ∧
    ((∀ frame, (Id.run (scan (pure false) input)).frame = some frame →
        frame.header.descriptor.hasDictionaryId = false) →
      ∀ (dictionary : Option Bytes) (state state' : σ),
        ((analyze env { options with dictionary } input).run state).1 =
          ((analyze env options input).run state').1) := by
  constructor
  · intro frame state start decoded after
    have hstart : frame.initialHistory options = start := frame.initialHistory_eq options
    obtain ⟨made, hperm, hinOrder, hlogs⟩ := frame.decodeBlocks_logs hrecords htimeout input
    obtain ⟨hblocks, hmade⟩ := hlogs state
    refine ⟨_, made, ?_, ?_, hperm, hinOrder, ?_, fun k block hblock => ?_⟩
    · have hlength : ((frame.decodeBlocks env options input).run state).1.length =
          frame.blocks.length := by
        rw [hblocks, List.length_map, Frame.length_decodeAll]
      rw [Frame.run_decode hlength, hblocks]
    · rw [← hmade]
      simp only [after, Frame.decode_eq_map]
      rfl
    · rw [Decoder.length_histories, List.length_map, Frame.length_decodeAll]
    · have hk : k < (decoded.map DecodedBlock.content).length := by
        rw [List.length_map, Frame.length_decodeAll]
        exact (List.getElem?_eq_some_iff.1 hblock).1
      obtain ⟨history, hhistory, hat⟩ :=
        frame.historyAt_histories (frame.size_initialHistory_le options) hk
      have hzip := congrArg (·[k]?) (Decoder.decodeAll_eq_zipWith
        { env := .ofDecompressor decompressor, options, limits := frame.limits options, input }
        (!frame.header.descriptor.independentBlocks) (frame.initialHistory options) frame.blocks)
      refine ⟨history, hhistory, hzip.trans ?_, hstart ▸ hat⟩
      exact List.getElem?_zipWith_eq_some.2 ⟨history, block, hhistory, hblock, rfl⟩
  · intro hscan dictionary state state'
    have hreport : ∀ options : Options, options.blockTimeout = none → ∀ state : σ,
        ((analyze env options input).run state).1 = report decompressor options input :=
      fun _ htimeout _ => run_analyze_eq_report hrecords.steadyOn htimeout input .intro
    rw [hreport options htimeout, hreport { options with dictionary } htimeout,
      report_dictionary decompressor options dictionary hscan]

end Logs

/-- Surroundings that do nothing but remember what is asked for. -/
def Environment.recording (decompressor : Decompressor) (schedule : Schedule) :
    Environment (StateM (List Request)) where
  decompress body history maxSize := do
    modify (· ++ [⟨body, history, maxSize⟩])
    pure (decompressor body history maxSize)
  now := pure 0
  cancelled := pure false
  schedule

theorem Environment.records_recording (decompressor : Decompressor) (schedule : Schedule) :
    (recording decompressor schedule).Records id decompressor where
  decompress _ _ _ _ := ⟨rfl, rfl⟩
  now _ := rfl
  cancelled _ := ⟨rfl, rfl⟩

/-- A frame of two linked blocks that was made with a dictionary. -/
def FrameLayout.seeded : FrameLayout where
  header :=
    { descriptor := ⟨0x41, 0x60, by decide, by decide⟩
      contentSize := none
      dictionaryId := some 7
      isSome_contentSize := by decide
      isSome_dictionaryId := by decide }
  blocks := [⟨.compressed, #[0x10, 0x78], none, by decide, fun _ => by decide⟩,
    ⟨.compressed, #[0x10, 0x79], none, by decide, fun _ => by decide⟩]
  contentChecksum := none
  isSome_checksum := by simp; rfl
  isSome_contentChecksum := by decide

/-- The second block has the dictionary and the content of the first one behind it. -/
theorem decode_histories_seeded :
    let env := Environment.recording .lz4 .standard
    let frame := FrameLayout.seeded.locate
    let input := FrameLayout.seeded.encode.toArray
    let options : Options := { dictionary := some #[0x7A] }
    ((frame.decode env options input).run []).2 =
      [⟨#[0x10, 0x78], #[0x7A], 0x100000⟩, ⟨#[0x10, 0x79], #[0x7A, 0x78], 0x100000⟩] := by
  intro env frame input options
  have hrecords := Environment.records_recording .lz4 .standard
  have htimeout : options.blockTimeout = none := rfl
  obtain ⟨hdecode, -⟩ := decode_histories hrecords htimeout input
  obtain ⟨histories, made, -, hmade, -, hinOrder, hlength, hblocks⟩ := hdecode frame []
  have hcontent : (frame.decodeAll .lz4 options input).map DecodedBlock.content =
      [some #[0x78], some #[0x79]] := by decide +kernel
  have hlinked : frame.header.descriptor.independentBlocks = false := by decide
  obtain ⟨first, hfirst, -, hat⟩ := hblocks 0 _ rfl
  obtain ⟨second, hsecond, -, hat'⟩ := hblocks 1 _ rfl
  rw [hcontent] at hat hat'
  obtain rfl : first = #[0x7A] := (hat.of_whole hlinked #[] rfl).trans (by decide +kernel)
  obtain rfl : second = #[0x7A, 0x78] :=
    (hat'.of_whole hlinked #[0x78] rfl).trans (by decide +kernel)
  obtain ⟨_, _, rfl⟩ := List.length_eq_two.1 hlength
  cases hfirst
  cases hsecond
  rw [hinOrder (by rw [Frame.InOrder, hlinked, Bool.false_and])] at hmade
  exact hmade.trans (by decide +kernel)

end Lz4Frame
