import Mathlib.Data.List.Basic
import Lz4Frame.Content

/-! The order in which blocks are decoded makes no difference. Where nobody cancels, both ways
through the blocks put together what decoding them front to back gives, `Decoder.decodeAll`:
linked blocks are taken that way anyhow, and independent ones all see the same history, so each
window holds the same blocks whatever order they were taken in. -/

namespace Lz4Frame

/-- Surroundings in which time stands still, nobody cancels and blocks are taken by `schedule`. -/
def Environment.steady (decompressor : Decompressor) (schedule : Schedule) : Environment Id :=
  { Environment.ofDecompressor decompressor with schedule }

namespace Decoder

/-- The blocks decoded front to back. -/
def decodeAll (decoder : Decoder Id) (linked : Bool) (history : Bytes) :
    List Block → List DecodedBlock
  | [] => []
  | block :: blocks =>
    let decoded := Id.run (decoder.decodeBlock history block)
    decoded ::
      decodeAll decoder linked
        (if linked then extendHistory history decoded.content else history) blocks

variable {decoder : Decoder Id}

/-- Blocks that share one history are decoded each for itself. -/
theorem decodeAll_independent (decoder : Decoder Id) (history : Bytes) (blocks : List Block) :
    decodeAll decoder false history blocks =
      blocks.map fun block => Id.run (decoder.decodeBlock history block) := by
  induction blocks with
  | nil => rfl
  | cons block blocks ih =>
    rw [decodeAll, if_neg Bool.false_ne_true, ih]
    rfl

theorem decodeInOrder_eq (hcancelled : decoder.env.cancelled = pure false) (linked : Bool)
    (history : Bytes) (blocks : List Block) (progress : Progress) :
    Id.run (decoder.decodeInOrder linked history blocks progress) =
      ((decoder.decodeAll linked history blocks).map some).foldl Progress.add progress := by
  induction blocks generalizing history progress with
  | nil => rfl
  | cons block blocks ih =>
    simp only [decodeInOrder, hcancelled, Id.run_bind, Id.run_pure, Bool.false_eq_true, if_false,
      ih]
    rfl

/-! ### Windows -/

/-- One turn in a window: the block whose turn it is gets its place. -/
def takeTurn {α : Type} (decode : Block → α) (blocks : Array Block) (places : Array (Option α))
    (turn : ℕ) : Array (Option α) :=
  match blocks[turn]? with
  | none => places
  | some block => places.setIfInBounds turn (some (decode block))

section Turns

variable {α : Type} {decode : Block → α} {blocks : Array Block} {places : Array (Option α)}

theorem size_takeTurn (turn : ℕ) : (takeTurn decode blocks places turn).size = places.size := by
  unfold takeTurn
  split <;> simp

theorem getElem?_takeTurn (hsize : places.size = blocks.size) (turn i : ℕ) :
    (takeTurn decode blocks places turn)[i]? =
      if i = turn then blocks[i]?.map (some ∘ decode) else places[i]? := by
  unfold takeTurn
  split_ifs with hi
  · subst hi
    split
    next hnone =>
      have hle : places.size ≤ i := by
        rw [hsize]
        exact Array.getElem?_eq_none_iff.1 hnone
      rw [hnone, Array.getElem?_eq_none hle]
      rfl
    next block hblock =>
      have hlt := (Array.getElem?_eq_some_iff.1 hblock).1
      rw [hblock, Array.getElem?_setIfInBounds_self_of_lt (by omega)]
      rfl
  · split
    next => rfl
    next => rw [Array.getElem?_setIfInBounds_ne (Ne.symm hi)]

/-- After some turns, exactly the places of the blocks that had theirs are filled. -/
theorem getElem?_foldl_takeTurn (hsize : places.size = blocks.size) (turns : List ℕ) (i : ℕ) :
    (turns.foldl (takeTurn decode blocks) places)[i]? =
      if i ∈ turns then blocks[i]?.map (some ∘ decode) else places[i]? := by
  induction turns generalizing places with
  | nil => rfl
  | cons turn turns ih =>
    rw [List.foldl_cons, ih (by rw [size_takeTurn, hsize]), getElem?_takeTurn hsize]
    by_cases hi : i = turn <;> simp [hi]

/-- Once every block had its turn, all places are filled. -/
theorem foldl_takeTurn_of_perm {turns : List ℕ} (hturns : turns.Perm (List.range blocks.size)) :
    turns.foldl (takeTurn decode blocks) (Array.replicate blocks.size none) =
      blocks.map (some ∘ decode) := by
  apply Array.ext_getElem?
  intro i
  rw [getElem?_foldl_takeTurn Array.size_replicate, Array.getElem?_map]
  split_ifs with hi
  · rfl
  · rw [hturns.mem_iff, List.mem_range, Nat.not_lt] at hi
    rw [Array.getElem?_eq_none (by simpa using hi), Array.getElem?_eq_none hi]
    rfl

end Turns

theorem decodeWindow_eq (hcancelled : decoder.env.cancelled = pure false) (history : Bytes)
    (front : ℕ) (blocks : Array Block) :
    Id.run (decoder.decodeWindow history front blocks) =
      blocks.map (some ∘ fun block => Id.run (decoder.decodeBlock history block)) := by
  rw [← foldl_takeTurn_of_perm (decoder.env.schedule.order_perm front blocks.size), decodeWindow,
    List.idRun_foldlM]
  congr 1
  funext places turn
  unfold takeTurn
  cases blocks[turn]? with
  | none => rfl
  | some block => simp [hcancelled]

theorem decodeByWindow_eq (hcancelled : decoder.env.cancelled = pure false) (history : Bytes)
    (blocks : List Block) (progress : Progress) :
    Id.run (decoder.decodeByWindow history blocks progress) =
      ((decoder.decodeAll false history blocks).map some).foldl Progress.add progress := by
  rw [decodeAll_independent]
  fun_induction decodeByWindow decoder history blocks progress with
  | case1 progress => rfl
  | case2 block blocks progress size ih =>
    rw [Id.run_bind, decodeWindow_eq hcancelled, ih]
    have hwindow : (block :: blocks.take (size - 1)) ++ blocks.drop (size - 1) =
        block :: blocks := by
      rw [List.cons_append, List.take_append_drop]
    rw [← hwindow, List.map_append, List.map_append, List.foldl_append]
    simp

end Decoder

/-- Any way through the blocks of a frame concludes as front to back does. -/
theorem Frame.decode_steady (decompressor : Decompressor) (schedule : Schedule)
    (options : Options) (input : Bytes) (frame : Frame) :
    let decoder : Decoder Id :=
      { env := .steady decompressor schedule, options, limits := frame.limits options, input }
    let decoded := decoder.decodeAll (!frame.header.descriptor.independentBlocks)
      (frame.initialHistory options) frame.blocks
    Id.run (frame.decode (.steady decompressor schedule) options input) =
      frame.conclude options
        ((decoded.map some).foldl Progress.add { assembly := .start options.keepContent }) := by
  intro decoder decoded
  have hcancelled : decoder.env.cancelled = pure false := rfl
  unfold Frame.decode
  by_cases hwindow : (frame.header.descriptor.independentBlocks && options.parallel) = true
  · -- independent blocks are the ones that share a history
    have hlinked : (!frame.header.descriptor.independentBlocks) = false := by
      rw [(Bool.and_eq_true_iff.1 hwindow).1, Bool.not_true]
    simp only [if_pos hwindow, decoded, hlinked, ← Decoder.decodeByWindow_eq hcancelled]
    rfl
  · simp only [if_neg hwindow, decoded, ← Decoder.decodeInOrder_eq hcancelled]
    rfl

end Lz4Frame
