import Lz4Frame.Environment
import Lz4Frame.Frame
import Lz4Frame.Options

/-! The content of a scanned frame, block by block. Every block gets its checksum checked and its
body expanded, also after a block that failed and in a frame that is cut short. The contents of the
blocks are put together in block order: hashed, counted and, if asked for, kept.

Linked blocks are taken in order, because each may refer to the content before it. That history is
cut to the window, and it starts again from nothing behind a block without content. Independent
blocks see only the dictionary, so they may be taken in any order. -/

namespace Lz4Frame

/-- What became of the content of one block. -/
inductive Decompression where
  | notAttempted
  | decompressed (size : Nat)
  | failed (issue : Issue)
  deriving DecidableEq, Repr

structure BlockOutcome where
  checksum : CheckOutcome
  decompression : Decompression
  deriving DecidableEq, Repr

/-- The outcome of a block that a cancellation left out. -/
def BlockOutcome.notAttempted (block : Block) : BlockOutcome where
  checksum := if block.checksum.isSome then .skipped else .absent
  decompression := .notAttempted

structure ContentOutcome where
  /-- One outcome for each block of the frame. -/
  blocks : List BlockOutcome := []
  contentChecksum : CheckOutcome := .absent
  /-- The size of the content, if there is all of it. -/
  size : Option Nat := none
  content : Option Bytes := none
  /-- The first block that was left out, if the analysis was cancelled. -/
  cancelledAt : Option Nat := none
  deriving DecidableEq

/-! ### One block -/

/-- The limits for the content of one block. -/
structure Limits where
  maxBlockSize : Nat
  strictBlockSize : Bool := true
  timeout : Option Nat := none
  deriving DecidableEq, Repr

/-- A result counts only if it was there in time. -/
def Limits.judge (limits : Limits) (elapsed : Nat) (result : Except FailureReason Bytes) :
    Except FailureReason Bytes :=
  match limits.timeout with
  | none => result
  | some limit => if limit < elapsed then .error (.timeout elapsed limit) else result

/-- The content of a block with the given body, behind `history`. -/
def Block.content {m : Type → Type} [Monad m] (env : Environment m) (limits : Limits)
    (block : Block) (body history : Bytes) : m (Except Issue Bytes) :=
  if limits.strictBlockSize && limits.maxBlockSize < block.size then
    pure (.error (.oversizedBlock block.index block.size limits.maxBlockSize))
  else if block.isUncompressed then
    pure (.ok body)
  else do
    let start ← env.now
    let result ← env.decompress body history limits.maxBlockSize
    let stop ← env.now
    pure ((limits.judge (stop - start) result).mapError (.decompressionFailure block.index))

/-- The body of a block, or nothing if the input does not hold all of it. -/
def Block.body (block : Block) (input : Bytes) : Bytes :=
  (input.slice? block.bodyOffset block.size).getD #[]

/-- What the checksum of a block says about its body. -/
def Block.check (verify : Bool) (block : Block) (body : Bytes) : CheckOutcome :=
  match block.checksum with
  | none => .absent
  | some stored => if verify then .checked (.ofData body.toList stored) else .skipped

/-- A block outcome with the content it is about. -/
structure DecodedBlock where
  outcome : BlockOutcome
  content : Option Bytes

namespace DecodedBlock

def ofContent (checksum : CheckOutcome) : Except Issue Bytes → DecodedBlock
  | .ok content => ⟨⟨checksum, .decompressed content.size⟩, some content⟩
  | .error issue => ⟨⟨checksum, .failed issue⟩, none⟩

end DecodedBlock

/-- The frame-wide settings under which blocks are decoded. -/
structure Decoder (m : Type → Type) where
  env : Environment m
  options : Options
  limits : Limits
  input : Bytes

namespace Decoder

variable {m : Type → Type} [Monad m]

/-- One block behind `history`. -/
def decodeBlock (decoder : Decoder m) (history : Bytes) (block : Block) : m DecodedBlock := do
  let body := block.body decoder.input
  let checksum := block.check decoder.options.verifyChecksums body
  if decoder.options.decompress then
    DecodedBlock.ofContent checksum <$> block.content decoder.env decoder.limits body history
  else
    pure ⟨⟨checksum, .notAttempted⟩, none⟩

end Decoder

/-! ### Putting the content together -/

/-- The content of the blocks so far. -/
structure Assembly where
  hasher : XxHash32.Hasher := {}
  /-- The content itself, if it is wanted and complete. -/
  kept : Option Bytes
  /-- Every block so far had content. -/
  complete : Bool := true

namespace Assembly

def start (keep : Bool) : Assembly where
  kept := if keep then some #[] else none

/-- The content of one more block. Behind a block without any, nothing is added any more. -/
def add (assembly : Assembly) : Option Bytes → Assembly
  | some content =>
    if assembly.complete then
      { assembly with
        hasher := assembly.hasher.update content.toList
        kept := assembly.kept.map (· ++ content) }
    else
      assembly
  | none => { assembly with kept := none, complete := false }

end Assembly

/-- The blocks decoded so far. A block that a cancellation left out has no outcome. -/
structure Progress where
  assembly : Assembly
  outcomes : Array (Option BlockOutcome) := #[]

def Progress.add (progress : Progress) : Option DecodedBlock → Progress
  | some decoded =>
    ⟨progress.assembly.add decoded.content, progress.outcomes.push (some decoded.outcome)⟩
  | none => { progress with outcomes := progress.outcomes.push none }

/-! ### All blocks -/

namespace Decoder

variable {m : Type → Type} [Monad m]

/-- The history for the block behind one with `content`. -/
def extendHistory (history : Bytes) : Option Bytes → Bytes
  | some content => (history ++ content).tail Format.windowSize
  | none => #[]

/-- The blocks one after the other, until a cancellation. -/
def decodeInOrder (decoder : Decoder m) (linked : Bool) (history : Bytes) :
    List Block → Progress → m Progress
  | [], progress => pure progress
  | block :: blocks, progress => do
    if ← decoder.env.cancelled then
      pure progress
    else
      let decoded ← decoder.decodeBlock history block
      decodeInOrder decoder linked
        (if linked then extendHistory history decoded.content else history) blocks
        (progress.add (some decoded))

/-- The blocks of one window behind `front` others, each in the place it has there. -/
def decodeWindow (decoder : Decoder m) (history : Bytes) (front : Nat) (blocks : Array Block) :
    m (Array (Option DecodedBlock)) :=
  (decoder.env.schedule.order front blocks.size).foldlM
    (fun places i => do
      match blocks[i]? with
      | none => pure places
      | some block =>
        if ← decoder.env.cancelled then
          pure places
        else
          let decoded ← decoder.decodeBlock history block
          pure (places.setIfInBounds i (some decoded)))
    (Array.replicate blocks.size none)

/-- The blocks window by window. All of them see the same history. -/
def decodeByWindow (decoder : Decoder m) (history : Bytes) :
    List Block → Progress → m Progress
  | [], progress => pure progress
  | block :: blocks, progress => do
    let size := decoder.env.schedule.window
    let places ← decoder.decodeWindow history progress.outcomes.size
      (block :: blocks.take (size - 1)).toArray
    decodeByWindow decoder history (blocks.drop (size - 1)) (places.foldl Progress.add progress)
termination_by blocks => blocks.length
decreasing_by simp only [List.length_drop, List.length_cons]; omega

end Decoder

namespace Frame

/-- The limits for the blocks of a frame. -/
def limits (frame : Frame) (options : Options) : Limits where
  maxBlockSize := frame.header.maxBlockSize
  strictBlockSize := options.strictBlockSize
  timeout := options.blockTimeout

/-- What comes before the first block: the part of the dictionary that a match can reach, in frames
that were made with one. -/
def initialHistory (frame : Frame) (options : Options) : Bytes :=
  if frame.header.descriptor.hasDictionaryId then
    (options.dictionary.getD #[]).tail Format.windowSize
  else
    #[]

/-- The outcome for a frame whose blocks were decoded as far as `progress` says. There is a content
only if the frame is complete and each of its blocks has some. -/
def conclude (frame : Frame) (options : Options) (progress : Progress) : ContentOutcome :=
  let outcomes := progress.outcomes.toList ++
    List.replicate (frame.blocks.length - progress.outcomes.size) none
  let cancelledAt := outcomes.findIdx? Option.isNone
  let complete := frame.isComplete && cancelledAt.isNone && progress.assembly.complete
  { blocks :=
      frame.blocks.zipWith (fun block outcome => outcome.getD (.notAttempted block)) outcomes
    contentChecksum :=
      if frame.header.descriptor.hasContentChecksum then
        match frame.contentChecksum with
        | some stored =>
          if complete && options.verifyChecksums then
            .checked (.ofHasher progress.assembly.hasher stored)
          else
            .skipped
        | none => .skipped
      else
        .absent
    size := if complete then some progress.assembly.hasher.length else none
    content := if complete then progress.assembly.kept else none
    cancelledAt }

/-- The content of a frame found in `input`. -/
def decode {m : Type → Type} [Monad m] (env : Environment m) (options : Options) (input : Bytes)
    (frame : Frame) : m ContentOutcome := do
  let decoder : Decoder m := { env, options, limits := frame.limits options, input }
  let history := frame.initialHistory options
  let start : Progress := { assembly := .start options.keepContent }
  let independent := frame.header.descriptor.independentBlocks
  let progress ←
    if independent && options.parallel then
      decoder.decodeByWindow history frame.blocks start
    else
      decoder.decodeInOrder (!independent) history frame.blocks start
  pure (frame.conclude options progress)

end Frame

end Lz4Frame
