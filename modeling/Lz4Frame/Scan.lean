import Lz4Frame.Block.Scanner
import Lz4Frame.Frame

/-! The structural scan of an input in memory: a header and then block after block until the end
mark, the first error or a cancellation. Each block that is found takes at least a size word from
the input, so the scan ends. -/

namespace Lz4Frame

namespace Scanner

open Reading in
/-- A block that is read has the number and the place that were asked for, and its size word lies in
the input. -/
theorem exists_of_readBlock {descriptor : Descriptor} {inputSize index offset : Nat}
    {source source' : Source} {block : Block}
    (h : readBlock descriptor inputSize index offset source = .ok (some block) source') :
    offset + Format.wordSize ≤ inputSize ∧
      ∃ word checksum,
        block =
          { index, offset, size := Block.sizeOfWord word, kind := Block.kindOfWord word,
            bodyOffset := offset + Format.wordSize, checksum } := by
  unfold readBlock at h
  split at h
  · exact absurd h throw_ne_ok
  next hsize =>
    refine ⟨Nat.not_lt.1 hsize, ?_⟩
    obtain ⟨word, _, _, h⟩ := bind_eq_ok.1 h
    split at h
    · cases (pure_eq_ok.1 h).1
    · dsimp only at h
      split at h
      · exact absurd h throw_ne_ok
      · obtain ⟨_, _, _, h⟩ := bind_eq_ok.1 h
        obtain ⟨checksum, _, _, h⟩ := bind_eq_ok.1 h
        exact ⟨word, checksum, (Option.some.inj (pure_eq_ok.1 h).1).symm⟩

/-- A step that finds a block counts it and goes on behind it. -/
theorem exists_of_next {scanner scanner' : Scanner} {block : Block}
    (h : scanner.next = (some (.ok block), scanner')) :
    ∃ source,
      readBlock scanner.descriptor scanner.inputSize scanner.found scanner.offset scanner.source =
        .ok (some block) source ∧
      scanner' =
        { scanner with source, offset := block.endOffset, found := scanner.found + 1 } := by
  unfold next at h
  split at h
  · split at h
    · cases h
    next hread =>
      cases h
      exact ⟨_, hread, rfl⟩
    · cases h
  · cases h

/-- What is left of the input. -/
def remaining (scanner : Scanner) : Nat := scanner.inputSize - scanner.offset

theorem remaining_of_next {scanner scanner' : Scanner} {block : Block}
    (h : scanner.next = (some (.ok block), scanner')) : scanner'.remaining < scanner.remaining := by
  obtain ⟨_, hread, rfl⟩ := exists_of_next h
  obtain ⟨hsize, _, _, rfl⟩ := exists_of_readBlock hread
  simp only [remaining, Block.endOffset, Block.bodyEnd, Format.wordSize] at *
  omega

/-- How a walk over the blocks ended. -/
inductive Ending where
  | finished
  | stopped (error : ScanError)
  | cancelled
  deriving DecidableEq, Repr

/-- The blocks from here on behind the ones in `found`, with the scanner after them. Before each
block, cancellation is asked for. -/
def walk {m : Type → Type} [Monad m] (cancelled : m Bool) (scanner : Scanner)
    (found : Array Block) : m (Array Block × Scanner × Ending) := do
  if ← cancelled then
    pure (found, scanner, .cancelled)
  else
    match _h : scanner.next with
    | (none, scanner) => pure (found, scanner, .finished)
    | (some (.error error), scanner) => pure (found, scanner, .stopped error)
    | (some (.ok block), scanner) => walk cancelled scanner (found.push block)
termination_by scanner.remaining
decreasing_by exact remaining_of_next _h

/-- All blocks from here on, or the first error. -/
def collect (scanner : Scanner) : Except ScanError (List Block) × Scanner :=
  match Id.run (walk (pure false) scanner #[]) with
  | (_, scanner, .stopped error) => (.error error, scanner)
  | (found, scanner, _) => (.ok found.toList, scanner)

end Scanner

/-- The frame of `header` with what a walk over its blocks found. -/
def Header.conclude (header : Header) (found : List Block) (scanner : Scanner) :
    Scanner.Ending → ScanOutcome
  | .cancelled => { frame := some { header, blocks := found }, cancelledAt := some scanner.found }
  | .stopped error => { frame := some { header, blocks := found }, fatal := some (.scan error) }
  | .finished =>
    match scanner.readContentChecksum with
    | (.error error, _) =>
      { frame := some { header, blocks := found }, fatal := some (.scan error) }
    | (.ok contentChecksum, scanner) =>
      { frame := some
          { header, blocks := found, contentChecksum, endOffset := some scanner.offset } }

/-- The frame at the start of `input`, as far as it can be found. -/
def scan {m : Type → Type} [Monad m] (cancelled : m Bool) (input : Bytes) : m ScanOutcome :=
  match Header.read { data := input } with
  | .error error _ => pure { fatal := some (.header error) }
  | .ok header source =>
    match Scanner.start source header.descriptor with
    | .error error => pure { frame := some { header }, fatal := some (.scan error) }
    | .ok scanner => do
      let (found, scanner, ending) ← scanner.walk cancelled #[]
      pure (header.conclude found.toList scanner ending)

end Lz4Frame
