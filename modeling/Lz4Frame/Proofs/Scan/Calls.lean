import Lz4Frame.Proofs.Scan
import Lz4Frame.Proofs.Source.Readable

/-! The scanner on its own, called in any order. Whoever walks over the blocks of a frame asks for
the next one or for the content checksum, and both answers depend on where the source is. On an
honest source the scanner keeps in step with it: each call keeps `Scanner.Invariant`, so a whole run
of them does, and what a caller can rely on follows from it, `Scanner.run_of_honest`. -/

namespace Lz4Frame

namespace Scanner

/-! ### Blocks of honest sources -/

theorem readWord_of_honest {source : Source} (hsource : source.Honest) (offset : ℕ)
    (h : source.position + Format.wordSize ≤ source.data.size) :
    ∃ word moved, readWord offset source = .ok word moved ∧
      source.MovedTo (source.position + Format.wordSize) moved := by
  obtain ⟨moved, hread, hmoved⟩ := hsource.readExact_eq h
  let bytes := (source.data.toList.drop source.position).take Format.wordSize
  refine ⟨UInt32.ofNat (Word.value bytes), moved, ?_, hmoved⟩
  exact Reading.map_eq_ok.2 ⟨_, Reading.adaptExcept_eq_ok.2 hread, rfl⟩

theorem readBlockChecksum_of_honest {source : Source} (hsource : source.Honest)
    (descriptor : Descriptor) (index : ℕ) (h : source.position ≤ source.data.size) :
    (∃ error moved, readBlockChecksum descriptor source.data.size index source.position source =
        .error error moved) ∨
      ∃ checksum moved, readBlockChecksum descriptor source.data.size index source.position source =
          .ok checksum moved ∧
        source.MovedTo (source.position + if checksum.isSome then 4 else 0) moved ∧
        (source.position + if checksum.isSome then 4 else 0) ≤ source.data.size := by
  unfold readBlockChecksum
  split_ifs with hannounced hsize
  · exact .inl ⟨_, _, rfl⟩
  · obtain ⟨word, moved, hword, hmoved⟩ :=
      readWord_of_honest hsource source.position (Nat.not_lt.1 hsize)
    exact .inr ⟨some word, moved, Reading.map_eq_ok.2 ⟨word, hword, rfl⟩, hmoved,
      Nat.not_lt.1 hsize⟩
  · exact .inr ⟨none, source, rfl, .refl source, h⟩

/-- Whatever the size word says: either there is an error, or the source is where the next field
starts. -/
theorem readBlock_of_honest {source : Source} (hsource : source.Honest) (descriptor : Descriptor)
    (index : ℕ) :
    (∃ error moved, readBlock descriptor source.data.size index source.position source =
        .error error moved) ∨
      (∃ moved, readBlock descriptor source.data.size index source.position source =
          .ok none moved ∧
        source.MovedTo (source.position + Format.wordSize) moved) ∨
      ∃ block moved, readBlock descriptor source.data.size index source.position source =
          .ok (some block) moved ∧
        source.MovedTo block.endOffset moved ∧ block.index = index ∧
        block.offset = source.position ∧ block.bodyOffset = source.position + Format.wordSize ∧
        block.endOffset ≤ source.data.size := by
  unfold readBlock
  split_ifs with hsize
  · exact .inl ⟨_, _, rfl⟩
  obtain ⟨word, next, hword, hnext⟩ :=
    readWord_of_honest hsource source.position (Nat.not_lt.1 hsize)
  rw [Reading.bind_of_ok hword]
  split_ifs with hzero
  · exact .inr (.inl ⟨next, rfl, hnext⟩)
  dsimp only
  split_ifs with hbody
  · exact .inl ⟨_, _, rfl⟩
  obtain ⟨sought, hsought, hmoved⟩ := (hsource.of_movedTo hnext).seek_eq fun _ =>
    source.position + Format.wordSize + Block.sizeOfWord word
  have hmoved := hnext.trans hmoved
  rw [Source.seekTo, Reading.bind_of_ok (Reading.adaptExcept_eq_ok.2 hsought)]
  have hchecksum := readBlockChecksum_of_honest (hsource.of_movedTo hmoved) descriptor index
    (by rw [hmoved.position, hmoved.data]; exact Nat.not_lt.1 hbody)
  rw [hmoved.position, hmoved.data] at hchecksum
  obtain ⟨error, last, hread⟩ | ⟨checksum, last, hread, hlast, hend⟩ := hchecksum
  · exact .inl ⟨error, last, Reading.bind_of_error hread⟩
  · rw [Reading.bind_of_ok hread]
    exact .inr (.inr ⟨_, last, rfl, hmoved.trans hlast, rfl, rfl, rfl, hend⟩)

/-! ### Calls -/

/-- What a scanner can be asked for. -/
inductive Call where
  | next
  | contentChecksum
  deriving DecidableEq, Repr

/-- What a scanner answers. -/
inductive Answer where
  | next (item : Option (Except ScanError Block))
  | contentChecksum (checksum : Except ScanError (Option UInt32))

namespace Answer

def block? : Answer → Option Block
  | .next (some (.ok block)) => some block
  | _ => none

/-- What there is in place of the next block, if that was asked for. -/
def item? : Answer → Option (Option (Except ScanError Block))
  | .next item => some item
  | .contentChecksum _ => none

/-- There is an error in place of the next block. -/
def isNextError : Answer → Bool
  | .next (some (.error _)) => true
  | _ => false

def isError : Answer → Bool
  | .next (some (.error _)) | .contentChecksum (.error _) => true
  | _ => false

/-- There is no next block, or an error in its place. -/
def isLast : Answer → Bool
  | .next none | .next (some (.error _)) => true
  | _ => false

def isChecksum : Answer → Bool
  | .contentChecksum (.ok (some _)) => true
  | _ => false

end Answer

def call (scanner : Scanner) : Call → Answer × Scanner
  | .next => (.next scanner.next.1, scanner.next.2)
  | .contentChecksum =>
    (.contentChecksum scanner.readContentChecksum.1, scanner.readContentChecksum.2)

/-- The answers to some calls, one after the other, and the scanner after them. -/
def run (scanner : Scanner) : List Call → List Answer × Scanner
  | [] => ([], scanner)
  | call :: calls =>
    let (answer, scanner) := scanner.call call
    let (answers, scanner) := run scanner calls
    (answer :: answers, scanner)

theorem next_eq_error {scanner scanner' : Scanner} {error : ScanError}
    (h : scanner.next = (some (.error error), scanner')) :
    scanner'.offset = scanner.offset ∧ scanner'.found = scanner.found := by
  unfold next at h
  split at h
  · split at h
    · cases h
    · cases h
    · cases h
      exact ⟨rfl, rfl⟩
  · cases h

theorem readContentChecksum_eq_error {scanner scanner' : Scanner} {error : ScanError}
    (h : scanner.readContentChecksum = (.error error, scanner')) :
    scanner'.offset = scanner.offset ∧ scanner'.found = scanner.found := by
  unfold readContentChecksum at h
  split at h
  · split at h
    · cases h
      exact ⟨rfl, rfl⟩
    · split at h
      · cases h
        exact ⟨rfl, rfl⟩
      · cases h
  · cases h

/-- An error leaves the offset and the count of blocks alone. -/
theorem call_of_isError {scanner : Scanner} {call : Call}
    (h : (scanner.call call).1.isError = true) :
    (scanner.call call).2.offset = scanner.offset ∧ (scanner.call call).2.found = scanner.found := by
  cases call with
  | next =>
    rcases hnext : scanner.next with ⟨_ | error | block, scanner'⟩
    · simp [Scanner.call, hnext, Answer.isError] at h
    · simpa [Scanner.call, hnext] using next_eq_error hnext
    · simp [Scanner.call, hnext, Answer.isError] at h
  | contentChecksum =>
    rcases hread : scanner.readContentChecksum with ⟨error | checksum, scanner'⟩
    · simpa [Scanner.call, hread] using readContentChecksum_eq_error hread
    · simp [Scanner.call, hread, Answer.isError] at h

/-- Before the end mark there is no content checksum to be read. -/
theorem readContentChecksum_of_endMark?_eq_none {scanner : Scanner}
    (h : scanner.endMark? = none) : scanner.readContentChecksum = (.ok none, scanner) := by
  rw [readContentChecksum, h, Option.isSome_none, Bool.and_false, if_neg Bool.false_ne_true]

theorem next_of_ne_scanning {scanner : Scanner} (h : scanner.state ≠ .scanning) :
    scanner.next = (none, scanner) := by
  unfold next
  split
  next hscanning => exact absurd hscanning h
  next => rfl

/-! ### What calls keep -/

/-- The blocks among some answers. -/
def blocksOf (answers : List Answer) : List Block := answers.filterMap Answer.block?

theorem blocksOf_append (answers : List Answer) (answer : Answer) :
    blocksOf (answers ++ [answer]) = blocksOf answers ++ answer.block?.toList := by
  rw [blocksOf, List.filterMap_append, List.filterMap_cons]
  cases answer.block? <;> rfl

/-- The blocks lie one behind the other from `start` to `stop`. -/
def Chained (start stop : ℕ) : List Block → Prop
  | [] => start = stop
  | block :: blocks => block.offset = start ∧ Chained block.endOffset stop blocks

theorem Chained.append {start : ℕ} {blocks : List Block} {block : Block}
    (h : Chained start block.offset blocks) :
    Chained start block.endOffset (blocks ++ [block]) := by
  induction blocks generalizing start with
  | nil => exact ⟨h.symm, rfl⟩
  | cons first blocks ih => exact ⟨h.1, ih h.2⟩

/-- The blocks of an input of `size` bytes, numbered one by one, from `start` to `stop`. -/
structure Found (start stop size : ℕ) (blocks : List Block) : Prop where
  indices : blocks.map Block.index = List.range blocks.length
  chained : Chained start stop blocks
  placed : ∀ block ∈ blocks,
    block.bodyOffset = block.offset + Format.wordSize ∧ block.endOffset ≤ size

theorem Found.append {start size : ℕ} {blocks : List Block} {block : Block}
    (h : Found start block.offset size blocks) (hindex : block.index = blocks.length)
    (hbody : block.bodyOffset = block.offset + Format.wordSize) (hend : block.endOffset ≤ size) :
    Found start block.endOffset size (blocks ++ [block]) where
  indices := by simp [h.indices, hindex, List.range_succ]
  chained := h.chained.append
  placed := by
    intro block' hmem
    rcases List.mem_append.1 hmem with hmem | hmem
    · exact h.placed block' hmem
    · rw [List.mem_singleton.1 hmem]
      exact ⟨hbody, hend⟩

/-- What holds of a scanner that was started on `source` and has given `answers`. -/
structure Invariant (source : Source) (answers : List Answer) (scanner : Scanner) : Prop where
  inputSize : scanner.inputSize = source.data.size
  found : scanner.found = (blocksOf answers).length
  blocks : Found source.position (scanner.endMark?.getD scanner.offset) source.data.size
    (blocksOf answers)
  moved : scanner.state ≠ .failed → source.MovedTo scanner.offset scanner.source
  beforeEndMark : scanner.endMark? = none → answers.countP Answer.isChecksum = 0
  afterEndMark : ∀ endMark, scanner.endMark? = some endMark →
    scanner.offset =
      endMark + Format.wordSize + Format.wordSize * answers.countP Answer.isChecksum
  errors : answers.countP Answer.isNextError = if scanner.state = .failed then 1 else 0
  notLast : scanner.state = .scanning → ∀ answer ∈ answers, answer.isLast = false
  silent : answers.Pairwise fun earlier later =>
    earlier.isLast = true → ∀ item, later.item? = some item → item = none

/-- Starting takes three seeks, which leave a source where it is. -/
theorem start_of_readable {source : Source} (hsource : source.Readable)
    (descriptor : Descriptor) :
    ∃ moved, source.MovedTo source.position moved ∧
      start source descriptor = .ok
        { source := moved, descriptor, offset := source.position, inputSize := source.data.size } := by
  obtain ⟨told, htold, hmoved⟩ := hsource.seek_eq Source.position
  have hreadable := hsource.of_movedTo hmoved
  obtain ⟨ended, hended, hmoved'⟩ := hreadable.seek_eq Source.size
  obtain ⟨back, hback, hmoved''⟩ := (hreadable.of_movedTo hmoved').seek_eq fun _ => source.position
  have hsize : told.size = source.data.size := by
    rw [Source.size, hreadable.claimedSize, Option.getD_none, hmoved.data]
  have hsized : (do
      let size ← Source.seekToEnd
      let _ ← Source.seekTo source.position
      pure size : Reading IoError ℕ) told = .ok source.data.size back := by
    rw [Source.seekToEnd, Reading.bind_of_ok hended, Source.seekTo, Reading.bind_of_ok hback, hsize]
    rfl
  refine ⟨back, (hmoved.trans hmoved').trans hmoved'', ?_⟩
  simp only [start, Source.tell, htold, hsized]

/-- A scanner that was just started. -/
theorem start_of_honest {source : Source} (hsource : source.Honest) (descriptor : Descriptor) :
    ∃ scanner, start source descriptor = .ok scanner ∧ Invariant source [] scanner := by
  obtain ⟨moved, hmoved, hstart⟩ := start_of_readable hsource.readable descriptor
  refine ⟨_, hstart, ?_⟩
  exact
    { inputSize := rfl
      found := rfl
      blocks := ⟨rfl, rfl, fun _ h => absurd h List.not_mem_nil⟩
      moved := fun _ => hmoved
      beforeEndMark := fun _ => rfl
      afterEndMark := nofun
      errors := rfl
      notLast := fun _ _ h => absurd h List.not_mem_nil
      silent := .nil }

/-! ### Steps -/

section Steps

variable {source : Source} {answers : List Answer} {scanner : Scanner}

/-- Nothing is added behind an answer that was the last one. -/
theorem Invariant.silent_append (h : Invariant source answers scanner) {answer : Answer}
    (hanswer : scanner.state ≠ .scanning → ∀ item, answer.item? = some item → item = none) :
    (answers ++ [answer]).Pairwise fun earlier later =>
      earlier.isLast = true → ∀ item, later.item? = some item → item = none := by
  refine List.pairwise_append.2 ⟨h.silent, List.pairwise_singleton _ _, ?_⟩
  intro earlier hearlier later hlater hlast
  rw [List.mem_singleton.1 hlater]
  refine hanswer fun hscanning => ?_
  rw [h.notLast hscanning earlier hearlier] at hlast
  cases hlast

/-- An answer that tells of nothing new. -/
theorem Invariant.append_same (h : Invariant source answers scanner) {answer : Answer}
    (hblock : answer.block? = none) (hchecksum : answer.isChecksum = false)
    (herror : answer.isNextError = false)
    (hlast : scanner.state = .scanning → answer.isLast = false)
    (hitem : scanner.state ≠ .scanning → ∀ item, answer.item? = some item → item = none) :
    Invariant source (answers ++ [answer]) scanner :=
  { h with
    found := by simpa [blocksOf_append, hblock] using h.found
    blocks := by simpa [blocksOf_append, hblock] using h.blocks
    beforeEndMark := by simpa [hchecksum] using h.beforeEndMark
    afterEndMark := by simpa [hchecksum] using h.afterEndMark
    errors := by simpa [herror] using h.errors
    notLast := fun hscanning answer' hmem => by
      rcases List.mem_append.1 hmem with hmem | hmem
      · exact h.notLast hscanning answer' hmem
      · rw [List.mem_singleton.1 hmem]
        exact hlast hscanning
    silent := h.silent_append hitem }

theorem endMark?_of_scanning (h : scanner.state = .scanning) : scanner.endMark? = none := by
  rw [endMark?, h]

theorem Invariant.append_error (h : Invariant source answers scanner)
    (hscanning : scanner.state = .scanning) (error : ScanError) (moved : Source) :
    Invariant source (answers ++ [.next (some (.error error))])
      { scanner with source := moved, state := .failed } := by
  have hnone := endMark?_of_scanning hscanning
  have hblocks := h.blocks
  have herrors := h.errors
  rw [hnone] at hblocks
  rw [hscanning, if_neg nofun] at herrors
  exact
    { inputSize := h.inputSize
      found := by simpa [blocksOf_append, Answer.block?] using h.found
      blocks := by simpa [blocksOf_append, Answer.block?, endMark?] using hblocks
      moved := fun hne => absurd rfl hne
      beforeEndMark := fun _ => by simpa [Answer.isChecksum] using h.beforeEndMark hnone
      afterEndMark := nofun
      errors := by simp [Answer.isNextError, herrors]
      notLast := nofun
      silent := h.silent_append fun hne => absurd hscanning hne }

theorem Invariant.append_endMark (h : Invariant source answers scanner)
    (hscanning : scanner.state = .scanning) {moved : Source}
    (hmoved : source.MovedTo (scanner.offset + Format.wordSize) moved) :
    Invariant source (answers ++ [.next none])
      { scanner with
        source := moved
        offset := scanner.offset + Format.wordSize
        state := .ended scanner.offset } := by
  have hnone := endMark?_of_scanning hscanning
  have hblocks := h.blocks
  have herrors := h.errors
  rw [hnone] at hblocks
  rw [hscanning, if_neg nofun] at herrors
  exact
    { inputSize := h.inputSize
      found := by simpa [blocksOf_append, Answer.block?] using h.found
      blocks := by simpa [blocksOf_append, Answer.block?, endMark?] using hblocks
      moved := fun _ => hmoved
      beforeEndMark := nofun
      afterEndMark := by
        rintro _ ⟨⟩
        simp [Answer.isChecksum, h.beforeEndMark hnone]
      errors := by simp [Answer.isNextError, herrors]
      notLast := nofun
      silent := h.silent_append fun hne => absurd hscanning hne }

theorem Invariant.append_block (h : Invariant source answers scanner)
    (hscanning : scanner.state = .scanning) {block : Block} {moved : Source}
    (hmoved : source.MovedTo block.endOffset moved) (hindex : block.index = scanner.found)
    (hoffset : block.offset = scanner.offset)
    (hbody : block.bodyOffset = scanner.offset + Format.wordSize)
    (hend : block.endOffset ≤ source.data.size) :
    Invariant source (answers ++ [.next (some (.ok block))])
      { scanner with source := moved, offset := block.endOffset, found := scanner.found + 1 } := by
  have hnone := endMark?_of_scanning hscanning
  have hblocks := h.blocks
  rw [hnone, Option.getD_none, ← hoffset] at hblocks
  have happend := hblocks.append (by rw [hindex, h.found]) (by rw [hbody, hoffset]) hend
  exact
    { inputSize := h.inputSize
      found := by simp [blocksOf_append, Answer.block?, h.found]
      blocks := by simpa [blocksOf_append, Answer.block?, endMark?, hscanning] using happend
      moved := fun _ => hmoved
      beforeEndMark := fun _ => by simpa [Answer.isChecksum] using h.beforeEndMark hnone
      afterEndMark := fun endMark hendMark => by simp [endMark?, hscanning] at hendMark
      errors := by simpa [Answer.isNextError] using h.errors
      notLast := fun _ answer hmem => by
        rcases List.mem_append.1 hmem with hmem | hmem
        · exact h.notLast hscanning answer hmem
        · rw [List.mem_singleton.1 hmem]
          rfl
      silent := h.silent_append fun hne => absurd hscanning hne }

/-- A call of `next`. -/
theorem Invariant.next (hsource : source.Honest) (h : Invariant source answers scanner) :
    Invariant source (answers ++ [.next scanner.next.1]) scanner.next.2 := by
  by_cases hscanning : scanner.state = .scanning
  · have hmoved := h.moved (by rw [hscanning]; nofun)
    have hread := readBlock_of_honest (hsource.of_movedTo hmoved) scanner.descriptor scanner.found
    rw [hmoved.position, hmoved.data, ← h.inputSize] at hread
    obtain ⟨error, moved, hread⟩ | ⟨moved, hread, hmoved'⟩ |
      ⟨block, moved, hread, hmoved', hindex, hoffset, hbody, hend⟩ := hread
    · have hnext : scanner.next =
          (some (.error error), { scanner with source := moved, state := .failed }) := by
        simp only [Scanner.next, hscanning, hread]
      rw [hnext]
      exact h.append_error hscanning error moved
    · have hnext : scanner.next = (none, { scanner with
          source := moved
          offset := scanner.offset + Format.wordSize
          state := .ended scanner.offset }) := by
        simp only [Scanner.next, hscanning, hread]
      rw [hnext]
      exact h.append_endMark hscanning (hmoved.trans hmoved')
    · have hnext : scanner.next = (some (.ok block), { scanner with
          source := moved, offset := block.endOffset, found := scanner.found + 1 }) := by
        simp only [Scanner.next, hscanning, hread]
      rw [hnext]
      exact h.append_block hscanning (hmoved.trans hmoved') hindex hoffset hbody
        (h.inputSize ▸ hend)
  · -- the scan has ended, so nothing moves
    rw [next_of_ne_scanning hscanning]
    refine h.append_same rfl rfl rfl (fun hscanning' => absurd hscanning' hscanning) ?_
    rintro _ _ ⟨⟩
    rfl

/-- A call of `readContentChecksum`. -/
theorem Invariant.readContentChecksum (hsource : source.Honest)
    (h : Invariant source answers scanner) :
    Invariant source (answers ++ [.contentChecksum scanner.readContentChecksum.1])
      scanner.readContentChecksum.2 := by
  unfold Scanner.readContentChecksum
  split_ifs with hannounced hsize
  · exact h.append_same rfl rfl rfl (fun _ => rfl) (by simp [Answer.item?])
  · obtain ⟨-, hended⟩ := Bool.and_eq_true_iff.1 hannounced
    obtain ⟨endMark, hendMark⟩ := Option.isSome_iff_exists.1 hended
    have hstate : scanner.state = .ended endMark := by
      unfold endMark? at hendMark
      split at hendMark <;> simp_all
    have hmoved := h.moved (by rw [hstate]; nofun)
    obtain ⟨word, moved, hword, hmoved'⟩ :=
      readWord_of_honest (hsource.of_movedTo hmoved) scanner.offset
        (by rw [hmoved.position, hmoved.data, ← h.inputSize]; exact Nat.not_lt.1 hsize)
    rw [hmoved.position] at hmoved'
    have hblocks := h.blocks
    rw [hendMark, Option.getD_some] at hblocks
    simp only [hword]
    exact
      { h with
        found := by simpa [blocksOf_append, Answer.block?] using h.found
        blocks := by simpa [blocksOf_append, Answer.block?, endMark?, hstate] using hblocks
        moved := fun _ => hmoved.trans hmoved'
        beforeEndMark := fun hnone => by simp [endMark?, hstate] at hnone
        afterEndMark := fun endMark' hendMark' => by
          simp only [List.countP_append, List.countP_singleton, Answer.isChecksum]
          rw [h.afterEndMark endMark' hendMark']
          rfl
        errors := by simpa [Answer.isNextError] using h.errors
        notLast := fun hscanning => by simp [hstate] at hscanning
        silent := h.silent_append (by simp [Answer.item?]) }
  · exact h.append_same rfl rfl rfl (fun _ => rfl) (by simp [Answer.item?])

theorem Invariant.call (hsource : source.Honest) (h : Invariant source answers scanner)
    (call : Call) :
    Invariant source (answers ++ [(scanner.call call).1]) (scanner.call call).2 := by
  cases call with
  | next => exact h.next hsource
  | contentChecksum => exact h.readContentChecksum hsource

/-- A run of calls. -/
theorem Invariant.run (hsource : source.Honest) (h : Invariant source answers scanner)
    (calls : List Call) :
    Invariant source (answers ++ (scanner.run calls).1) (scanner.run calls).2 := by
  induction calls generalizing answers scanner with
  | nil => simpa [Scanner.run] using h
  | cons call calls ih =>
    have hrest := ih (h.call hsource call)
    rw [List.append_assoc] at hrest
    exact hrest

end Steps

/-! ### Calls that make no difference -/

/-- The two scanners go on alike: they are the same, or both are behind the end mark. -/
def Alike (scanner scanner' : Scanner) : Prop :=
  scanner = scanner' ∨ scanner.endMark?.isSome = true ∧ scanner'.endMark?.isSome = true

theorem next_of_endMark?_isSome {scanner : Scanner} (h : scanner.endMark?.isSome = true) :
    scanner.next = (none, scanner) := by
  refine next_of_ne_scanning fun hscanning => ?_
  rw [endMark?_of_scanning hscanning] at h
  cases h

theorem Alike.next {scanner scanner' : Scanner} (h : Alike scanner scanner') :
    scanner.next.1 = scanner'.next.1 ∧ Alike scanner.next.2 scanner'.next.2 := by
  rcases h with rfl | ⟨hended, hended'⟩
  · exact ⟨rfl, .inl rfl⟩
  · rw [next_of_endMark?_isSome hended, next_of_endMark?_isSome hended']
    exact ⟨rfl, .inr ⟨hended, hended'⟩⟩

theorem endMark?_readContentChecksum (scanner : Scanner) :
    scanner.readContentChecksum.2.endMark? = scanner.endMark? := by
  unfold readContentChecksum
  split_ifs
  · rfl
  · split <;> rfl
  · rfl

theorem Alike.readContentChecksum {scanner scanner' : Scanner} (h : Alike scanner scanner') :
    Alike scanner.readContentChecksum.2 scanner' := by
  rcases h with rfl | ⟨hended, hended'⟩
  · rcases hnone : scanner.endMark? with _ | endMark
    · rw [readContentChecksum_of_endMark?_eq_none hnone]
      exact .inl rfl
    · exact .inr ⟨by rw [endMark?_readContentChecksum, hnone]; rfl, by rw [hnone]; rfl⟩
  · exact .inr ⟨by rw [endMark?_readContentChecksum, hended], hended'⟩

/-- Asking for the content checksum has no influence on what `next` gives. -/
theorem Alike.run {scanner scanner' : Scanner} (h : Alike scanner scanner') (calls : List Call) :
    let nexts := calls.filter (· = .next)
    (scanner.run calls).1.filterMap Answer.item? =
        (scanner'.run nexts).1.filterMap Answer.item? ∧
      Alike (scanner.run calls).2 (scanner'.run nexts).2 := by
  induction calls generalizing scanner scanner' with
  | nil => exact ⟨rfl, h⟩
  | cons call calls ih =>
    cases call with
    | next =>
      obtain ⟨hitem, hnext⟩ := h.next
      obtain ⟨hitems, hlast⟩ := ih hnext
      refine ⟨?_, hlast⟩
      show scanner.next.1 :: _ = scanner'.next.1 :: _
      rw [hitem, hitems]
    | contentChecksum => exact ih h.readContentChecksum

/-! ### Runs -/

/-- What a caller can rely on, whatever it asks for in whatever order. -/
theorem run_of_honest {source : Source} (hsource : source.Honest) (descriptor : Descriptor) :
    ∃ first, start source descriptor = .ok first ∧ ∀ calls : List Call,
      let answers := (first.run calls).1
      let scanner := (first.run calls).2
      let blocks := answers.filterMap Answer.block?
      let nexts := calls.filter (· = .next)
      scanner.inputSize = source.data.size ∧
      blocks.map Block.index = List.range scanner.found ∧
      Chained source.position (scanner.endMark?.getD scanner.offset) blocks ∧
      (∀ block ∈ blocks,
        block.bodyOffset = block.offset + 4 ∧ block.endOffset ≤ scanner.inputSize) ∧
      (answers.countP Answer.isNextError = 0 → scanner.source.position = scanner.offset) ∧
      (∀ endMark, scanner.endMark? = some endMark →
        scanner.offset = endMark + 4 + 4 * answers.countP Answer.isChecksum) ∧
      (∀ call, (scanner.call call).1.isError = true →
        (scanner.call call).2.offset = scanner.offset ∧
          (scanner.call call).2.found = scanner.found) ∧
      answers.countP Answer.isNextError ≤ 1 ∧
      (answers.Pairwise fun earlier later =>
        earlier.isLast = true → ∀ item, later.item? = some item → item = none) ∧
      (scanner.endMark? = none → scanner.readContentChecksum = (.ok none, scanner)) ∧
      answers.filterMap Answer.item? = (first.run nexts).1.filterMap Answer.item? ∧
      (scanner.endMark? = none → scanner = (first.run nexts).2) := by
  obtain ⟨first, hfirst, hinvariant⟩ := start_of_honest hsource descriptor
  refine ⟨first, hfirst, fun calls => ?_⟩
  intro answers scanner blocks nexts
  have h : Invariant source answers scanner := hinvariant.run hsource calls
  obtain ⟨hitems, halike⟩ := Alike.run (.inl (rfl : first = first)) calls
  refine ⟨h.inputSize, ?_, h.blocks.chained, ?_, ?_, h.afterEndMark, fun _ => call_of_isError, ?_,
    h.silent, readContentChecksum_of_endMark?_eq_none, hitems, ?_⟩
  · rw [h.found]
    exact h.blocks.indices
  · rw [h.inputSize]
    exact h.blocks.placed
  · intro hnone
    refine (h.moved fun hfailed => ?_).position
    rw [h.errors, if_pos hfailed] at hnone
    cases hnone
  · rw [h.errors]
    split_ifs <;> omega
  · intro hnone
    refine halike.resolve_right fun ⟨hended, _⟩ => ?_
    rw [show (first.run calls).2.endMark? = none from hnone] at hended
    cases hended

end Scanner

/-- One block of one letter and an end mark, behind a header, from a source that gives one byte at a
time and is interrupted once. -/
def Source.dripping : Source where
  data := #[0x04, 0x22, 0x4D, 0x18, 0x60, 0x40, 0x82, 0x01, 0x00, 0x00, 0x80, 0x61, 0x00, 0x00, 0x00,
    0x00]
  position := 7
  limit _ := some 1
  interruptAt := some 9

theorem Source.honest_dripping : dripping.Honest := ⟨rfl, rfl, rfl, fun _ => by simp [dripping]⟩

theorem Scanner.run_of_honest_dripping :
    let descriptor : Descriptor := ⟨0x60, 0x40, by decide, by decide⟩
    let calls : List Scanner.Call := [.contentChecksum, .next, .next, .contentChecksum, .next]
    Source.dripping.Honest ∧
      ∃ first, Scanner.start .dripping descriptor = .ok first ∧
        let answers := (first.run calls).1
        let scanner := (first.run calls).2
        (answers.filterMap Answer.block?).map Block.index = List.range scanner.found ∧
          Chained 7 (scanner.endMark?.getD scanner.offset) (answers.filterMap Answer.block?) ∧
          answers.countP Answer.isNextError ≤ 1 := by
  intro descriptor calls
  obtain ⟨first, hfirst, hrun⟩ := run_of_honest Source.honest_dripping descriptor
  obtain ⟨-, hindices, hchained, -, -, -, -, herrors, -⟩ := hrun calls
  exact ⟨Source.honest_dripping, first, hfirst, hindices, hchained, herrors⟩

end Lz4Frame
