import Lz4Frame.Proofs.Header.Fields
import Lz4Frame.Proofs.Scan.Fields
import Lz4Frame.Proofs.Scan.Inverse

/-! A source that fails from some byte on. What is read before that is read as without the fault. The
first field that reaches behind it is not read, and it is reported with the place where this field
starts, also if some of its bytes can still be had: `faulty_reads`. Bodies are not read at all, so a
fault in a body is seen only in what is read behind it, `Scanner.SeenBehind`. -/

namespace Lz4Frame

open Source (memory)

/-- A word whose reader has not miscounted. -/
def Field.word (start : ℕ) : Field := { start, width := Format.wordSize, counted := start }

namespace Scanner

open Reading (Script bind_eq_ok pure_eq_ok throw_ne_ok)

variable {data : Bytes} {descriptor : Descriptor} {inputSize index offset : ℕ}

/-! ### The fields of a block -/

theorem fields_readBlockChecksumScript {bodyEnd : ℕ} {checksum : Option UInt32} {source : Source}
    (hread : readBlockChecksum descriptor inputSize index bodyEnd (memory data bodyEnd) =
      .ok checksum source) :
    (readBlockChecksumScript descriptor inputSize index bodyEnd).fields (memory data bodyEnd) =
      if checksum.isSome then [.word bodyEnd] else [] := by
  unfold readBlockChecksum at hread
  refine (Script.fields_ite _ _ _).trans ?_
  split_ifs at hread with hannounced hsize
  · exact absurd hread throw_ne_ok
  · obtain ⟨word, -, rfl⟩ := Reading.map_eq_ok.1 hread
    rw [if_pos hannounced, Script.fields_ite, if_neg hsize]
    rfl
  · obtain ⟨rfl, -⟩ := pure_eq_ok.1 hread
    rw [if_neg hannounced]
    rfl

/-- A block that is found has taken a size word and, if it has one, a checksum. -/
theorem fields_readBlockScript {block : Block} {source : Source}
    (hread : readBlock descriptor inputSize index offset (memory data offset) =
      .ok (some block) source) :
    (readBlockScript descriptor inputSize index offset).fields (memory data offset) =
      .word offset :: if block.checksum.isSome then [.word block.bodyEnd] else [] := by
  unfold readBlock at hread
  split_ifs at hread with hsize
  · exact absurd hread throw_ne_ok
  obtain ⟨word, next, hword, hread⟩ := bind_eq_ok.1 hread
  obtain rfl := (readWordScript_counts offset).ok hword
  split_ifs at hread with hzero
  · cases (pure_eq_ok.1 hread).1
  dsimp only at hread
  split_ifs at hread with hbody
  · exact absurd hread throw_ne_ok
  obtain ⟨target, sought, hsought, hread⟩ := bind_eq_ok.1 hread
  rw [seekTo_memory] at hsought
  cases hsought
  obtain ⟨checksum, last, hchecksum, hread⟩ := bind_eq_ok.1 hread
  obtain ⟨hblock, -⟩ := pure_eq_ok.1 hread
  cases hblock
  refine (Script.fields_ite _ _ _).trans ?_
  rw [if_neg hsize]
  refine (Script.fields_bind_of_ok _ _ hword).trans ?_
  rw [Script.fields_ite, if_neg hzero, Script.fields_ite, if_neg hbody,
    Script.fields_bind_of_ok _ _ (seekTo_memory _ _ _), Script.fields_bind_of_ok _ _ hchecksum,
    fields_readBlockChecksumScript hchecksum]
  exact congrArg (List.cons (Field.word offset)) (List.append_nil _)

/-- The scanner goes on only behind a block. -/
theorem exists_block_of_scanning {scanner : Scanner} (h : scanner.next.2.state = .scanning) :
    ∃ block, scanner.next.1 = some (.ok block) := by
  unfold next at h ⊢
  split at h
  · split at h
    · cases h
    next block source hread => exact ⟨block, rfl⟩
    · cases h
  next hscanning => exact absurd h hscanning

/-- What a scanner in memory does for a block. -/
structure FindsBlock (scanner : Scanner) (block : Block) : Prop where
  state : scanner.state = .scanning
  offset : block.offset = scanner.offset
  bodyOffset : block.bodyOffset = block.offset + Format.wordSize
  next_state : scanner.next.2.state = .scanning
  next_offset : scanner.next.2.offset = block.endOffset
  asked : scanner.asked .next =
    .word block.offset :: if block.checksum.isSome then [.word block.bodyEnd] else []

theorem InMemory.findsBlock {scanner : Scanner} (h : scanner.InMemory data) {block : Block}
    (hblock : scanner.next.1 = some (.ok block)) : scanner.FindsBlock block := by
  have hstate : scanner.state = .scanning := by
    by_contra hne
    rw [next_of_ne_scanning hne] at hblock
    cases hblock
  rcases hnext : scanner.next with ⟨item, scanner'⟩
  rw [hnext] at hblock
  dsimp only at hblock
  subst hblock
  obtain ⟨source, hread, hscanner'⟩ := exists_of_next hnext
  obtain ⟨-, word, checksum, rfl⟩ := exists_of_readBlock hread
  refine ⟨hstate, rfl, rfl, ?_, ?_, ?_⟩
  · rw [hnext, hscanner']
    exact hstate
  · rw [hnext, hscanner']
  · rw [h.eq (by rw [hstate]; nofun)] at hread
    rw [asked_next_of_scanning hstate, h.eq (by rw [hstate]; nofun)]
    exact fields_readBlockScript hread

theorem FindsBlock.stop_le {scanner : Scanner} {block : Block} (h : scanner.FindsBlock block)
    {field : Field} (hfield : field ∈ scanner.asked .next) :
    field.stop ≤ scanner.next.2.offset := by
  rw [h.asked, List.mem_cons] at hfield
  rw [h.next_offset, Block.endOffset, Block.bodyEnd, h.bodyOffset]
  obtain rfl | hfield := hfield
  · simp only [Field.stop, Field.word]
    omega
  · split_ifs at hfield with hchecksum
    · rw [List.mem_singleton.1 hfield, if_pos hchecksum, Field.stop, Field.word, Block.bodyEnd,
        h.bodyOffset, Format.wordSize]
    · cases hfield

/-- Up to a scanner that goes on, all fields that were asked for are behind it. -/
theorem InMemory.stop_le_of_call {scanner : Scanner} (h : scanner.InMemory data) {call : Call}
    (hscanning : (scanner.call call).2.state = .scanning) :
    scanner.offset ≤ (scanner.call call).2.offset ∧ scanner.state = .scanning ∧
      ∀ field ∈ scanner.asked call, field.stop ≤ (scanner.call call).2.offset := by
  cases call with
  | next =>
    obtain ⟨block, hblock⟩ := exists_block_of_scanning hscanning
    have hfinds := h.findsBlock hblock
    refine ⟨?_, hfinds.state, fun field hfield => hfinds.stop_le hfield⟩
    show scanner.offset ≤ scanner.next.2.offset
    rw [hfinds.next_offset, Block.endOffset, Block.bodyEnd, hfinds.bodyOffset, hfinds.offset]
    omega
  | contentChecksum =>
    have hnone : scanner.endMark? = none := by
      rw [← endMark?_readContentChecksum]
      exact endMark?_of_scanning hscanning
    have hsilent : scanner.call .contentChecksum = (.contentChecksum (.ok none), scanner) := by
      rw [Scanner.call, readContentChecksum_of_endMark?_eq_none hnone]
    rw [hsilent] at hscanning ⊢
    refine ⟨Nat.le_refl _, hscanning, fun field hfield => ?_⟩
    rw [asked, hnone, Option.isSome_none, Bool.and_false, if_neg Bool.false_ne_true] at hfield
    cases hfield

theorem InMemory.stop_le_of_run {scanner : Scanner} (h : scanner.InMemory data) {calls : List Call}
    (hscanning : (scanner.run calls).2.state = .scanning) :
    scanner.offset ≤ (scanner.run calls).2.offset ∧ scanner.state = .scanning ∧
      ∀ field ∈ scanner.askedAll calls, field.stop ≤ (scanner.run calls).2.offset := by
  induction calls generalizing scanner with
  | nil => exact ⟨Nat.le_refl _, hscanning, fun _ hfield => nomatch hfield⟩
  | cons call calls ih =>
    obtain ⟨hle, hstate, hfields⟩ := ih (h.call call) hscanning
    obtain ⟨hle', hstate', hfields'⟩ := h.stop_le_of_call hstate
    refine ⟨hle'.trans hle, hstate', fun field hfield => ?_⟩
    obtain hfirst | hrest := List.mem_append.1 hfield
    · exact (hfields' field hfirst).trans hle
    · exact hfields field hrest

/-- Up to a block that is found, no field that was asked for reaches into its body. -/
theorem FindsBlock.stop_le_of_mem_askedAll {scanner : Scanner} {calls : List Call} {block : Block}
    (hfinds : (scanner.run calls).2.FindsBlock block) (h : scanner.InMemory data) {field : Field}
    (hfield : field ∈ scanner.askedAll calls) : field.stop ≤ block.bodyOffset := by
  have hstop := (h.stop_le_of_run hfinds.state).2.2 field hfield
  rw [hfinds.bodyOffset, hfinds.offset]
  exact hstop.trans (Nat.le_add_right _ _)

/-- Where there is room for a size word, it is the first field that the next block takes. -/
theorem InMemory.head?_asked {scanner : Scanner} (h : scanner.InMemory data)
    (hstate : scanner.state = .scanning)
    (hroom : scanner.offset + Format.wordSize ≤ scanner.inputSize) :
    (scanner.asked .next).head? = some (.word scanner.offset) := by
  rw [asked_next_of_scanning hstate, h.eq (by rw [hstate]; nofun)]
  refine (congrArg List.head? (Script.fields_ite _ _ _)).trans ?_
  rw [if_neg (Nat.not_lt.2 hroom)]
  exact congrArg List.head? (Script.fields_bind ..)

/-! ### Faults in bodies -/

section BodyFault

variable {source : Source} {reference scanner : Scanner} {stop : ℕ}

/-- What a fault in the body of a block does. Everything before the block is found unchanged. If
the block has a checksum, this is what cannot be read. If not, the block is found, and the next size
word cannot be read. -/
structure SeenBehind (error : IoError) (reference scanner : Scanner) (calls : List Call)
    (block : Block) : Prop where
  before : (scanner.run calls).1 = (reference.run calls).1
  checksum : block.checksum.isSome = true →
    (scanner.run calls).2.next.1 = some (.error (.io block.bodyEnd error))
  found : block.checksum = none →
    (scanner.run (calls ++ [.next])).1 = (reference.run (calls ++ [.next])).1
  sizeWord : block.checksum = none → block.bodyEnd + Format.wordSize ≤ reference.inputSize →
    (scanner.run (calls ++ [.next])).2.next.1 = some (.error (.io block.bodyEnd error))

theorem Follows.seenBehind (h : Follows source reference scanner) (hsource : source.Readable)
    (hstop : source.failFrom = some stop) {calls : List Call} {block : Block}
    (hblock : (reference.run calls).2.next.1 = some (.ok block)) (hle : block.bodyOffset ≤ stop)
    (hlt : stop < block.bodyEnd) :
    SeenBehind source.error reference scanner calls block := by
  have hmemory := h.inMemory.run calls
  have hfinds := hmemory.findsBlock hblock
  have hcalls : source.firstFault (reference.askedAll calls) = none :=
    Source.firstFault_eq_none_of_le hstop fun field hfield =>
      (hfinds.stop_le_of_mem_askedAll h.inMemory hfield).trans hle
  obtain ⟨hbefore, hfollows⟩ := h.run hsource calls hcalls
  have hword : (Field.word block.offset).stop ≤ stop := by
    rw [hfinds.bodyOffset] at hle
    exact hle
  have hbehind : stop < (Field.word block.bodyEnd).stop := Nat.lt_add_right _ hlt
  have hsize : source.firstFault [.word block.offset] = none :=
    Source.firstFault_eq_none_of_le hstop fun field hfield => by rwa [List.mem_singleton.1 hfield]
  have hwords : block.checksum = none →
      source.firstFault (reference.askedAll (calls ++ [.next])) = none := by
    intro hnone
    have hasked : (reference.run calls).2.askedAll [.next] = [.word block.offset] := by
      rw [askedAll, hfinds.asked, hnone]
      rfl
    rw [askedAll_append, Source.firstFault_append, hcalls, hasked, hsize]
    rfl
  refine ⟨hbefore, fun hsome => ?_, fun hnone => (h.run hsource _ (hwords hnone)).1,
    fun hnone hroom => ?_⟩
  · refine hfollows.next_of_fault hsource (.word block.bodyEnd) ?_
    rw [hfinds.asked, if_pos hsome, ← List.singleton_append, Source.firstFault_append, hsize]
    exact Source.firstFault_of_head? hstop rfl hbehind
  · have hnext := (h.run hsource _ (hwords hnone)).2
    have hrun : (reference.run (calls ++ [.next])).2 = (reference.run calls).2.next.2 := by
      rw [run_append]
      rfl
    have hoffset : (reference.run calls).2.next.2.offset = block.bodyEnd := by
      rw [hfinds.next_offset, Block.endOffset, hnone]
      rfl
    refine hnext.next_of_fault hsource (.word block.bodyEnd) ?_
    refine Source.firstFault_of_head? hstop ?_ hbehind
    rw [hrun, ← hoffset]
    refine hmemory.next.head?_asked hfinds.next_state ?_
    rw [hoffset, hmemory.next.inputSize, ← h.inMemory.inputSize]
    exact hroom

end BodyFault

end Scanner

/-! ### Whole frames -/

/-- A header and whatever a scanner behind it is asked for, from a source that fails from `stop` on.
The fields are those that a run without the fault asks for. -/
theorem faulty_reads {data : Bytes} {stop : ℕ} (hstop : stop ≤ data.size) {error : IoError}
    (hinterrupted : error ≠ .interrupted) (hended : error ≠ .unexpectedEof) :
    let healthy : Source := { data }
    let faulty : Source := { data, failFrom := some stop, error }
    let hit : Field → Bool := fun field => stop < field.start + field.width
    let fields := Header.readScript.fields healthy
    (∀ field, fields.find? hit = some field →
      ∃ moved, Header.read faulty = .error (.io field.start error) moved) ∧
    (fields.find? hit = none →
      faulty.EndsLike (Header.read healthy) (Header.read faulty) ∧
      ∀ header source, Header.read healthy = .ok header source →
        ∃ source' first scanner, Header.read faulty = .ok header source' ∧
          Scanner.start source header.descriptor = .ok first ∧
          Scanner.start source' header.descriptor = .ok scanner ∧
          (∀ calls, (first.askedAll calls).find? hit = none →
            (scanner.run calls).1 = (first.run calls).1 ∧
            ∀ call field, ((first.run calls).2.asked call).find? hit = some field →
              ((scanner.run calls).2.call call).1 = call.failure (.io field.start error)) ∧
          ∀ calls block, (first.run calls).2.next.1 = some (.ok block) →
            block.bodyOffset ≤ stop → stop < block.bodyEnd →
              Scanner.SeenBehind error first scanner calls block) := by
  intro healthy faulty hit fields
  have hfaulty : faulty.Readable :=
    ⟨rfl, rfl, fun _ => nofun, fun _ h => by cases h; exact ⟨hstop, hinterrupted, hended⟩⟩
  refine ⟨fun field hfield => ?_, fun hnone => ?_⟩
  · have hcounted : field.counted = field.start :=
      Header.readScript_counts.fields field (List.mem_of_find?_eq_some hfield)
    rw [← hcounted]
    exact Header.readScript.eq_error hfaulty field hfield
  · have hheader : faulty.EndsLike (Header.read healthy) (Header.read faulty) :=
      Header.readScript.endsLike hfaulty hnone
    refine ⟨hheader, fun header source hread => ?_⟩
    rw [hread] at hheader
    obtain ⟨source', first, scanner, hsource', hfirst, hscanner, hfollows⟩ :=
      Scanner.exists_follows_of_endsLike hfaulty header.descriptor hheader
    refine ⟨source', first, scanner, hsource', hfirst, hscanner, fun calls hcalls => ?_,
      fun calls block => hfollows.seenBehind hfaulty rfl⟩
    obtain ⟨hanswers, hlast⟩ := hfollows.run hfaulty calls hcalls
    exact ⟨hanswers, fun call field => hlast.call_of_fault hfaulty⟩

/-- A frame of one letter, and a fault in front of the letter. -/
theorem faulty_reads_letter :
    let header := FrameLayout.letter.header
    let data := FrameLayout.letter.encode.toArray
    let faulty : Source := { data, failFrom := some 11, error := .kind "resource busy" }
    11 ≤ data.size ∧ faulty.error ≠ .interrupted ∧ faulty.error ≠ .unexpectedEof ∧
      ∃ source first scanner block, Header.read faulty = .ok header source ∧
        Scanner.start (memory data header.length) header.descriptor = .ok first ∧
        Scanner.start source header.descriptor = .ok scanner ∧
        first.next.1 = some (.ok block) ∧ block.bodyOffset = 11 ∧ block.bodyEnd = 12 ∧
        Scanner.SeenBehind (.kind "resource busy") first scanner [] block := by
  intro header data faulty
  have hread : Header.read { data } = .ok header (memory data header.length) :=
    Header.read_memory_eq_ok_iff.2 ⟨⟨FrameLayout.letter.remainder, rfl⟩, rfl⟩
  obtain ⟨-, hnone⟩ := @faulty_reads data 11 (by decide) (.kind "resource busy") nofun nofun
  obtain ⟨-, hheader⟩ := hnone (by decide +kernel)
  obtain ⟨source, first, scanner, hfaulty, hfirst, hscanner, -, hbody⟩ := hheader header _ hread
  rw [Scanner.start_memory] at hfirst
  cases hfirst
  have hfront : Front.read header.descriptor.hasBlockChecksums (data.toList.drop header.length) =
      .block ⟨.uncompressed, #[0x61], none, by decide, by decide⟩ [0, 0, 0, 0] :=
    Front.read_eq_block_iff.2 (by decide)
  have hblock : (Scanner.atOffset data header.descriptor 0 header.length).next.1 = some (.ok _) :=
    congrArg Prod.fst (Scanner.next_of_block hfront)
  exact ⟨by decide, by decide, by decide, source, _, scanner, _, hfaulty,
    Scanner.start_memory data header.descriptor header.length, hscanner, hblock, by decide, by decide,
    hbody [] _ hblock (by decide) (by decide)⟩

end Lz4Frame
