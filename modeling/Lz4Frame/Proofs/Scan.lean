import Lz4Frame.Proofs.Header
import Lz4Frame.Proofs.Layout.Remainder
import Lz4Frame.Scan

/-! The scan of an input in memory. At every block boundary the scanner finds what lies at the front
of the bytes not read yet, so a scan that nobody cancels is `Remainder.read` behind the header, with
the offsets put back in. It undoes the writing of frames, and whatever it takes for a complete frame
is one. -/

namespace Lz4Frame

open BlockLayout (encodeAll encodeAll_cons locateAll)
open Source (memory)

/-- What a scan says that finds `remainder` at `offset`, behind the blocks in `found`. -/
def Remainder.outcome (header : Header) (found : List Block) (offset : ℕ)
    (remainder : Remainder) : ScanOutcome :=
  let blocks := found ++ locateAll found.length offset remainder.blocks
  let behind := offset + (encodeAll remainder.blocks).length
  match remainder.ending with
  | .complete contentChecksum _ =>
    let endOffset := behind + Format.wordSize + (Word.encodeOptional contentChecksum).length
    { frame := some { header, blocks, contentChecksum, endOffset := some endOffset } }
  | .cutBlock cut =>
    { frame := some { header, blocks }
      fatal := some (.scan (cut.error header.descriptor blocks.length behind)) }
  | .cutChecksum =>
    { frame := some { header, blocks }
      fatal := some (.scan (.unexpectedEnd (behind + Format.wordSize) .contentChecksum)) }

theorem Remainder.eq_of_frame_outcome {header : Header} {offset : ℕ} {remainder : Remainder}
    {frame : Frame} (h : (remainder.outcome header [] offset).frame = some frame) :
    frame.header = header ∧ frame.blocks = locateAll 0 offset remainder.blocks := by
  unfold outcome at h
  split at h <;> cases h <;> exact ⟨rfl, rfl⟩

/-- A block at the front is one more block behind the ones that were found. -/
theorem Remainder.outcome_cons (header : Header) (found : List Block) (offset : ℕ)
    (block : BlockLayout) (remainder : Remainder) :
    outcome header found offset ⟨block :: remainder.blocks, remainder.ending⟩ =
      outcome header (found ++ [block.locate found.length offset])
        (offset + block.encode.length) remainder := by
  simp only [outcome, encodeAll_cons, locateAll, List.append_assoc, List.length_append,
    List.length_singleton, List.singleton_append, Nat.add_assoc]

namespace Scanner

/-- The scanner of an input in memory that is at `offset`, behind `found` blocks. -/
def atOffset (input : Bytes) (descriptor : Descriptor) (found offset : ℕ) : Scanner :=
  { source := memory input offset, descriptor, offset, inputSize := input.size, found }

variable {input : Bytes} {descriptor : Descriptor} {found offset : ℕ}

theorem start_memory (input : Bytes) (descriptor : Descriptor) (offset : ℕ) :
    start (memory input offset) descriptor = .ok (atOffset input descriptor 0 offset) := rfl

/-! ### One block -/

theorem readWord_of_hasAt {position : ℕ} {word : UInt32}
    (h : input.HasAt position (Word.encode 4 word.toNat)) :
    readWord offset (memory input position) = .ok word (memory input (position + 4)) := by
  have hread := Source.readExact_memory_eq_ok_iff.2 ⟨Word.length_encode _ _, h, rfl⟩
  rw [readWord, Reading.map_eq_ok]
  exact ⟨_, Reading.adaptExcept_eq_ok.2 hread, Word.ofNat_value_encode_word word⟩

theorem add_length_le_size {position : ℕ} {bytes rest : List UInt8}
    (h : input.toList.drop position = bytes ++ rest) (hne : bytes ≠ []) :
    position + bytes.length + rest.length = input.size := by
  have hlen := congrArg List.length h
  have := List.length_pos_iff.2 hne
  simp only [List.length_drop, List.length_append, Array.length_toList] at hlen
  omega

theorem readBlock_of_endMark {rest : List UInt8}
    (h : input.toList.drop offset = Format.endMark ++ rest) :
    readBlock descriptor input.size found offset (memory input offset) =
      .ok none (memory input (offset + Format.wordSize)) := by
  have hsize := add_length_le_size h (by decide)
  have hword : readWord offset (memory input offset) = .ok 0 (memory input (offset + 4)) :=
    readWord_of_hasAt ⟨rest, h.symm⟩
  rw [readBlock, if_neg (by simp [Format.wordSize, Format.endMark] at *; omega),
    Reading.bind_of_ok hword, if_pos rfl]
  rfl

theorem readBlockChecksum_of_hasAt {bodyEnd : ℕ} {checksum : Option UInt32}
    (hsome : checksum.isSome = descriptor.hasBlockChecksums)
    (h : input.HasAt bodyEnd (Word.encodeOptional checksum))
    (hsize : bodyEnd + (Word.encodeOptional checksum).length ≤ input.size) :
    readBlockChecksum descriptor input.size found bodyEnd (memory input bodyEnd) =
      .ok checksum (memory input (bodyEnd + (Word.encodeOptional checksum).length)) := by
  rw [readBlockChecksum, ← hsome]
  cases checksum with
  | none => rfl
  | some checksum =>
    simp only [Word.length_encodeOptional, Option.isSome_some, if_true] at hsize ⊢
    rw [if_neg (by simp only [Format.wordSize]; omega), Reading.map_eq_ok]
    exact ⟨checksum, readWord_of_hasAt h, rfl⟩

/-- The body of a block is skipped by a seek that cannot fail. -/
theorem seekTo_memory {ε : Type} (error : IoError → ε) (position target : ℕ) :
    (Source.seekTo target).adaptExcept error (memory input position) =
      .ok target (memory input target) := rfl

theorem readBlock_of_block {block : BlockLayout} {rest : List UInt8}
    (hsome : block.checksum.isSome = descriptor.hasBlockChecksums)
    (h : input.toList.drop offset = block.encode ++ rest) :
    readBlock descriptor input.size found offset (memory input offset) =
      .ok (some (block.locate found offset)) (memory input (offset + block.encode.length)) := by
  have hat : input.HasAt offset block.encode := ⟨rest, h.symm⟩
  rw [BlockLayout.encode, Bytes.hasAt_append, Bytes.hasAt_append, List.length_append,
    Word.length_encode, Array.length_toList, ← Nat.add_assoc] at hat
  obtain ⟨⟨hword, -⟩, hchecksum⟩ := hat
  rw [← block.toNat_ofNat_word] at hword
  have hlen : block.encode.length =
      4 + block.body.size + (Word.encodeOptional block.checksum).length := by
    rw [BlockLayout.length_encode, Word.length_encodeOptional]
  have hsize := add_length_le_size h (by
    intro hnil
    rw [hnil, List.length_nil] at hlen
    omega)
  have hread : readBlockChecksum descriptor input.size found
      (offset + Format.wordSize + block.body.size)
      (memory input (offset + Format.wordSize + block.body.size)) =
        .ok block.checksum (memory input
          (offset + Format.wordSize + block.body.size +
            (Word.encodeOptional block.checksum).length)) :=
    readBlockChecksum_of_hasAt hsome hchecksum (by simp only [Format.wordSize]; omega)
  rw [readBlock, if_neg (by simp only [Format.wordSize]; omega),
    Reading.bind_of_ok (readWord_of_hasAt hword), if_neg (Front.ofNat_word_ne_zero block)]
  rw [BlockLayout.sizeOfWord_word, BlockLayout.kindOfWord_word,
    if_neg (by simp only [Format.wordSize]; omega),
    Reading.bind_of_ok (seekTo_memory _ _ _), Reading.bind_of_ok hread]
  simp only [hlen, ← Nat.add_assoc]
  rfl

/-- A block that is cut short stops the scan with the error of its part. -/
theorem readBlock_of_cut (found : ℕ) {cut : Cut}
    (h : Front.read descriptor.hasBlockChecksums (input.toList.drop offset) = .cut cut) :
    ∃ source, readBlock descriptor input.size found offset (memory input offset) =
      .error (cut.error descriptor found offset) source := by
  have hlen : (input.toList.drop offset).length = input.size - offset := by simp
  rcases Front.read_eq_cut h with ⟨hword, rfl⟩ | ⟨word, behind, hne, hbytes, hcut⟩
  · rw [hlen] at hword
    exact ⟨_, by rw [readBlock, if_pos (by omega)]; rfl⟩
  have hsize := add_length_le_size hbytes (by simp [Word.encode])
  rw [Word.length_encode] at hsize
  rw [readBlock, if_neg (by simp only [Format.wordSize]; omega),
    Reading.bind_of_ok (readWord_of_hasAt ⟨behind, hbytes.symm⟩), if_neg hne]
  rcases hcut with ⟨hbody, rfl⟩ | ⟨hbody, hannounced, hchecksum, rfl⟩
  · exact ⟨_, by rw [if_pos (by simp only [Format.wordSize]; omega)]; rfl⟩
  · rw [if_neg (by simp only [Format.wordSize]; omega), Reading.bind_of_ok (seekTo_memory _ _ _),
      readBlockChecksum, if_pos hannounced,
      if_pos (by simp only [Format.wordSize] at *; omega)]
    exact ⟨_, rfl⟩

/-! ### One step -/

/-- The scanner behind the end mark at `offset`. -/
def ended (input : Bytes) (descriptor : Descriptor) (found offset : ℕ) : Scanner :=
  { atOffset input descriptor found (offset + Format.wordSize) with state := .ended offset }

theorem next_of_endMark {rest : List UInt8}
    (h : Front.read descriptor.hasBlockChecksums (input.toList.drop offset) = .endMark rest) :
    (atOffset input descriptor found offset).next =
      (none, ended input descriptor found offset) := by
  have hread : readBlock descriptor input.size found offset (memory input offset) = _ :=
    readBlock_of_endMark (Front.read_eq_endMark_iff.1 h)
  simp only [next, atOffset, hread]
  rfl

theorem next_of_block {block : BlockLayout} {rest : List UInt8}
    (h : Front.read descriptor.hasBlockChecksums (input.toList.drop offset) =
      .block block rest) :
    (atOffset input descriptor found offset).next =
      (some (.ok (block.locate found offset)),
        atOffset input descriptor (found + 1) (offset + block.encode.length)) := by
  obtain ⟨hsome, hbytes⟩ := Front.read_eq_block_iff.1 h
  simp only [next, atOffset, readBlock_of_block hsome hbytes, BlockLayout.endOffset_locate]

theorem next_of_cut (found : ℕ) {cut : Cut}
    (h : Front.read descriptor.hasBlockChecksums (input.toList.drop offset) = .cut cut) :
    ∃ scanner, (atOffset input descriptor found offset).next =
      (some (.error (cut.error descriptor found offset)), scanner) := by
  obtain ⟨source, hread⟩ := readBlock_of_cut found h
  exact ⟨_, by simp only [next, atOffset, hread]; rfl⟩

/-! ### Behind the last block -/

theorem readContentChecksum_of_complete (found : ℕ) {contentChecksum : Option UInt32}
    {trailing : List UInt8} (hsome : contentChecksum.isSome = descriptor.hasContentChecksum)
    (h : input.toList.drop offset =
      Format.endMark ++ (Word.encodeOptional contentChecksum ++ trailing)) :
    ∃ scanner, (ended input descriptor found offset).readContentChecksum =
        (.ok contentChecksum, scanner) ∧
      scanner.offset = offset + Format.wordSize + (Word.encodeOptional contentChecksum).length := by
  have hsize := add_length_le_size h (by decide)
  have hat : input.HasAt offset (Format.endMark ++ Word.encodeOptional contentChecksum) :=
    ⟨trailing, by rw [List.append_assoc, h]⟩
  obtain ⟨-, hat⟩ := Bytes.hasAt_append.1 hat
  have hannounced : ((ended input descriptor found offset).descriptor.hasContentChecksum &&
      (ended input descriptor found offset).endMark?.isSome) = contentChecksum.isSome := by
    rw [hsome]
    exact Bool.and_true _
  rw [readContentChecksum, hannounced]
  cases contentChecksum with
  | none => exact ⟨_, rfl, rfl⟩
  | some checksum =>
    rw [List.length_append, Word.length_encodeOptional] at hsize
    simp only [Format.endMark, Word.length_encode, Option.isSome_some, if_true] at hsize hat
    have hfits : ¬ (ended input descriptor found offset).inputSize <
        (ended input descriptor found offset).offset + Format.wordSize := by
      show ¬ input.size < offset + 4 + 4
      omega
    have hread : readWord (ended input descriptor found offset).offset
        (ended input descriptor found offset).source = _ := readWord_of_hasAt hat
    simp only [Option.isSome_some, if_true, if_neg hfits, hread]
    exact ⟨_, rfl, rfl⟩

theorem readContentChecksum_of_cut (hannounced : descriptor.hasContentChecksum = true)
    (h : input.size < offset + Format.wordSize + Format.wordSize) :
    (ended input descriptor found offset).readContentChecksum =
      (.error (.unexpectedEnd (offset + Format.wordSize) .contentChecksum),
        ended input descriptor found offset) := by
  rw [readContentChecksum, if_pos (by simp [ended, atOffset, endMark?, hannounced]),
    if_pos (by exact h)]
  rfl

/-! ### All steps -/

section Walk

variable {scanner scanner' : Scanner} {blocks : Array Block}

theorem walk_of_next_none (h : scanner.next = (none, scanner')) :
    Id.run (walk (pure false) scanner blocks) = (blocks, scanner', .finished) := by
  rw [walk]
  simp only [Id.run_bind, Id.run_pure, Bool.false_eq_true, if_false]
  split <;> simp_all

theorem walk_of_next_error {error : ScanError}
    (h : scanner.next = (some (.error error), scanner')) :
    Id.run (walk (pure false) scanner blocks) = (blocks, scanner', .stopped error) := by
  rw [walk]
  simp only [Id.run_bind, Id.run_pure, Bool.false_eq_true, if_false]
  split <;> simp_all

theorem walk_of_next_ok {block : Block} (h : scanner.next = (some (.ok block), scanner')) :
    Id.run (walk (pure false) scanner blocks) =
      Id.run (walk (pure false) scanner' (blocks.push block)) := by
  rw [walk]
  simp only [Id.run_bind, Id.run_pure, Bool.false_eq_true, if_false]
  split <;> simp_all

end Walk

/-- What becomes of a scan from here on, behind the blocks in `found`. -/
def conclude (header : Header) (scanner : Scanner) (found : Array Block) : ScanOutcome :=
  let (found, scanner, ending) := Id.run (walk (pure false) scanner found)
  header.conclude found.toList scanner ending

/-- Behind the end mark only the content checksum is left. -/
theorem conclude_ended {header : Header} {blocks : List Block} {rest : List UInt8}
    (h : input.toList.drop offset = Format.endMark ++ rest) :
    header.conclude blocks (ended input header.descriptor found offset) .finished =
      Remainder.outcome header blocks offset ⟨[], .ofRest header.descriptor rest⟩ := by
  rw [Remainder.Ending.ofRest]
  split
  next hnone =>
    obtain ⟨hannounced, hlt⟩ := Word.readOptional?_eq_none_iff.1 hnone
    have hsize := add_length_le_size h (by decide)
    simp only [Format.endMark, Word.length_encode] at hsize
    rw [Header.conclude,
      readContentChecksum_of_cut hannounced (by simp only [Format.wordSize]; omega)]
    simp [Remainder.outcome, locateAll]
  next contentChecksum trailing hread =>
    obtain ⟨hsome, rfl⟩ := Word.readOptional?_eq_some_iff.1 hread
    obtain ⟨scanner, hread, hoffset⟩ :=
      readContentChecksum_of_complete found hsome h
    rw [Header.conclude, hread]
    simp [Remainder.outcome, locateAll, hoffset]

/-- The scanner finds what `Remainder.read` reads, each part at its offset. -/
theorem conclude_atOffset {header : Header} {bytes : List UInt8} (offset : ℕ) (found : Array Block)
    (h : input.toList.drop offset = bytes) :
    (atOffset input header.descriptor found.size offset).conclude header found =
      (Remainder.read header.descriptor bytes).outcome header found.toList offset := by
  fun_induction Remainder.read header.descriptor bytes generalizing offset found with
  | case1 bytes rest hfront =>
    rw [← h] at hfront
    rw [conclude, walk_of_next_none (next_of_endMark hfront)]
    exact conclude_ended (Front.read_eq_endMark_iff.1 hfront)
  | case2 bytes cut hfront =>
    rw [← h] at hfront
    obtain ⟨scanner, hnext⟩ := next_of_cut found.size hfront
    rw [conclude, walk_of_next_error hnext]
    simp [Header.conclude, Remainder.outcome, locateAll]
  | case3 bytes block rest hfront remainder ih =>
    rw [← h] at hfront
    have hdrop : input.toList.drop (offset + block.encode.length) = rest := by
      rw [← List.drop_drop, (Front.read_eq_block_iff.1 hfront).2, List.drop_left]
    have ih := ih (offset + block.encode.length) (found.push (block.locate found.size offset)) hdrop
    rw [Array.size_push, Array.toList_push] at ih
    rw [Remainder.outcome_cons, Array.length_toList, ← ih, conclude, conclude,
      walk_of_next_ok (next_of_block hfront)]

end Scanner

/-! ### The scan -/

/-- The scan of an input that starts with a header. -/
theorem scan_of_header {header : Header} {input : Bytes} (h : header.encode <+: input.toList) :
    Id.run (scan (pure false) input) =
      (Remainder.read header.descriptor (input.toList.drop header.length)).outcome header []
        header.length := by
  have hread := Header.read_memory_eq_ok_iff.2 ⟨h, rfl⟩
  rw [scan, show ({ data := input } : Source) = memory input 0 from rfl, hread]
  simp only [Scanner.start_memory]
  exact Scanner.conclude_atOffset header.length #[] rfl

/-- Without a header there is nothing to scan. -/
theorem scan_of_read_eq_error {input : Bytes} {error : HeaderError} {source : Source}
    (h : Header.read (memory input 0) = .error error source) :
    Id.run (scan (pure false) input) = { fatal := some (.header error) } := by
  rw [scan, show ({ data := input } : Source) = memory input 0 from rfl, h]
  rfl

/-- An input that does not start with a header has no frame. -/
theorem scan_of_not_header {input : Bytes}
    (h : ∀ header : Header, ¬ header.encode <+: input.toList) :
    ∃ error, Id.run (scan (pure false) input) = { fatal := some (.header error) } := by
  rcases hread : Header.read (memory input 0) with ⟨header, source⟩ | ⟨error, source⟩
  · exact absurd (Header.read_memory_eq_ok_iff.1 hread).1 (h header)
  · exact ⟨error, scan_of_read_eq_error hread⟩

theorem cancelledAt_scan (input : Bytes) :
    (Id.run (scan (pure false) input)).cancelledAt = none := by
  by_cases hheader : ∃ header : Header, header.encode <+: input.toList
  · obtain ⟨header, hheader⟩ := hheader
    rw [scan_of_header hheader, Remainder.outcome]
    split <;> rfl
  · obtain ⟨error, hscan⟩ := scan_of_not_header (not_exists.1 hheader)
    rw [hscan]

end Lz4Frame
