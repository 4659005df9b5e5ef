import Lz4Frame.Proofs.Layout

/-! Reading layouts back, front to back and without offsets. What lies at the front of some bytes is
a block, the end mark or a part of a block that is cut short, and each of them is recognized exactly
where it was written: `Front.read_eq_block_iff`, `Front.read_eq_endMark_iff`. From there, the bytes
behind a header are read block by block, `Remainder.read`, which undoes `FrameLayout.remainder`. -/

namespace Lz4Frame

open Block.Sequence (splitExact? splitExact?_eq_some_iff splitExact?_eq_none_iff)

/-- The part of a block that is cut short. The size is the one its size word gives. -/
inductive Cut where
  | word
  | body (size : ℕ)
  | checksum (size : ℕ)
  deriving DecidableEq, Repr

/-- What a scan says about a block that is cut short. -/
def Cut.error (descriptor : Descriptor) (index offset : ℕ) : Cut → ScanError
  | .word => .unexpectedEnd offset (.blockSize index)
  | .body size =>
    .unexpectedEnd (offset + Format.wordSize + size + descriptor.blockChecksumSize)
      (.blockBody index)
  | .checksum size =>
    .unexpectedEnd (offset + Format.wordSize + size + Format.wordSize) (.blockChecksum index)

/-- What lies at the front of the bytes behind a header or behind a block. -/
inductive Front where
  | endMark (rest : List UInt8)
  | block (layout : BlockLayout) (rest : List UInt8)
  | cut (cut : Cut)

namespace Front

theorem sizeOfWord_lt (word : UInt32) : Block.sizeOfWord word < Format.storedFlag :=
  Nat.mod_lt _ (by decide)

theorem sizeOfWord_pos {word : UInt32} (hword : word ≠ 0)
    (hkind : Block.kindOfWord word = .compressed) : 0 < Block.sizeOfWord word := by
  have hne : word.toNat ≠ 0 := fun h => hword (UInt32.toNat_inj.1 h)
  unfold Block.kindOfWord at hkind
  split at hkind
  · cases hkind
  next hlt =>
    rw [Block.sizeOfWord, Nat.mod_eq_of_lt (by omega)]
    omega

/-- The block of a size word that is no end mark, or the part of it that `bytes` do not hold. -/
def readBehind (checksums : Bool) (word : UInt32) (hword : word ≠ 0) (bytes : List UInt8) :
    Front :=
  match hbody : splitExact? (Block.sizeOfWord word) bytes with
  | none => .cut (.body (Block.sizeOfWord word))
  | some (body, rest) =>
    have hsize : body.toArray.size = Block.sizeOfWord word := (splitExact?_eq_some_iff.1 hbody).2
    match Word.readOptional? checksums rest with
    | none => .cut (.checksum (Block.sizeOfWord word))
    | some (checksum, rest) =>
      .block
        { kind := Block.kindOfWord word
          body := body.toArray
          checksum
          size_lt := hsize ▸ sizeOfWord_lt word
          size_pos := fun hkind => hsize ▸ sizeOfWord_pos hword hkind }
        rest

/-- The front of `bytes`. `checksums` says whether blocks have a checksum word. -/
def read (checksums : Bool) (bytes : List UInt8) : Front :=
  match splitExact? Format.wordSize bytes with
  | none => .cut .word
  | some (front, rest) =>
    if hword : UInt32.ofNat (Word.value front) = 0 then
      .endMark rest
    else
      readBehind checksums (UInt32.ofNat (Word.value front)) hword rest

theorem readBehind_eq_block_iff {checksums : Bool} {word : UInt32} {hword : word ≠ 0}
    {bytes rest : List UInt8} {block : BlockLayout} :
    readBehind checksums word hword bytes = .block block rest ↔
      block.checksum.isSome = checksums ∧ word.toNat = block.word ∧
        bytes = block.body.toList ++ (Word.encodeOptional block.checksum ++ rest) := by
  unfold readBehind
  constructor
  · intro h
    split at h
    · cases h
    next body _ hbody =>
      obtain ⟨rfl, hlen⟩ := splitExact?_eq_some_iff.1 hbody
      dsimp only at h
      split at h
      · cases h
      next checksum _ hchecksum =>
        obtain ⟨hsome, rfl⟩ := Word.readOptional?_eq_some_iff.1 hchecksum
        cases h
        exact ⟨hsome, (BlockLayout.word_eq rfl hlen).symm, rfl⟩
  · rintro ⟨hsome, heq, rfl⟩
    have hofNat : word = UInt32.ofNat block.word := by rw [← heq, UInt32.ofNat_toNat]
    subst hofNat
    split
    next hnone =>
      rw [BlockLayout.sizeOfWord_word,
        splitExact?_eq_some_iff.2 ⟨rfl, Array.length_toList⟩] at hnone
      cases hnone
    next body rest' hbody =>
      rw [BlockLayout.sizeOfWord_word,
        splitExact?_eq_some_iff.2 ⟨rfl, Array.length_toList⟩] at hbody
      cases hbody
      simp [Word.readOptional?_eq_some_iff.2 ⟨hsome, rfl⟩]

theorem ofNat_word_ne_zero (block : BlockLayout) : UInt32.ofNat block.word ≠ 0 := fun h => by
  have hword := block.toNat_ofNat_word
  rw [h] at hword
  exact block.word_pos.ne hword

theorem read_word (checksums : Bool) (block : BlockLayout) (bytes : List UInt8) :
    read checksums (Word.encode 4 block.word ++ bytes) =
      readBehind checksums (UInt32.ofNat block.word) (ofNat_word_ne_zero block) bytes := by
  have hfront : splitExact? Format.wordSize (Word.encode 4 block.word ++ bytes) =
      some (Word.encode 4 block.word, bytes) :=
    splitExact?_eq_some_iff.2 ⟨rfl, by simp [Format.wordSize]⟩
  have hvalue : UInt32.ofNat (Word.value (Word.encode 4 block.word)) =
      UInt32.ofNat block.word := by
    rw [Word.value_encode, Nat.mod_eq_of_lt (by exact block.word_lt)]
  simp only [read, hfront, hvalue, dif_neg (ofNat_word_ne_zero block)]

/-- A block is found exactly where it was written. -/
theorem read_eq_block_iff {checksums : Bool} {bytes rest : List UInt8} {block : BlockLayout} :
    read checksums bytes = .block block rest ↔
      block.checksum.isSome = checksums ∧ bytes = block.encode ++ rest := by
  constructor
  · intro h
    unfold read at h
    split at h
    · cases h
    next front _ hfront =>
      obtain ⟨rfl, hlen⟩ := splitExact?_eq_some_iff.1 hfront
      split at h
      · cases h
      · obtain ⟨hsome, hword, rfl⟩ := readBehind_eq_block_iff.1 h
        refine ⟨hsome, ?_⟩
        rw [BlockLayout.encode, ← hword, Word.encode_ofNat_value_word hlen]
        simp
  · rintro ⟨hsome, rfl⟩
    rw [BlockLayout.encode, List.append_assoc, List.append_assoc, read_word,
      readBehind_eq_block_iff]
    exact ⟨hsome, block.toNat_ofNat_word, rfl⟩

theorem readBehind_ne_endMark {checksums : Bool} {word : UInt32} {hword : word ≠ 0}
    {bytes rest : List UInt8} : readBehind checksums word hword bytes ≠ .endMark rest := by
  unfold readBehind
  split
  · nofun
  · dsimp only
    split <;> nofun

theorem read_eq_endMark_iff {checksums : Bool} {bytes rest : List UInt8} :
    read checksums bytes = .endMark rest ↔ bytes = Format.endMark ++ rest := by
  constructor
  · intro h
    unfold read at h
    split at h
    · cases h
    next front _ hfront =>
      obtain ⟨rfl, hlen⟩ := splitExact?_eq_some_iff.1 hfront
      split at h
      next hzero =>
        cases h
        rw [← Word.encode_ofNat_value_word hlen, hzero]
        rfl
      · exact absurd h readBehind_ne_endMark
  · rintro rfl
    have hfront : splitExact? Format.wordSize (Format.endMark ++ rest) =
        some (Format.endMark, rest) := splitExact?_eq_some_iff.2 ⟨rfl, rfl⟩
    rw [read, hfront]
    rfl

/-! ### Cut fronts -/

theorem read_of_length_lt {checksums : Bool} {bytes : List UInt8}
    (h : bytes.length < Format.wordSize) : read checksums bytes = .cut .word := by
  rw [read, splitExact?_eq_none_iff.2 h]

theorem readBehind_of_length_lt {checksums : Bool} {word : UInt32} {hword : word ≠ 0}
    {bytes : List UInt8} (h : bytes.length < Block.sizeOfWord word) :
    readBehind checksums word hword bytes = .cut (.body (Block.sizeOfWord word)) := by
  unfold readBehind
  split
  next => rfl
  next hbody =>
    rw [splitExact?_eq_none_iff.2 h] at hbody
    cases hbody

theorem readBehind_body_append {checksums : Bool} {word : UInt32} {hword : word ≠ 0}
    {body bytes : List UInt8} (hbody : body.length = Block.sizeOfWord word)
    (hnone : Word.readOptional? checksums bytes = none) :
    readBehind checksums word hword (body ++ bytes) =
      .cut (.checksum (Block.sizeOfWord word)) := by
  have hsplit : splitExact? (Block.sizeOfWord word) (body ++ bytes) = some (body, bytes) :=
    splitExact?_eq_some_iff.2 ⟨rfl, hbody⟩
  unfold readBehind
  split
  next hsplit' =>
    rw [hsplit] at hsplit'
    cases hsplit'
  next hsplit' =>
    rw [hsplit] at hsplit'
    cases hsplit'
    simp only [hnone]

/-- All the ways in which a block can be cut short. -/
theorem read_eq_cut {checksums : Bool} {bytes : List UInt8} {cut : Cut}
    (h : read checksums bytes = .cut cut) :
    (bytes.length < Format.wordSize ∧ cut = .word) ∨
      ∃ word : UInt32, ∃ behind, word ≠ 0 ∧ bytes = Word.encode 4 word.toNat ++ behind ∧
        ((behind.length < Block.sizeOfWord word ∧ cut = .body (Block.sizeOfWord word)) ∨
          (Block.sizeOfWord word ≤ behind.length ∧ checksums = true ∧
            behind.length < Block.sizeOfWord word + Format.wordSize ∧
            cut = .checksum (Block.sizeOfWord word))) := by
  unfold read at h
  split at h
  next hnone =>
    cases h
    exact .inl ⟨splitExact?_eq_none_iff.1 hnone, rfl⟩
  next front behind hfront =>
    obtain ⟨rfl, hlen⟩ := splitExact?_eq_some_iff.1 hfront
    split at h
    · cases h
    next hne =>
      refine .inr ⟨_, behind, hne, by rw [Word.encode_ofNat_value_word hlen], ?_⟩
      unfold readBehind at h
      split at h
      next hnone =>
        cases h
        exact .inl ⟨splitExact?_eq_none_iff.1 hnone, rfl⟩
      next body rest hbody =>
        obtain ⟨rfl, hbody⟩ := splitExact?_eq_some_iff.1 hbody
        dsimp only at h
        split at h
        next hnone =>
          cases h
          obtain ⟨hannounced, hlt⟩ := Word.readOptional?_eq_none_iff.1 hnone
          refine .inr ⟨?_, hannounced, ?_, rfl⟩
          · rw [List.length_append]
            omega
          · rw [List.length_append, Format.wordSize]
            omega
        · cases h

end Front

/-- The part in which the first `length` bytes of a block end, if they are not all of them. -/
def BlockLayout.cut (block : BlockLayout) (length : ℕ) : Cut :=
  if length < Format.wordSize then .word
  else if length < Format.wordSize + block.body.size then .body block.body.size
  else .checksum block.body.size

theorem Front.read_take_encode (block : BlockLayout) {length : ℕ}
    (h : length < block.encode.length) :
    read block.checksum.isSome (block.encode.take length) = .cut (block.cut length) := by
  rw [BlockLayout.length_encode] at h
  unfold BlockLayout.cut
  split_ifs with hword hbody
  · exact read_of_length_lt (by rw [List.length_take]; omega)
  all_goals
    obtain ⟨length, rfl⟩ : ∃ behind, length = Format.wordSize + behind :=
      ⟨length - Format.wordSize, by omega⟩
    have htake : block.encode.take (Format.wordSize + length) =
        Word.encode 4 block.word ++
          (block.body.toList ++ Word.encodeOptional block.checksum).take length := by
      rw [BlockLayout.encode, List.append_assoc, List.take_append,
        List.take_of_length_le (by simp [Format.wordSize])]
      simp [Format.wordSize]
    rw [htake, read_word]
  · rw [readBehind_of_length_lt, BlockLayout.sizeOfWord_word]
    rw [BlockLayout.sizeOfWord_word, List.length_take]
    omega
  · have hsome : block.checksum.isSome = true := by
      by_contra hnone
      rw [if_neg hnone] at h
      simp only [Format.wordSize] at *
      omega
    rw [if_pos hsome] at h
    simp only [Format.wordSize] at h hbody
    have hbehind : length - block.body.toList.length < 4 := by
      rw [Array.length_toList]
      omega
    rw [List.take_append, List.take_of_length_le (by rw [Array.length_toList]; omega),
      readBehind_body_append, BlockLayout.sizeOfWord_word]
    · rw [BlockLayout.sizeOfWord_word, Array.length_toList]
    · refine Word.readOptional?_eq_none_iff.2 ⟨hsome, ?_⟩
      rw [List.length_take]
      omega

end Lz4Frame
