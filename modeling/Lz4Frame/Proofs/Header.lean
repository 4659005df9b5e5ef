import Lz4Frame.Header
import Lz4Frame.Proofs.Descriptor
import Lz4Frame.Proofs.Source
import Lz4Frame.Proofs.Word

/-! Reading a header from memory. It succeeds exactly where the bytes of a header lie, gives that
header and stops behind it: `read_memory_eq_ok_iff`. Each field has a lemma of the same form, and
the bytes of consecutive fields are put together by `Bytes.hasAt_append`. -/

namespace Lz4Frame

namespace Header

/-- What the format asks of a header: two descriptor bytes that are allowed, and the optional fields
that the flag byte announces. -/
structure WellFormed (header : Header) : Prop where
  allowed : Descriptor.Allowed header.descriptor.flags header.descriptor.sizes
  contentSize : header.contentSize.isSome = header.descriptor.flags.toNat.testBit 3
  dictionaryId : header.dictionaryId.isSome = header.descriptor.flags.toNat.testBit 0

theorem wellFormed (header : Header) : header.WellFormed where
  allowed := header.descriptor.allowed
  contentSize := header.isSome_contentSize.trans header.descriptor.hasContentSize_eq
  dictionaryId := header.isSome_dictionaryId.trans header.descriptor.hasDictionaryId_eq

/-- Whatever the format allows is a header. -/
theorem exists_of_allowed {flags sizes : UInt8} {contentSize : Option UInt64}
    {dictionaryId : Option UInt32} (h : Descriptor.Allowed flags sizes)
    (hsize : contentSize.isSome = flags.toNat.testBit 3)
    (hid : dictionaryId.isSome = flags.toNat.testBit 0) :
    ∃ header : Header, header.descriptor.flags = flags ∧ header.descriptor.sizes = sizes ∧
      header.contentSize = contentSize ∧ header.dictionaryId = dictionaryId := by
  obtain ⟨descriptor, hbytes⟩ := Descriptor.exists_ofBytes_iff.2 h
  obtain ⟨rfl, rfl⟩ := Descriptor.ofBytes_eq_ok_iff.1 hbytes
  exact ⟨⟨descriptor, contentSize, dictionaryId, hsize.trans descriptor.hasContentSize_eq.symm,
    hid.trans descriptor.hasDictionaryId_eq.symm⟩, rfl, rfl, rfl, rfl⟩

theorem exists_of_descriptor (descriptor : Descriptor) :
    ∃ header : Header, header.descriptor = descriptor :=
  ⟨⟨descriptor, if descriptor.hasContentSize then some 0 else none,
    if descriptor.hasDictionaryId then some 0 else none,
    by cases descriptor.hasContentSize <;> rfl, by cases descriptor.hasDictionaryId <;> rfl⟩, rfl⟩

/-! ### Fields -/

open Source (memory)

variable {data : Bytes} {position : ℕ} {source : Source}

theorem readNumber_eq_ok_iff {width offset n : ℕ} {part : Part} :
    readNumber width offset part (memory data position) = .ok n source ↔
      ∃ bytes, bytes.length = width ∧ data.HasAt position bytes ∧ Word.value bytes = n ∧
        source = memory data (position + width) := by
  simp only [readNumber, Reading.map_eq_ok, Reading.adaptExcept_eq_ok,
    Source.readExact_memory_eq_ok_iff]
  constructor
  · rintro ⟨bytes, ⟨hlen, hat, hsource⟩, hvalue⟩
    exact ⟨bytes, hlen, hat, hvalue, hsource⟩
  · rintro ⟨bytes, hlen, hat, hvalue, hsource⟩
    exact ⟨bytes, ⟨hlen, hat, hsource⟩, hvalue⟩

/-- Only where the data ends before it does a number cannot be read. -/
theorem readNumber_eq_error {width offset : ℕ} {part : Part} {error : HeaderError}
    (h : readNumber width offset part (memory data position) = .error error source) :
    error = .unexpectedEnd offset part ∧ data.size < position + width := by
  obtain ⟨error', hread, rfl⟩ := Reading.adaptExcept_eq_error.1 (Reading.map_eq_error.1 h)
  rw [Source.readExact_memory] at hread
  split at hread
  · cases hread
  next hnone =>
    cases hread
    rw [Block.Sequence.splitExact?_eq_none_iff, List.length_drop, Array.length_toList] at hnone
    exact ⟨rfl, by omega⟩

theorem le_size_of_readNumber_eq_ok {width offset n : ℕ} {part : Part} (hwidth : 0 < width)
    (h : readNumber width offset part (memory data position) = .ok n source) :
    position + width ≤ data.size := by
  obtain ⟨bytes, hlength, ⟨rest, hrest⟩, -⟩ := readNumber_eq_ok_iff.1 h
  have hdrop := congrArg List.length hrest
  simp only [List.length_append, List.length_drop, Array.length_toList] at hdrop
  omega

theorem readByte_eq_ok_iff {offset : ℕ} {part : Part} {byte : UInt8} :
    (UInt8.ofNat <$> readNumber 1 offset part) (memory data position) = .ok byte source ↔
      data.HasAt position [byte] ∧ source = memory data (position + 1) := by
  simp only [Reading.map_eq_ok, readNumber_eq_ok_iff]
  constructor
  · rintro ⟨_, ⟨bytes, hlen, hat, rfl, hsource⟩, rfl⟩
    obtain ⟨byte, rfl⟩ := List.length_eq_one_iff.1 hlen
    exact ⟨by simpa [Word.value] using hat, hsource⟩
  · rintro ⟨hat, hsource⟩
    exact ⟨_, ⟨[byte], rfl, hat, rfl, hsource⟩, by simp [Word.value]⟩

theorem readWord_eq_ok_iff {offset : ℕ} {part : Part} {word : UInt32} :
    (UInt32.ofNat <$> readNumber 4 offset part) (memory data position) = .ok word source ↔
      data.HasAt position (Word.encode 4 word.toNat) ∧ source = memory data (position + 4) := by
  simp only [Reading.map_eq_ok, readNumber_eq_ok_iff]
  constructor
  · rintro ⟨_, ⟨bytes, hlen, hat, rfl, hsource⟩, rfl⟩
    rw [Word.encode_ofNat_value_word hlen]
    exact ⟨hat, hsource⟩
  · rintro ⟨hat, hsource⟩
    exact ⟨_, ⟨_, by simp, hat, rfl, hsource⟩, Word.ofNat_value_encode_word word⟩

theorem readLong_eq_ok_iff {offset : ℕ} {part : Part} {long : UInt64} :
    (UInt64.ofNat <$> readNumber 8 offset part) (memory data position) = .ok long source ↔
      data.HasAt position (Word.encode 8 long.toNat) ∧ source = memory data (position + 8) := by
  simp only [Reading.map_eq_ok, readNumber_eq_ok_iff]
  constructor
  · rintro ⟨_, ⟨bytes, hlen, hat, rfl, hsource⟩, rfl⟩
    rw [Word.encode_ofNat_value_long hlen]
    exact ⟨hat, hsource⟩
  · rintro ⟨hat, hsource⟩
    exact ⟨_, ⟨_, by simp, hat, rfl, hsource⟩, Word.ofNat_value_encode_long long⟩

theorem readMagic_eq_ok_iff {magic : UInt32} :
    readMagic (memory data position) = .ok magic source ↔
      data.HasAt position (Word.encode 4 magic.toNat) ∧ source = memory data (position + 4) := by
  simp only [readMagic, Reading.map_eq_ok, Reading.adaptExcept_eq_ok,
    Source.readExact_memory_eq_ok_iff, Function.comp]
  constructor
  · rintro ⟨bytes, ⟨hlen, hat, hsource⟩, rfl⟩
    rw [Word.encode_ofNat_value_word hlen]
    exact ⟨hat, hsource⟩
  · rintro ⟨hat, hsource⟩
    exact ⟨_, ⟨by simp [Format.wordSize], hat, hsource⟩, Word.ofNat_value_encode_word magic⟩

/-- An input that is too short for a magic number has none. -/
theorem eq_invalidMagic_of_readMagic {error : HeaderError}
    (h : readMagic (memory data position) = .error error source) : error = .invalidMagic none := by
  obtain ⟨error', hread, rfl⟩ := Reading.adaptExcept_eq_error.1 (Reading.map_eq_error.1 h)
  rw [Source.readExact_memory] at hread
  split at hread
  · cases hread
  · cases hread
    rfl

/-- An announced field is read like the field, and any other takes no bytes. -/
theorem readAnnounced_eq_ok_iff {α : Type} {announced : Bool} {field : Reading HeaderError α}
    {encode : α → List UInt8} {width : ℕ} {value : Option α} {h : value.isSome = announced}
    (hwidth : ∀ a, (encode a).length = width)
    (hfield : ∀ {a source}, field (memory data position) = .ok a source ↔
      data.HasAt position (encode a) ∧ source = memory data (position + width)) :
    readAnnounced announced field (memory data position) = .ok ⟨value, h⟩ source ↔
      data.HasAt position (value.elim [] encode) ∧
        source = memory data (position + (value.elim [] encode).length) := by
  subst h
  cases value with
  | none =>
    simp only [readAnnounced, Option.isSome_none]
    simp [Reading.pure_eq_ok, Bytes.hasAt_nil, eq_comm]
  | some a =>
    simp only [readAnnounced, Option.isSome_some, Option.elim_some, hwidth]
    rw [Reading.map_eq_ok]
    simp [hfield]

theorem readDescriptor_eq_ok_iff {descriptor : Descriptor} :
    readDescriptor (memory data position) = .ok descriptor source ↔
      data.HasAt position [descriptor.flags, descriptor.sizes] ∧
        source = memory data (position + 2) := by
  rw [← List.singleton_append, Bytes.hasAt_append, readDescriptor, Reading.bind_eq_ok]
  simp only [readByte_eq_ok_iff]
  constructor
  · rintro ⟨flags, _, ⟨hflags, rfl⟩, h⟩
    cases hallowed : Descriptor.flagsError? flags with
    | some error =>
      simp only [hallowed] at h
      exact absurd h Reading.throw_ne_ok
    | none =>
      simp only [hallowed] at h
      obtain ⟨sizes, _, hread, h⟩ := Reading.bind_eq_ok.1 h
      obtain ⟨hsizes, rfl⟩ := readByte_eq_ok_iff.1 hread
      cases hbytes : Descriptor.ofBytes flags sizes with
      | error error =>
        simp only [hbytes] at h
        exact absurd h Reading.throw_ne_ok
      | ok descriptor =>
        simp only [hbytes] at h
        obtain ⟨rfl, rfl⟩ := Reading.pure_eq_ok.1 h
        obtain ⟨rfl, rfl⟩ := Descriptor.ofBytes_eq_ok_iff.1 hbytes
        exact ⟨⟨hflags, hsizes⟩, rfl⟩
  · rintro ⟨⟨hflags, hsizes⟩, rfl⟩
    refine ⟨descriptor.flags, _, ⟨hflags, rfl⟩, ?_⟩
    have hbytes : Descriptor.ofBytes descriptor.flags descriptor.sizes = .ok descriptor :=
      Descriptor.ofBytes_eq_ok_iff.2 ⟨rfl, rfl⟩
    simp only [descriptor.flags_allowed]
    refine Reading.bind_eq_ok.2 ⟨descriptor.sizes, _, readByte_eq_ok_iff.2 ⟨hsizes, rfl⟩, ?_⟩
    rw [hbytes]
    rfl

theorem readFields_eq_ok_iff {header : Header} :
    readFields (memory data position) = .ok header source ↔
      data.HasAt position (header.fields ++ [header.checksum]) ∧
        source = memory data (position + (header.fields.length + 1)) := by
  have hlong : ∀ {descriptor : Descriptor} {p} {value : Option UInt64} {h source},
      readAnnounced descriptor.hasContentSize (UInt64.ofNat <$> readNumber 8 6 .contentSize)
        (memory data p) = .ok ⟨value, h⟩ source ↔ _ :=
    readAnnounced_eq_ok_iff (fun _ => Word.length_encode 8 _) readLong_eq_ok_iff
  have hword : ∀ {descriptor : Descriptor} {offset p} {value : Option UInt32} {h source},
      readAnnounced descriptor.hasDictionaryId
        (UInt32.ofNat <$> readNumber 4 offset .dictionaryId)
        (memory data p) = .ok ⟨value, h⟩ source ↔ _ :=
    readAnnounced_eq_ok_iff (fun _ => Word.length_encode 4 _) readWord_eq_ok_iff
  rw [fields, Bytes.hasAt_append, Bytes.hasAt_append, Bytes.hasAt_append, readFields,
    Reading.bind_eq_ok]
  constructor
  · rintro ⟨descriptor, _, hread₁, h⟩
    obtain ⟨⟨contentSize, hsize⟩, _, hread₂, h⟩ := Reading.bind_eq_ok.1 h
    obtain ⟨⟨dictionaryId, hid⟩, _, hread₃, h⟩ := Reading.bind_eq_ok.1 h
    obtain ⟨stored, _, hread₄, h⟩ := Reading.bind_eq_ok.1 h
    obtain ⟨hdescriptor, rfl⟩ := readDescriptor_eq_ok_iff.1 hread₁
    obtain ⟨hcontent, rfl⟩ := hlong.1 hread₂
    obtain ⟨hdictionary, rfl⟩ := hword.1 hread₃
    obtain ⟨hstored, rfl⟩ := readByte_eq_ok_iff.1 hread₄
    split at h
    next heq =>
      obtain ⟨rfl, rfl⟩ := Reading.pure_eq_ok.1 h
      subst heq
      refine ⟨⟨⟨⟨hdescriptor, hcontent⟩, ?_⟩, ?_⟩, ?_⟩
      · rwa [List.length_append, ← Nat.add_assoc]
      · rwa [List.length_append, List.length_append, ← Nat.add_assoc, ← Nat.add_assoc]
      · simp only [List.length_append, ← Nat.add_assoc]
        rfl
    · exact absurd h Reading.throw_ne_ok
  · rintro ⟨⟨⟨⟨hdescriptor, hcontent⟩, hdictionary⟩, hstored⟩, rfl⟩
    refine ⟨header.descriptor, _, readDescriptor_eq_ok_iff.2 ⟨hdescriptor, rfl⟩, ?_⟩
    refine Reading.bind_eq_ok.2 ⟨⟨header.contentSize, header.isSome_contentSize⟩, _,
      hlong.2 ⟨hcontent, rfl⟩, ?_⟩
    refine Reading.bind_eq_ok.2 ⟨⟨header.dictionaryId, header.isSome_dictionaryId⟩, _,
      hword.2 ⟨?_, rfl⟩, ?_⟩
    · rwa [List.length_append, ← Nat.add_assoc] at hdictionary
    refine Reading.bind_eq_ok.2 ⟨header.checksum, _, readByte_eq_ok_iff.2 ⟨?_, rfl⟩, ?_⟩
    · rwa [List.length_append, List.length_append, ← Nat.add_assoc, ← Nat.add_assoc] at hstored
    · rw [if_pos rfl, Reading.pure_eq_ok]
      refine ⟨rfl, ?_⟩
      simp only [List.length_append, ← Nat.add_assoc]
      rfl

/-! ### Headers -/

theorem length_eq (header : Header) : header.length = 4 + (header.fields.length + 1) := by
  rw [← length_encode, encode_eq]
  simp

/-- What lies behind a header. -/
theorem drop_length {header : Header} {bytes rest : List UInt8}
    (h : bytes = header.encode ++ rest) : bytes.drop header.length = rest := by
  rw [h, ← length_encode, List.drop_left]

/-- A header is read exactly where its bytes lie. -/
theorem read_memory_eq_ok_iff {header : Header} :
    read (memory data 0) = .ok header source ↔
      header.encode <+: data.toList ∧ source = memory data header.length := by
  have hmagic : Format.isSkippable Format.magic = false := by decide
  have hencode : header.encode <+: data.toList ↔
      data.HasAt 0 (Word.encode 4 Format.magic.toNat) ∧
        data.HasAt 4 (header.fields ++ [header.checksum]) := by
    rw [encode_eq, List.append_assoc]
    exact (Bytes.hasAt_append : data.HasAt 0 _ ↔ _)
  rw [hencode, read, Reading.bind_eq_ok, length_eq]
  simp only [readMagic_eq_ok_iff]
  constructor
  · rintro ⟨magic, _, ⟨hat, rfl⟩, h⟩
    split at h
    · obtain ⟨_, _, _, h⟩ := Reading.bind_eq_ok.1 h
      exact absurd h Reading.throw_ne_ok
    · split at h
      next heq =>
        subst heq
        obtain ⟨hfields, rfl⟩ := readFields_eq_ok_iff.1 h
        rw [Nat.zero_add] at hfields
        exact ⟨⟨hat, hfields⟩, by rw [Nat.zero_add]⟩
      · exact absurd h Reading.throw_ne_ok
  · rintro ⟨⟨hat, hfields⟩, rfl⟩
    refine ⟨Format.magic, _, ⟨hat, rfl⟩, ?_⟩
    rw [if_neg (by simp [hmagic]), if_pos rfl, readFields_eq_ok_iff]
    exact ⟨by rwa [Nat.zero_add], by rw [Nat.zero_add]⟩

end Header

end Lz4Frame
