import Lz4Frame.Proofs.Header

/-! The parts of a header: the fields behind its magic number, one behind the other. Reading takes
them in this order, and where the data ends within one of them, it names this one and the place
where it starts, `reads_readFields`. So a header is read back from its bytes, whatever follows them,
nothing else is read as a header, and a header that is cut short is reported by the part in which
the cut lies, `read_roundTrip`. -/

namespace Lz4Frame

/-- Parts of a frame one behind the other, each with its bytes. -/
abbrev Parts := List (Part × List UInt8)

namespace Parts

def bytes (parts : Parts) : List UInt8 := parts.flatMap Prod.snd

@[simp] theorem bytes_nil : bytes [] = [] := rfl

@[simp] theorem bytes_cons (first : Part × List UInt8) (parts : Parts) :
    bytes (first :: parts) = first.2 ++ bytes parts := rfl

@[simp] theorem bytes_append (front behind : Parts) :
    bytes (front ++ behind) = bytes front ++ bytes behind := List.flatMap_append

/-- From `offset` on, `part` is one of the parts. It starts at `start` and has these bytes. -/
inductive At : (offset : ℕ) → Parts → Part → (start : ℕ) → List UInt8 → Prop
  | first {offset : ℕ} {part : Part} {bytes : List UInt8} {parts : Parts} :
    At offset ((part, bytes) :: parts) part offset bytes
  | behind {offset : ℕ} {first : Part × List UInt8} {parts : Parts} {part : Part} {start : ℕ}
    {bytes : List UInt8} :
    At (offset + first.2.length) parts part start bytes → At offset (first :: parts) part start bytes

variable {offset start : ℕ} {part : Part} {bytes : List UInt8}

theorem le_start_of_at {parts : Parts} (h : At offset parts part start bytes) : offset ≤ start := by
  induction h with
  | first => exact Nat.le_refl _
  | behind _ ih => exact (Nat.le_add_right _ _).trans ih

/-- A part of two runs of parts is in the first or in the second of them. -/
theorem at_append {front behind : Parts} (h : At offset (front ++ behind) part start bytes) :
    At offset front part start bytes ∧ start + bytes.length ≤ offset + front.bytes.length ∨
      At (offset + front.bytes.length) behind part start bytes := by
  induction front generalizing offset with
  | nil => exact .inr h
  | cons first front ih =>
    cases h with
    | first =>
      refine .inl ⟨.first, ?_⟩
      rw [bytes_cons, List.length_append, ← Nat.add_assoc]
      exact Nat.le_add_right _ _
    | behind h =>
      rw [bytes_cons, List.length_append, ← Nat.add_assoc]
      exact (ih h).imp_left fun ⟨hfront, hend⟩ => ⟨.behind hfront, hend⟩

/-- Each byte of the parts lies in one of them. -/
theorem exists_at {parts : Parts} {k : ℕ} (hle : offset ≤ k)
    (hlt : k < offset + parts.bytes.length) :
    ∃ part start bytes, At offset parts part start bytes ∧ start ≤ k ∧ k < start + bytes.length := by
  induction parts generalizing offset with
  | nil => exact absurd hlt (Nat.not_lt.2 hle)
  | cons first parts ih =>
    rw [bytes_cons, List.length_append, ← Nat.add_assoc] at hlt
    by_cases hfirst : k < offset + first.2.length
    · exact ⟨first.1, offset, first.2, .first, hle, hfirst⟩
    · obtain ⟨part, start, bytes, hat, hstart⟩ := ih (Nat.not_lt.1 hfirst) hlt
      exact ⟨part, start, bytes, .behind hat, hstart⟩

end Parts

namespace Header

open Source (memory)

/-- The fields behind the magic number. -/
def parts (header : Header) : Parts :=
  [(.frameDescriptor, [header.descriptor.flags]), (.blockDescriptor, [header.descriptor.sizes])] ++
    (header.contentSize.elim [] fun size => [(.contentSize, Word.encode 8 size.toNat)]) ++
    (header.dictionaryId.elim [] fun id => [(.dictionaryId, Word.encode 4 id.toNat)]) ++
    [(.headerChecksum, [(XxHash32.digest header.fields >>> 8).toUInt8])]

theorem bytes_parts (header : Header) :
    header.parts.bytes = header.fields ++ [(XxHash32.digest header.fields >>> 8).toUInt8] := by
  obtain ⟨descriptor, contentSize, dictionaryId, hsize, hid⟩ := header
  cases contentSize <;> cases dictionaryId <;> simp [parts, fields]

theorem encode_eq_parts (header : Header) :
    header.encode = [0x04, 0x22, 0x4D, 0x18] ++ header.parts.bytes := by
  rw [bytes_parts, encode, List.append_assoc]

/-! ### Reading part by part -/

variable {α β : Type} {data : Bytes} {offset next : ℕ} {parts parts' : Parts}

/-- From `offset` on, `x` reads these parts and gives `a`. If the data ends within one of them, the
error names it. -/
structure Reads (x : Reading HeaderError α) (offset : ℕ) (parts : Parts) (a : α) : Prop where
  whole : ∀ {data}, data.HasAt offset parts.bytes →
    x (memory data offset) = .ok a (memory data (offset + parts.bytes.length))
  cut : ∀ {data part start bytes}, parts.At offset part start bytes →
    data.toList.drop offset <+: parts.bytes → start ≤ data.size →
    data.size < start + bytes.length →
    x (memory data offset) = .error (.unexpectedEnd start part) (memory data data.size)

namespace Reads

theorem pure (offset : ℕ) (a : α) : Reads (Pure.pure a) offset [] a where
  whole _ := rfl
  cut h := nomatch h

theorem map {x : Reading HeaderError α} {a : α} (hx : Reads x offset parts a) (f : α → β) :
    Reads (f <$> x) offset parts (f a) where
  whole hat := Reading.map_eq_ok.2 ⟨a, hx.whole hat, rfl⟩
  cut hpart hdata hle hlt := Reading.map_eq_error.2 (hx.cut hpart hdata hle hlt)

theorem bind {x : Reading HeaderError α} {f : α → Reading HeaderError β} {a : α} {b : β}
    (hx : Reads x offset parts a) (hnext : offset + parts.bytes.length = next)
    (hf : Reads (f a) next parts' b) : Reads (x >>= f) offset (parts ++ parts') b where
  whole hat := by
    subst hnext
    rw [Parts.bytes_append, Bytes.hasAt_append] at hat
    refine Reading.bind_eq_ok.2 ⟨a, _, hx.whole hat.1, ?_⟩
    rw [hf.whole hat.2, Parts.bytes_append, List.length_append, Nat.add_assoc]
  cut := by
    subst hnext
    intro data part start bytes hpart hdata hle hlt
    rw [Parts.bytes_append] at hdata
    have hlength : (data.toList.drop offset).length = data.size - offset := by simp
    obtain ⟨hfront, hend⟩ | hbehind := Parts.at_append hpart
    · -- the cut lies in what `x` reads
      refine Reading.bind_eq_error.2 (.inl (hx.cut hfront ?_ hle hlt))
      exact List.prefix_of_prefix_length_le hdata (List.prefix_append _ _) (by omega)
    · -- all that `x` reads is there
      have hstart := Parts.le_start_of_at hbehind
      have hat : parts.bytes <+: data.toList.drop offset :=
        List.prefix_of_prefix_length_le (List.prefix_append _ _) hdata (by omega)
      refine Reading.bind_eq_error.2 (.inr ⟨a, _, hx.whole hat, hf.cut hbehind ?_ hle hlt⟩)
      obtain ⟨rest, hrest⟩ := hat
      rw [← hrest, List.prefix_append_right_inj] at hdata
      rwa [← List.drop_drop, ← hrest, List.drop_left]

theorem readNumber (offset : ℕ) (part : Part) (bytes : List UInt8) :
    Reads (readNumber bytes.length offset part) offset [(part, bytes)] (Word.value bytes) where
  whole hat := by
    rw [Parts.bytes_cons, Parts.bytes_nil, List.append_nil] at hat ⊢
    exact readNumber_eq_ok_iff.2 ⟨bytes, rfl, hat, rfl, rfl⟩
  cut := by
    intro data part start bytes hpart _ hle hlt
    cases hpart with
    | behind h => cases h
    | first =>
      exact Reading.map_eq_error.2 (Reading.adaptExcept_eq_error.2
        ⟨.unexpectedEof, Source.readExact_memory_of_size_lt hle hlt, rfl⟩)

theorem readByte (offset : ℕ) (part : Part) (byte : UInt8) :
    Reads (UInt8.ofNat <$> Header.readNumber 1 offset part) offset [(part, [byte])] byte := by
  simpa [Word.value] using (readNumber offset part [byte]).map UInt8.ofNat

theorem readWord (offset : ℕ) (part : Part) (word : UInt32) :
    Reads (UInt32.ofNat <$> Header.readNumber 4 offset part) offset
      [(part, Word.encode 4 word.toNat)] word := by
  have h := (readNumber offset part (Word.encode 4 word.toNat)).map UInt32.ofNat
  rwa [Word.length_encode, Word.ofNat_value_encode_word] at h

theorem readLong (offset : ℕ) (part : Part) (long : UInt64) :
    Reads (UInt64.ofNat <$> Header.readNumber 8 offset part) offset
      [(part, Word.encode 8 long.toNat)] long := by
  have h := (readNumber offset part (Word.encode 8 long.toNat)).map UInt64.ofNat
  rwa [Word.length_encode, Word.ofNat_value_encode_long] at h

theorem readAnnounced {announced : Bool} {field : Reading HeaderError α} {part : α → Parts}
    (hfield : ∀ a, Reads field offset (part a) a) {value : Option α}
    (h : value.isSome = announced) :
    Reads (readAnnounced announced field) offset (value.elim [] part) ⟨value, h⟩ := by
  subst h
  cases value with
  | none => exact .pure offset _
  | some a => exact (hfield a).map _

end Reads

theorem reads_readDescriptor (descriptor : Descriptor) :
    Reads readDescriptor 4
      ([(.frameDescriptor, [descriptor.flags])] ++
        ([(.blockDescriptor, [descriptor.sizes])] ++ [])) descriptor := by
  refine .bind (Reads.readByte 4 .frameDescriptor descriptor.flags) rfl ?_
  simp only [descriptor.flags_allowed]
  refine .bind (Reads.readByte 5 .blockDescriptor descriptor.sizes) rfl ?_
  rw [Descriptor.ofBytes_eq_ok_iff.2 ⟨rfl, rfl⟩]
  exact .pure 6 descriptor

/-- The fields of a header are its parts. -/
theorem reads_readFields (header : Header) : Reads readFields 4 header.parts header := by
  have hsize : (Parts.bytes (header.contentSize.elim [] fun size =>
      [(.contentSize, Word.encode 8 size.toNat)])).length =
        header.descriptor.contentSizeSize := by
    rw [Descriptor.contentSizeSize, ← header.isSome_contentSize]
    cases header.contentSize <;> simp
  have hid : (Parts.bytes (header.dictionaryId.elim [] fun id =>
      [(.dictionaryId, Word.encode 4 id.toNat)])).length =
        header.descriptor.dictionaryIdSize := by
    rw [Descriptor.dictionaryIdSize, ← header.isSome_dictionaryId]
    cases header.dictionaryId <;> simp
  have hlength : header.length - 1 =
      6 + header.descriptor.contentSizeSize + header.descriptor.dictionaryIdSize := by
    rw [length, Format.minHeaderSize]
    omega
  have hstored : Reads (UInt8.ofNat <$> readNumber 1 (header.length - 1) .headerChecksum >>=
      fun stored => if stored = header.checksum then pure header
        else throw (.checksumMismatch stored header.checksum)) (header.length - 1)
      ([(.headerChecksum, [header.checksum])] ++ []) header := by
    refine .bind (Reads.readByte _ _ header.checksum) rfl ?_
    rw [if_pos rfl]
    exact .pure _ header
  rw [parts, List.append_assoc, List.append_assoc]
  refine .bind (reads_readDescriptor header.descriptor) rfl ?_
  refine .bind (Reads.readAnnounced (fun long => Reads.readLong 6 .contentSize long)
    header.isSome_contentSize) (congrArg (6 + ·) hsize) ?_
  refine .bind (Reads.readAnnounced (fun word => Reads.readWord _ .dictionaryId word)
    header.isSome_dictionaryId) ?_ hstored
  rw [hid, hlength]

/-! ### Headers -/

/-- Where not even the magic number is there, nothing is known to be a header. -/
theorem read_of_size_lt (h : data.size < 4) :
    read (memory data 0) = .error (.invalidMagic none) (memory data data.size) := by
  refine Reading.bind_eq_error.2 (.inl (Reading.map_eq_error.2 ?_))
  refine Reading.adaptExcept_eq_error.2 ⟨.unexpectedEof, ?_, rfl⟩
  exact Source.readExact_memory_of_size_lt (Nat.zero_le _) (by rwa [Nat.zero_add])

/-- A header that is cut short behind its magic number is reported by the part with the cut. -/
theorem read_of_cut {header : Header} {part : Part} {start : ℕ} {bytes : List UInt8}
    (hdata : data.toList <+: header.encode) (hmagic : 4 ≤ data.size)
    (hpart : header.parts.At 4 part start bytes) (hle : start ≤ data.size)
    (hlt : data.size < start + bytes.length) :
    read (memory data 0) = .error (.unexpectedEnd start part) (memory data data.size) := by
  rw [encode_eq_parts] at hdata
  have hfront : [0x04, 0x22, 0x4D, 0x18] <+: data.toList :=
    List.prefix_of_prefix_length_le (List.prefix_append _ _) hdata
      (by rwa [Array.length_toList])
  have hread : readMagic (memory data 0) = .ok Format.magic (memory data 4) :=
    readMagic_eq_ok_iff.2 ⟨hfront, rfl⟩
  refine Reading.bind_eq_error.2 (.inr ⟨Format.magic, _, hread, ?_⟩)
  rw [if_neg (by decide), if_pos rfl]
  refine (reads_readFields header).cut hpart ?_ hle hlt
  obtain ⟨rest, hrest⟩ := hfront
  rw [← hrest, List.prefix_append_right_inj] at hdata
  rw [← hrest]
  exact hdata

/-- There is a header for all that the format allows, and it is read back from its bytes, whatever
follows them, and only from there. If it is cut short, either there is no magic number, or the part
with the cut is named. -/
theorem read_roundTrip :
    (∀ (flags sizes : UInt8) (contentSize : Option UInt64) (dictionaryId : Option UInt32),
      Descriptor.Allowed flags sizes → contentSize.isSome = flags.toNat.testBit 3 →
        dictionaryId.isSome = flags.toNat.testBit 0 →
          ∃ header : Header, header.descriptor.flags = flags ∧ header.descriptor.sizes = sizes ∧
            header.contentSize = contentSize ∧ header.dictionaryId = dictionaryId) ∧
    (∀ (header : Header) (trailing : List UInt8),
      let input : Bytes := (header.encode ++ trailing).toArray
      header.encode = [0x04, 0x22, 0x4D, 0x18] ++ header.parts.bytes ∧
        header.length = header.encode.length ∧
        read { data := input } =
          .ok header { data := input, position := header.encode.length }) ∧
    (∀ (input : Bytes) (header : Header) (source : Source),
      read { data := input } = .ok header source →
        header.WellFormed ∧ header.length ≤ input.size ∧ (input.extract 0 header.length).toList = header.encode ∧
          source = { data := input, position := header.length }) ∧
    ∀ (header : Header) (k : ℕ), k < header.encode.length →
      let cut : Bytes := (header.encode.take k).toArray
      (k < 4 → read { data := cut } = .error (.invalidMagic none) { data := cut, position := k }) ∧
        (4 ≤ k →
          (∃ part start bytes, header.parts.At 4 part start bytes ∧
            start ≤ k ∧ k < start + bytes.length) ∧
          ∀ part start bytes, header.parts.At 4 part start bytes →
            start ≤ k → k < start + bytes.length →
              read { data := cut } =
                .error (.unexpectedEnd start part) { data := cut, position := k }) := by
  refine ⟨fun _ _ _ _ => exists_of_allowed, ?_, ?_, ?_⟩
  · intro header trailing input
    refine ⟨header.encode_eq_parts, header.length_encode.symm, ?_⟩
    rw [length_encode]
    exact read_memory_eq_ok_iff.2 ⟨List.prefix_append _ _, rfl⟩
  · intro input header source hread
    obtain ⟨hdata, rfl⟩ := read_memory_eq_ok_iff.1 hread
    have hle := hdata.length_le
    rw [length_encode, Array.length_toList] at hle
    refine ⟨header.wellFormed, hle, ?_, rfl⟩
    rw [Array.toList_extract, List.extract_eq_take_drop, List.drop_zero, Nat.sub_zero,
      ← length_encode, ← List.prefix_iff_eq_take.1 hdata]
  · intro header k hk cut
    have hsize : cut.size = k := by
      rw [List.size_toArray, List.length_take_of_le hk.le]
    have hdata : cut.toList <+: header.encode := List.take_prefix k _
    rw [encode_eq_parts, List.length_append] at hk
    refine ⟨fun hmagic => ?_, fun hmagic => ⟨Parts.exists_at hmagic hk, ?_⟩⟩
    · have hread : read (memory cut 0) = _ := read_of_size_lt (by rwa [hsize])
      rwa [hsize] at hread
    · intro part start bytes hpart hle hlt
      have hread : read (memory cut 0) = _ := read_of_cut hdata (by rwa [hsize]) hpart
        (by rwa [hsize]) (by rwa [hsize])
      rwa [hsize] at hread

/-- A header with both optional fields. -/
def announcing : Header where
  descriptor := ⟨0x49, 0x70, by decide, by decide⟩
  contentSize := some 5
  dictionaryId := some 7
  isSome_contentSize := by decide
  isSome_dictionaryId := by decide

/-- Its bytes are found in front of another one, and not with a zero in place of their hash. Cut
within the dictionary id, they are reported by that part. -/
theorem read_roundTrip_announcing :
    let fields : List UInt8 := [0x04, 0x22, 0x4D, 0x18, 0x49, 0x70, 0x05, 0x00, 0x00, 0x00, 0x00,
      0x00, 0x00, 0x00, 0x07, 0x00, 0x00, 0x00]
    let input : Bytes := (fields ++ [0xA5, 0xFF]).toArray
    let cut (k : ℕ) : Bytes := (fields.take k).toArray
    read { data := input } = .ok announcing { data := input, position := 19 } ∧
      read.run' { data := (fields ++ [0x00, 0xFF]).toArray } = none ∧
      read { data := cut 3 } = .error (.invalidMagic none) { data := cut 3, position := 3 } ∧
      read { data := cut 15 } =
        .error (.unexpectedEnd 14 .dictionaryId) { data := cut 15, position := 15 } := by
  intro fields input cut
  obtain ⟨-, hread, hencode, hcut⟩ := read_roundTrip
  have hfields : announcing.encode = fields ++ [0xA5] := by decide +kernel
  have hinput : input = (announcing.encode ++ [0xFF]).toArray := by
    rw [hfields, List.append_assoc]
    rfl
  have hlength : announcing.encode.length = 19 := by decide
  have htake : ∀ k ≤ 18, cut k = (announcing.encode.take k).toArray := by
    intro k hk
    rw [hfields, List.take_append_of_le_length hk]
  refine ⟨?_, ?_, ?_, ?_⟩
  · rw [hinput, (hread announcing [0xFF]).2.2, hlength]
  · decide +kernel
  · rw [htake 3 (by decide)]
    exact (hcut announcing 3 (by decide)).1 (by decide)
  · obtain ⟨-, hparts⟩ := (hcut announcing 15 (by decide)).2 (by decide)
    have hpart : announcing.parts.At 4 .dictionaryId 14 (Word.encode 4 7) :=
      .behind (.behind (.behind .first))
    rw [htake 15 (by decide)]
    exact hparts _ _ _ hpart (by decide) (by decide)

end Header

end Lz4Frame
