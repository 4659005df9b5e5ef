import Lz4Frame.Proofs.Header.Fields

/-! An input that ends within a header is the start of one: whatever bytes its optional fields still
lack, they may have any value, and the checksum comes last, `Header.exists_of_read`. -/

namespace Lz4Frame

namespace Header

open Source (memory)

/-! ### Fields of any value -/

/-- If every field of a width can be written, so can every field that may be lacking. -/
theorem exists_elim_eq {α : Type} {encode : α → List UInt8} {width : ℕ}
    (hencode : ∀ bytes : List UInt8, bytes.length = width → ∃ a, encode a = bytes)
    {announced : Bool} {bytes : List UInt8}
    (h : bytes.length = if announced then width else 0) :
    ∃ value : Option α, value.isSome = announced ∧ value.elim [] encode = bytes := by
  cases announced with
  | true =>
    obtain ⟨a, ha⟩ := hencode bytes h
    exact ⟨some a, rfl, ha⟩
  | false => exact ⟨none, rfl, (List.length_eq_zero_iff.1 h).symm⟩

/-- Any bytes that are as many as a descriptor announces are the optional fields of a header. -/
theorem exists_fields_eq {descriptor : Descriptor} {bytes : List UInt8}
    (h : bytes.length = descriptor.contentSizeSize + descriptor.dictionaryIdSize) :
    ∃ header : Header, header.fields = [descriptor.flags, descriptor.sizes] ++ bytes := by
  obtain ⟨front, behind, rfl, hfront⟩ : ∃ front behind, bytes = front ++ behind ∧
      front.length = descriptor.contentSizeSize :=
    ⟨_, _, (List.take_append_drop _ bytes).symm, List.length_take_of_le (by omega)⟩
  rw [List.length_append, hfront, Nat.add_right_inj] at h
  have hlong : ∀ bytes : List UInt8, bytes.length = 8 →
      ∃ long : UInt64, Word.encode 8 long.toNat = bytes :=
    fun _ hlength => ⟨_, Word.encode_ofNat_value_long hlength⟩
  have hword : ∀ bytes : List UInt8, bytes.length = 4 →
      ∃ word : UInt32, Word.encode 4 word.toNat = bytes :=
    fun _ hlength => ⟨_, Word.encode_ofNat_value_word hlength⟩
  obtain ⟨contentSize, hsize, hcontent⟩ := exists_elim_eq hlong hfront
  obtain ⟨dictionaryId, hid, hdictionary⟩ := exists_elim_eq hword h
  refine ⟨⟨descriptor, contentSize, dictionaryId, hsize, hid⟩, ?_⟩
  rw [fields, hcontent, hdictionary, List.append_assoc]

/-- Fewer bytes than a descriptor announces are the start of the optional fields. -/
theorem exists_prefix_fields {descriptor : Descriptor} {bytes : List UInt8}
    (h : bytes.length ≤ descriptor.contentSizeSize + descriptor.dictionaryIdSize) :
    ∃ header : Header, [descriptor.flags, descriptor.sizes] ++ bytes <+: header.fields := by
  obtain ⟨lacking, hlacking⟩ := Nat.exists_eq_add_of_le h
  have hlength : (bytes ++ List.replicate lacking 0).length =
      descriptor.contentSizeSize + descriptor.dictionaryIdSize := by
    rw [List.length_append, List.length_replicate, hlacking]
  obtain ⟨header, hheader⟩ := exists_fields_eq hlength
  refine ⟨header, List.replicate lacking 0, ?_⟩
  rw [hheader, List.append_assoc]

/-! ### Errors that more bytes mend -/

variable {data : Bytes} {position offset : ℕ} {part : Part} {source : Source}

/-- Where not even one byte is left, there is nothing to go on with. -/
theorem drop_eq_nil_of_size_lt (h : data.size < position + 1) : data.toList.drop position = [] :=
  List.drop_eq_nil_of_le (by rw [Array.length_toList]; omega)

theorem exists_of_readDescriptor
    (h : readDescriptor (memory data position) = .error (.unexpectedEnd offset part) source) :
    ∃ descriptor : Descriptor,
      data.toList.drop position <+: [descriptor.flags, descriptor.sizes] := by
  obtain hflags | ⟨flags, _, hflags, h⟩ := Reading.bind_eq_error.1 h
  · obtain ⟨-, hsize⟩ := readNumber_eq_error (Reading.map_eq_error.1 hflags)
    rw [drop_eq_nil_of_size_lt hsize]
    exact ⟨⟨0x40, 0x40, by decide, by decide⟩, List.nil_prefix⟩
  obtain ⟨⟨rest, hrest⟩, rfl⟩ := readByte_eq_ok_iff.1 hflags
  cases hallowed : Descriptor.flagsError? flags with
  | some error =>
    simp only [hallowed] at h
    obtain ⟨rfl, -⟩ := Reading.throw_eq_error.1 h
    exact (Descriptor.isMistake_of_flagsError? hallowed).elim
  | none =>
    simp only [hallowed] at h
    obtain hsizes | ⟨sizes, _, -, h⟩ := Reading.bind_eq_error.1 h
    · obtain ⟨-, hsize⟩ := readNumber_eq_error (Reading.map_eq_error.1 hsizes)
      have hnil : rest = [] := by
        rw [← drop_eq_nil_of_size_lt hsize, ← List.drop_drop, ← hrest]
        rfl
      refine ⟨⟨flags, 0x40, hallowed, by decide⟩, [0x40], ?_⟩
      rw [← hrest, hnil]
      rfl
    · cases hbytes : Descriptor.ofBytes flags sizes with
      | error error =>
        simp only [hbytes] at h
        obtain ⟨rfl, -⟩ := Reading.throw_eq_error.1 h
        exact (Descriptor.isMistake_of_ofBytes hbytes).elim
      | ok descriptor =>
        simp only [hbytes] at h
        cases h

/-- An announced field that cannot be read is announced. -/
theorem readAnnounced_eq_error {α : Type} {announced : Bool} {field : Reading HeaderError α}
    {error : HeaderError} {source source' : Source}
    (h : readAnnounced announced field source = .error error source') :
    announced = true ∧ field source = .error error source' := by
  cases announced with
  | true => exact ⟨rfl, Reading.map_eq_error.1 h⟩
  | false => cases h

/-- Where the field behind an announced field starts. -/
theorem source_of_readAnnounced {α : Type} {announced : Bool} {field : Reading HeaderError α}
    {width : ℕ} {value : { value : Option α // value.isSome = announced }}
    (hfield : ∀ {a source}, field (memory data position) = .ok a source →
      source = memory data (position + width))
    (h : readAnnounced announced field (memory data position) = .ok value source) :
    source = memory data (position + if announced then width else 0) := by
  cases announced with
  | true =>
    obtain ⟨a, hread, -⟩ := Reading.map_eq_ok.1 h
    exact hfield hread
  | false => exact (Reading.pure_eq_ok.1 h).2.symm

/-- The fields behind the magic number are the start of those of a header if they end too early. -/
theorem exists_of_readFields
    (h : readFields (memory data position) = .error (.unexpectedEnd offset part) source) :
    ∃ header : Header, data.toList.drop position <+: header.fields := by
  obtain hdescriptor | ⟨descriptor, _, hdescriptor, h⟩ := Reading.bind_eq_error.1 h
  · obtain ⟨descriptor, hprefix⟩ := exists_of_readDescriptor hdescriptor
    obtain ⟨header, hheader⟩ := exists_prefix_fields (show ([] : List UInt8).length ≤
      descriptor.contentSizeSize + descriptor.dictionaryIdSize from Nat.zero_le _)
    exact ⟨header, hprefix.trans ((List.prefix_append _ []).trans hheader)⟩
  obtain ⟨⟨rest, hrest⟩, rfl⟩ := readDescriptor_eq_ok_iff.1 hdescriptor
  -- whichever field is cut short, the byte of the checksum is not there
  have hsize : data.size ≤
      position + 2 + descriptor.contentSizeSize + descriptor.dictionaryIdSize := by
    unfold Descriptor.contentSizeSize Descriptor.dictionaryIdSize
    obtain hcontent | ⟨contentSize, _, hcontent, h⟩ := Reading.bind_eq_error.1 h
    · obtain ⟨hannounced, hread⟩ := readAnnounced_eq_error hcontent
      obtain ⟨-, hlt⟩ := readNumber_eq_error (Reading.map_eq_error.1 hread)
      rw [if_pos hannounced]
      omega
    obtain rfl := source_of_readAnnounced (fun hread => (readLong_eq_ok_iff.1 hread).2) hcontent
    obtain hdictionary | ⟨dictionaryId, _, hdictionary, h⟩ := Reading.bind_eq_error.1 h
    · obtain ⟨hannounced, hread⟩ := readAnnounced_eq_error hdictionary
      obtain ⟨-, hlt⟩ := readNumber_eq_error (Reading.map_eq_error.1 hread)
      rw [if_pos hannounced]
      omega
    obtain rfl := source_of_readAnnounced (fun hread => (readWord_eq_ok_iff.1 hread).2) hdictionary
    obtain hstored | ⟨stored, _, -, h⟩ := Reading.bind_eq_error.1 h
    · obtain ⟨-, hlt⟩ := readNumber_eq_error (Reading.map_eq_error.1 hstored)
      omega
    · split at h
      · cases h
      · cases (Reading.throw_eq_error.1 h).1
  have hlength : rest.length ≤ descriptor.contentSizeSize + descriptor.dictionaryIdSize := by
    have hdrop := congrArg List.length hrest
    simp only [List.length_append, List.length_cons, List.length_nil, List.length_drop,
      Array.length_toList] at hdrop
    omega
  obtain ⟨header, hheader⟩ := exists_prefix_fields hlength
  exact ⟨header, hrest ▸ hheader⟩

/-- An input that ends within a header is the start of one. -/
theorem exists_of_read
    (h : read (memory data 0) = .error (.unexpectedEnd offset part) source)
    (hpart : part ≠ .skippableFrameSize) : ∃ header : Header, data.toList <+: header.encode := by
  obtain hmagic | ⟨magic, _, hmagic, h⟩ := Reading.bind_eq_error.1 h
  · cases eq_invalidMagic_of_readMagic hmagic
  obtain ⟨⟨rest, hrest⟩, rfl⟩ := readMagic_eq_ok_iff.1 hmagic
  split_ifs at h with hskippable heq
  · obtain hsize | ⟨size, _, -, h⟩ := Reading.bind_eq_error.1 h
    · cases (readNumber_eq_error hsize).1
      exact absurd rfl hpart
    · cases (Reading.throw_eq_error.1 h).1
  · obtain ⟨header, hheader⟩ := exists_of_readFields h
    refine ⟨header, ?_⟩
    rw [List.drop_zero] at hrest
    rw [← hrest, List.drop_left' (Word.length_encode 4 _)] at hheader
    rw [← hrest, heq, encode_eq, List.append_assoc, List.prefix_append_right_inj]
    exact hheader.trans (List.prefix_append _ _)
  · cases (Reading.throw_eq_error.1 h).1

end Header

end Lz4Frame
