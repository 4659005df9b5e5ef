import Lz4Frame.Proofs.Layout.Truncation
import Lz4Frame.Proofs.Scan.Inverse
import Lz4Frame.Proofs.XxHash32

/-! The scan does not look at bodies. Inputs that differ within one body only have the same blocks
at the same offsets, and each other block has the same body in both, `scan_of_agreeOutside`. -/

namespace Lz4Frame

open BlockLayout (encodeAll encodeAll_append encodeAll_cons locateAll locateAll_append)

/-! ### Inputs that agree -/

namespace Bytes

/-- Two byte strings of the same size that may differ from `start` to `stop` only. -/
structure AgreeOutside (start stop : ℕ) (data data' : Bytes) : Prop where
  size_eq : data'.size = data.size
  getElem?_eq : ∀ position, position < start ∨ stop ≤ position → data'[position]? = data[position]?

namespace AgreeOutside

variable {start stop : ℕ} {data data' : Bytes}

theorem setIfInBounds {position : ℕ} (hle : start ≤ position) (hlt : position < stop)
    (data : Bytes) (byte : UInt8) :
    data.AgreeOutside start stop (data.setIfInBounds position byte) := by
  refine ⟨Array.size_setIfInBounds, fun other hother => ?_⟩
  rw [Array.getElem?_setIfInBounds_ne (by omega)]

theorem take_eq (h : data.AgreeOutside start stop data') :
    data'.toList.take start = data.toList.take start := by
  apply List.ext_getElem?
  intro i
  rw [List.getElem?_take, List.getElem?_take]
  split_ifs with hi
  · rw [Array.getElem?_toList, Array.getElem?_toList, h.getElem?_eq i (.inl hi)]
  · rfl

theorem drop_eq (h : data.AgreeOutside start stop data') :
    data'.toList.drop stop = data.toList.drop stop := by
  apply List.ext_getElem?
  intro i
  rw [List.getElem?_drop, List.getElem?_drop, Array.getElem?_toList, Array.getElem?_toList,
    h.getElem?_eq _ (.inr (Nat.le_add_right stop i))]

/-- The part from `start` to `stop` is another one of the same size. -/
theorem exists_toList_eq (h : data.AgreeOutside start stop data') {front back : List UInt8}
    {part : Bytes} (hdata : data.toList = front ++ (part.toList ++ back))
    (hstart : front.length = start) (hstop : start + part.size = stop) :
    ∃ part' : Bytes, part'.size = part.size ∧ data'.toList = front ++ (part'.toList ++ back) := by
  have hsize := congrArg List.length hdata
  simp only [List.length_append, Array.length_toList] at hsize
  have hfront : data'.toList.take start = front := by
    rw [h.take_eq, hdata, ← hstart, List.take_left]
  have hback : data'.toList.drop stop = back := by
    rw [h.drop_eq, hdata, ← hstop, ← hstart, ← List.drop_drop, List.drop_left,
      ← Array.length_toList, List.drop_left]
  refine ⟨((data'.toList.drop start).take part.size).toArray, ?_, ?_⟩
  · have := h.size_eq
    simp
    omega
  · have hbehind : data'.toList.drop start =
        (data'.toList.drop start).take part.size ++ data'.toList.drop stop := by
      rw [← hstop, ← List.drop_drop, List.take_append_drop]
    rw [List.toList_toArray, ← hfront, ← hback, ← hbehind, List.take_append_drop]

end AgreeOutside

end Bytes

/-! ### Layouts with another body -/

namespace BlockLayout

/-- The block with another body of the same size. -/
def withBody (block : BlockLayout) (body : Bytes) (h : body.size = block.body.size) :
    BlockLayout where
  kind := block.kind
  body := body
  checksum := block.checksum
  size_lt := h ▸ block.size_lt
  size_pos := h ▸ block.size_pos

section WithBody

variable {block : BlockLayout} {body : Bytes} (h : body.size = block.body.size)

theorem word_withBody : (block.withBody body h).word = block.word := by
  unfold word
  rw [show (block.withBody body h).body.size = block.body.size from h]
  rfl

theorem encode_withBody :
    (block.withBody body h).encode =
      Word.encode 4 block.word ++ body.toList ++ Word.encodeOptional block.checksum := by
  rw [encode, word_withBody]
  rfl

theorem locate_withBody (index offset : ℕ) :
    (block.withBody body h).locate index offset = block.locate index offset := by
  unfold locate
  rw [show (block.withBody body h).body.size = block.body.size from h]
  rfl

theorem length_encode_withBody :
    (block.withBody body h).encode.length = block.encode.length := by
  rw [length_encode, length_encode, show (block.withBody body h).body.size = block.body.size from h]
  rfl

/-- Other bodies, other bytes, but the same blocks. -/
theorem locateAll_set_withBody {blocks : List BlockLayout} {i : ℕ} (hblock : blocks[i]? = some block)
    (index offset : ℕ) :
    locateAll index offset (blocks.set i (block.withBody body h)) =
      locateAll index offset blocks := by
  induction blocks generalizing i index offset with
  | nil => rfl
  | cons first blocks ih =>
    cases i with
    | zero =>
      cases hblock
      simp only [List.set_cons_zero, locateAll, locate_withBody, length_encode_withBody]
    | succ i => simp only [List.set_cons_succ, locateAll, ih hblock]

theorem length_encodeAll_set_withBody {blocks : List BlockLayout} {i : ℕ}
    (hblock : blocks[i]? = some block) :
    (encodeAll (blocks.set i (block.withBody body h))).length = (encodeAll blocks).length := by
  induction blocks generalizing i with
  | nil => rfl
  | cons first blocks ih =>
    cases i with
    | zero =>
      cases hblock
      simp only [List.set_cons_zero, encodeAll_cons, List.length_append, length_encode_withBody]
    | succ i => simp only [List.set_cons_succ, encodeAll_cons, List.length_append, ih hblock]

end WithBody

theorem getElem?_locateAll_eq {blocks : List BlockLayout} {i : ℕ} {block : BlockLayout}
    (hblock : blocks[i]? = some block) (index offset : ℕ) :
    (locateAll index offset blocks)[i]? =
      some (block.locate (index + i) (offset + (encodeAll (blocks.take i)).length)) := by
  induction blocks generalizing i index offset with
  | nil => cases hblock
  | cons first blocks ih =>
    cases i with
    | zero =>
      cases hblock
      rfl
    | succ i =>
      rw [locateAll, List.getElem?_cons_succ, ih hblock, List.take_succ_cons, encodeAll_cons,
        List.length_append, Nat.add_assoc index, Nat.add_comm 1, ← Nat.add_assoc offset]

/-- Each block that is located was written. -/
theorem exists_of_getElem?_locateAll {blocks : List BlockLayout} {index offset i : ℕ}
    {block : Block} (h : (locateAll index offset blocks)[i]? = some block) :
    ∃ written, blocks[i]? = some written ∧
      block = written.locate (index + i) (offset + (encodeAll (blocks.take i)).length) := by
  have hi := (List.getElem?_eq_some_iff.1 h).1
  rw [length_locateAll] at hi
  have hwritten := List.getElem?_eq_getElem hi
  rw [getElem?_locateAll_eq hwritten, Option.some_inj] at h
  exact ⟨blocks[i], hwritten, h.symm⟩

/-- The bytes around a body among the bytes of all blocks. -/
theorem encodeAll_set_withBody {blocks : List BlockLayout} {i : ℕ} {block : BlockLayout}
    (hblock : blocks[i]? = some block) {body : Bytes} (h : body.size = block.body.size) :
    encodeAll (blocks.set i (block.withBody body h)) =
      encodeAll (blocks.take i) ++ Word.encode 4 block.word ++
        (body.toList ++
          (Word.encodeOptional block.checksum ++ encodeAll (blocks.drop (i + 1)))) := by
  have hi := (List.getElem?_eq_some_iff.1 hblock).1
  rw [List.set_eq_take_append_cons_drop, if_pos hi, encodeAll_append, encodeAll_cons,
    encode_withBody]
  simp only [List.append_assoc]

end BlockLayout

/-! ### Inputs -/

/-- What a scan finds of a frame was written there. -/
theorem exists_layouts_of_scan {input : Bytes} {frame : Frame}
    (h : (Id.run (scan (pure false) input)).frame = some frame) :
    ∃ blocks rest, frame.blocks = locateAll 0 frame.header.length blocks ∧
      (∀ block ∈ blocks, block.checksum.isSome = frame.header.descriptor.hasBlockChecksums) ∧
      input.toList = frame.header.encode ++ (encodeAll blocks ++ rest) := by
  by_cases hheader : ∃ header : Header, header.encode <+: input.toList
  · obtain ⟨header, hheader⟩ := hheader
    obtain ⟨behind, hbehind⟩ := hheader
    have hdrop := Header.drop_length hbehind.symm
    obtain ⟨rest, hrest, -, hall⟩ := Remainder.exists_rest header.descriptor behind
    rw [scan_of_header ⟨behind, hbehind⟩, hdrop] at h
    obtain ⟨hheader, hblocks⟩ := Remainder.eq_of_frame_outcome h
    rw [hheader]
    exact ⟨_, rest, hblocks, hall, by rw [← hrest, hbehind]⟩
  · obtain ⟨error, hscan⟩ := scan_of_not_header (not_exists.1 hheader)
    rw [hscan] at h
    cases h

/-- Where the blocks are the same but for their bodies, the scan finds the same. -/
theorem scan_of_locateAll_eq {input input' : Bytes} {header : Header}
    {blocks blocks' : List BlockLayout} {rest : List UInt8}
    (hinput : input.toList = header.encode ++ (encodeAll blocks ++ rest))
    (hinput' : input'.toList = header.encode ++ (encodeAll blocks' ++ rest))
    (hall : ∀ block ∈ blocks, block.checksum.isSome = header.descriptor.hasBlockChecksums)
    (hall' : ∀ block ∈ blocks', block.checksum.isSome = header.descriptor.hasBlockChecksums)
    (hlocate : ∀ index offset, locateAll index offset blocks' = locateAll index offset blocks)
    (hlength : (encodeAll blocks').length = (encodeAll blocks).length) :
    Id.run (scan (pure false) input') = Id.run (scan (pure false) input) := by
  have hcount : blocks'.length = blocks.length := by
    rw [← BlockLayout.length_locateAll 0 0, hlocate, BlockLayout.length_locateAll]
  rw [scan_of_header ⟨_, hinput.symm⟩, scan_of_header ⟨_, hinput'.symm⟩, hinput, hinput',
    ← Header.length_encode, List.drop_left, List.drop_left, Remainder.read_encodeAll_append hall,
    Remainder.read_encodeAll_append hall']
  simp only [Remainder.outcome, locateAll_append, encodeAll_append, List.length_append, hlocate,
    hlength, hcount]

theorem Bytes.getElem?_of_slice? {data part : Bytes} {start count : ℕ}
    (h : data.slice? start count = some part) {k : ℕ} (hk : k < count) :
    data[start + k]? = part[k]? := by
  obtain ⟨hle, rfl⟩ := slice?_eq_some_iff.1 h
  rw [Array.getElem?_extract, if_pos (by omega)]

theorem BlockLayout.body_of_getElem? {input : Bytes} {blocks : List BlockLayout}
    {rest : List UInt8} {offset i : ℕ} {block : Block} {written : BlockLayout}
    (h : input.toList.drop offset = encodeAll blocks ++ rest)
    (hblock : (locateAll 0 offset blocks)[i]? = some block) (hwritten : blocks[i]? = some written) :
    block.body input = written.body := by
  obtain ⟨position, behind, rfl, hposition⟩ := getElem?_locateAll h hblock hwritten
  exact body_locate _ hposition

/-- Blocks are numbered from zero, and all of them have a checksum, or none. -/
theorem index_of_scan {input : Bytes} {frame : Frame} {i : ℕ} {block : Block}
    (hscan : (Id.run (scan (pure false) input)).frame = some frame)
    (hblock : frame.blocks[i]? = some block) :
    block.index = i ∧ block.checksum.isSome = frame.header.descriptor.hasBlockChecksums := by
  obtain ⟨blocks, rest, hblocks, hall, -⟩ := exists_layouts_of_scan hscan
  rw [hblocks] at hblock
  obtain ⟨written, hwritten, rfl⟩ := BlockLayout.exists_of_getElem?_locateAll hblock
  exact ⟨Nat.zero_add i, hall written (List.mem_of_getElem? hwritten)⟩

/-- The body of a block that was found lies in the input. -/
theorem slice?_of_scan {input : Bytes} {frame : Frame} {i : ℕ} {block : Block}
    (hscan : (Id.run (scan (pure false) input)).frame = some frame)
    (hblock : frame.blocks[i]? = some block) :
    input.slice? block.bodyOffset block.size = some (block.body input) := by
  obtain ⟨blocks, rest, hblocks, -, hinput⟩ := exists_layouts_of_scan hscan
  have hdrop := Header.drop_length hinput
  rw [hblocks] at hblock
  obtain ⟨written, hwritten, -⟩ := BlockLayout.exists_of_getElem?_locateAll hblock
  rw [BlockLayout.body_of_getElem? hdrop hblock hwritten]
  obtain ⟨position, behind, rfl, hposition⟩ := BlockLayout.getElem?_locateAll hdrop hblock hwritten
  exact BlockLayout.slice?_locate _ hposition

section Change

variable {input input' : Bytes} {frame : Frame} {i : ℕ} {block : Block}

/-- An input with another body in one place has a layout again. -/
theorem exists_layouts_of_agreeOutside
    (hscan : (Id.run (scan (pure false) input)).frame = some frame)
    (hblock : frame.blocks[i]? = some block)
    (hagree : input.AgreeOutside block.bodyOffset block.bodyEnd input') :
    ∃ blocks rest written body, ∃ h : body.size = written.body.size,
      frame.blocks = locateAll 0 frame.header.length blocks ∧
      (∀ block ∈ blocks, block.checksum.isSome = frame.header.descriptor.hasBlockChecksums) ∧
      input.toList = frame.header.encode ++ (encodeAll blocks ++ rest) ∧
      blocks[i]? = some written ∧
      input'.toList =
        frame.header.encode ++ (encodeAll (blocks.set i (written.withBody body h)) ++ rest) := by
  obtain ⟨blocks, rest, hblocks, hall, hinput⟩ := exists_layouts_of_scan hscan
  rw [hblocks] at hblock
  obtain ⟨written, hwritten, rfl⟩ := BlockLayout.exists_of_getElem?_locateAll hblock
  have hself : blocks.set i (written.withBody written.body rfl) = blocks := by
    obtain ⟨hi, rfl⟩ := List.getElem?_eq_some_iff.1 hwritten
    exact List.set_getElem_self hi
  have hparts : input.toList =
      (frame.header.encode ++ (encodeAll (blocks.take i) ++ Word.encode 4 written.word)) ++
        (written.body.toList ++
          (Word.encodeOptional written.checksum ++ encodeAll (blocks.drop (i + 1)) ++ rest)) := by
    rw [hinput]
    conv_lhs => rw [← hself]
    rw [BlockLayout.encodeAll_set_withBody hwritten]
    simp only [List.append_assoc]
  obtain ⟨body, hsize, hinput'⟩ := hagree.exists_toList_eq hparts
    (by simp [BlockLayout.locate, Header.length_encode, Format.wordSize]; omega) rfl
  refine ⟨blocks, rest, written, body, hsize, hblocks, hall, hinput, hwritten, ?_⟩
  rw [hinput', BlockLayout.encodeAll_set_withBody hwritten]
  simp only [List.append_assoc]

/-- What lies within a body makes no difference to the scan or to another body. -/
theorem scan_of_agreeOutside (hscan : (Id.run (scan (pure false) input)).frame = some frame)
    (hblock : frame.blocks[i]? = some block)
    (hagree : input.AgreeOutside block.bodyOffset block.bodyEnd input') :
    Id.run (scan (pure false) input') = Id.run (scan (pure false) input) ∧
      ∀ (j : ℕ) (other : Block), frame.blocks[j]? = some other → j ≠ i →
        other.body input' = other.body input := by
  obtain ⟨blocks, rest, written, body, hsize, hblocks, hall, hinput, hwritten, hinput'⟩ :=
    exists_layouts_of_agreeOutside hscan hblock hagree
  have hlocate : ∀ index offset,
      locateAll index offset (blocks.set i (written.withBody body hsize)) =
        locateAll index offset blocks :=
    BlockLayout.locateAll_set_withBody _ hwritten
  have hall' : ∀ block ∈ blocks.set i (written.withBody body hsize),
      block.checksum.isSome = frame.header.descriptor.hasBlockChecksums := by
    intro block' hmem
    rcases List.mem_or_eq_of_mem_set hmem with hmem | rfl
    · exact hall block' hmem
    · exact hall written (List.mem_of_getElem? hwritten)
  refine ⟨scan_of_locateAll_eq hinput hinput' hall hall' hlocate
    (BlockLayout.length_encodeAll_set_withBody _ hwritten), fun j other hother hij => ?_⟩
  rw [hblocks] at hother
  obtain ⟨layout, hlayout, -⟩ := BlockLayout.exists_of_getElem?_locateAll hother
  have hset : (blocks.set i (written.withBody body hsize))[j]? = some layout := by
    rw [List.getElem?_set_ne (Ne.symm hij), hlayout]
  rw [BlockLayout.body_of_getElem? (Header.drop_length hinput) hother hlayout,
    BlockLayout.body_of_getElem? (Header.drop_length hinput') (by rwa [hlocate]) hset]

/-- A changed byte of a body changes nothing else. -/
theorem scan_setByte {position : ℕ} {byte : UInt8}
    (hscan : (Id.run (scan (pure false) input)).frame = some frame)
    (hblock : frame.blocks[i]? = some block) (hle : block.bodyOffset ≤ position)
    (hlt : position < block.bodyEnd) (hbyte : input[position]? ≠ some byte) :
    let changed := input.setIfInBounds position byte
    Id.run (scan (pure false) changed) = Id.run (scan (pure false) input) ∧
      DifferOnce (block.body input).toList (block.body changed).toList ∧
      ∀ (j : ℕ) (other : Block), frame.blocks[j]? = some other → j ≠ i →
        other.body changed = other.body input := by
  intro changed
  obtain ⟨hsame, hothers⟩ := scan_of_agreeOutside hscan hblock (.setIfInBounds hle hlt input byte)
  refine ⟨hsame, ?_, hothers⟩
  have hscan' : (Id.run (scan (pure false) changed)).frame = some frame := by
    rw [hsame, hscan]
  have hslice := slice?_of_scan hscan hblock
  obtain ⟨hend, hbody⟩ := Bytes.slice?_eq_some_iff.1 hslice
  obtain ⟨-, hbody'⟩ := Bytes.slice?_eq_some_iff.1 (slice?_of_scan hscan' hblock)
  obtain ⟨k, rfl⟩ := Nat.exists_eq_add_of_le hle
  have hk : k < block.size := Nat.lt_of_add_lt_add_left hlt
  have hlength : k < (block.body input).toList.length := by
    rw [← hbody, Array.length_toList, Array.size_extract]
    omega
  have hset : (block.body changed).toList = (block.body input).toList.set k byte := by
    rw [← hbody, ← hbody', Array.toList_extract, Array.toList_extract,
      Array.toList_setIfInBounds, List.extract_eq_take_drop, List.extract_eq_take_drop,
      List.drop_set, if_neg (by omega), Nat.add_sub_cancel_left, Nat.add_sub_cancel_left,
      List.take_set]
  rw [hset]
  refine .set hlength fun heq => hbyte ?_
  rw [Bytes.getElem?_of_slice? hslice hk, ← Array.getElem?_toList, List.getElem?_eq_getElem hlength,
    heq]

end Change

end Lz4Frame
