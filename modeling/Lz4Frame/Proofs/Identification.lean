import Lz4Frame.Proofs.Content.Blocks
import Lz4Frame.Proofs.Header.Fields

/-! What kind of input it is, judged by its first four bytes. Only the magic number decides whether
there is a frame to speak of: of the errors that a header can have, the ones that say that there is
no frame are raised before any other field is looked at, `Header.isNotAFrame_iff_of_read`. One kind
of input is taken for a frame without being one, a skippable frame that ends within its size
word. -/

namespace Lz4Frame

/-! ### Errors behind the magic number -/

namespace Header

open Source (memory)

/-- An error that says that a frame is broken, not that there is none. -/
def Breaks (error : HeaderError) : Prop := (FrameError.header error).isNotAFrame = false

theorem breaks_of_isMistake {error : HeaderError} (h : error.IsMistake) : Breaks error := by
  cases error <;> first | rfl | exact h.elim

/-- Behind the magic number, whatever is wrong is wrong with a frame. -/
theorem breaks_of_readFields {data : Bytes} {position : ℕ} {error : HeaderError} {source : Source}
    (h : readFields (memory data position) = .error error source) : Breaks error :=
  ((readFieldsScript_errsWith (fun _ _ => rfl) fun _ => breaks_of_isMistake).error h).elim id id

end Header

/-! ### The first four bytes -/

namespace Bytes

/-- The first four bytes are the word. -/
def StartsWith (input : Bytes) (word : UInt32) : Prop := Word.encode 4 word.toNat <+: input.toList

/-- The first four bytes are the magic number of a frame. -/
def HasMagic (input : Bytes) : Prop := [0x04, 0x22, 0x4D, 0x18] <+: input.toList

/-- The first four bytes are the magic number of a skippable frame, and there are less than four
more bytes for its size. -/
def IsCutSkippable (input : Bytes) : Prop :=
  input.size < 8 ∧ ∃ magic, Format.isSkippable magic = true ∧ input.StartsWith magic

instance (input : Bytes) : Decidable input.HasMagic :=
  inferInstanceAs (Decidable (_ <+: _))

theorem startsWith_magic {input : Bytes} : input.StartsWith Format.magic ↔ input.HasMagic :=
  Iff.rfl

/-- An input has only one first word. -/
theorem StartsWith.unique {input : Bytes} {word word' : UInt32} (h : input.StartsWith word)
    (h' : input.StartsWith word') : word = word' := by
  have hlength : ∀ word : UInt32, (Word.encode 4 word.toNat).length = 4 := fun word =>
    Word.length_encode 4 _
  have hprefix : Word.encode 4 word.toNat <+: Word.encode 4 word'.toNat :=
    List.prefix_of_prefix_length_le h h' (by rw [hlength, hlength])
  have heq : Word.encode 4 word.toNat = Word.encode 4 word'.toNat :=
    hprefix.eq_of_length (by rw [hlength, hlength])
  rw [← Word.ofNat_value_encode_word word, heq, Word.ofNat_value_encode_word]

end Bytes

namespace Header

open Source (memory)

variable {input : Bytes} {source : Source} {error : HeaderError}

theorem readMagic_eq_ok_iff_startsWith {magic : UInt32} :
    readMagic (memory input 0) = .ok magic source ↔
      input.StartsWith magic ∧ source = memory input 4 :=
  readMagic_eq_ok_iff

/-- Only an input that is too short for one has no first word. -/
theorem readMagic_eq_error (h : readMagic (memory input 0) = .error error source) :
    error = .invalidMagic none ∧ ∀ magic, ¬ input.StartsWith magic := by
  refine ⟨eq_invalidMagic_of_readMagic h, fun magic hmagic => ?_⟩
  rw [readMagic_eq_ok_iff_startsWith.2 ⟨hmagic, rfl⟩] at h
  cases h

/-- An error says that there is no frame exactly where the magic number is not the one of a frame,
skippable frames without their size apart. -/
theorem isNotAFrame_iff_of_read (h : read (memory input 0) = .error error source) :
    (FrameError.header error).isNotAFrame = true ↔
      ¬ input.HasMagic ∧ ¬ input.IsCutSkippable := by
  obtain hmagic | ⟨magic, next, hmagic, h⟩ := Reading.bind_eq_error.1 h
  · -- there is no first word at all
    obtain ⟨rfl, hnone⟩ := readMagic_eq_error hmagic
    exact iff_of_true rfl ⟨hnone Format.magic, fun ⟨_, magic, _, hstarts⟩ => hnone magic hstarts⟩
  obtain ⟨hstarts, rfl⟩ := readMagic_eq_ok_iff_startsWith.1 hmagic
  have hcut : input.IsCutSkippable ↔ input.size < 8 ∧ Format.isSkippable magic = true := by
    refine and_congr_right fun _ => ⟨?_, fun hskippable => ⟨magic, hskippable, hstarts⟩⟩
    rintro ⟨magic', hskippable, hstarts'⟩
    rwa [hstarts.unique hstarts']
  have hhas : input.HasMagic ↔ magic = Format.magic := by
    refine ⟨fun hhas => hstarts.unique (Bytes.startsWith_magic.2 hhas), ?_⟩
    rintro rfl
    exact hstarts
  rw [hcut, hhas]
  split_ifs at h with hskippable heq
  · -- a skippable frame
    have hne : magic ≠ Format.magic := by
      rintro rfl
      exact absurd hskippable (by decide)
    obtain hsize | ⟨size, next, hsize, h⟩ := Reading.bind_eq_error.1 h
    · obtain ⟨rfl, hlt⟩ := readNumber_eq_error hsize
      have hlt : input.size < 8 := hlt
      simp [FrameError.isNotAFrame, hlt, hskippable]
    · have hle : 8 ≤ input.size := le_size_of_readNumber_eq_ok (by decide) hsize
      obtain ⟨rfl, -⟩ := Reading.throw_eq_error.1 h
      exact iff_of_true rfl ⟨hne, fun ⟨hlt, _⟩ => absurd hlt (by omega)⟩
  · -- a frame
    have hbreaks : (FrameError.header error).isNotAFrame = false := breaks_of_readFields h
    simp [hbreaks, heq]
  · -- anything else
    obtain ⟨rfl, -⟩ := Reading.throw_eq_error.1 h
    exact iff_of_true rfl ⟨heq, fun ⟨_, hskippable'⟩ => hskippable hskippable'⟩

/-- A header that was read starts with the magic number. -/
theorem hasMagic_of_read {header : Header} (h : read (memory input 0) = .ok header source) :
    input.HasMagic := by
  have hencode := (read_memory_eq_ok_iff.1 h).1
  rw [encode, List.append_assoc] at hencode
  exact (List.prefix_append _ _).trans hencode

end Header

/-! ### Reports -/

theorem Report.fatalError_of (input : Bytes) (scanned : ScanOutcome) (decoded : ContentOutcome) :
    (of input scanned decoded).fatalError = scanned.fatal := by
  unfold fatalError
  split
  next error hinvalid => exact (Verdict.ofFindings_eq_invalid_iff.1 hinvalid).symm
  next hvalid =>
    rcases hfatal : scanned.fatal with _ | error
    · rfl
    · exact absurd (Verdict.ofFindings_eq_invalid_iff.2 hfatal) (hvalid error)

/-- Behind a header, only the blocks or the content checksum can be broken. -/
theorem Header.any_isNotAFrame_conclude (header : Header) (found : List Block) (scanner : Scanner)
    (ending : Scanner.Ending) :
    (header.conclude found scanner ending).fatal.any FrameError.isNotAFrame = false := by
  unfold conclude
  split
  · rfl
  · rfl
  · split <;> rfl

section Analysis

variable {σ : Type} (env : Environment (StateM σ)) (options : Options) (input : Bytes) (state : σ)

/-- A scan says that there is no frame exactly if the header does. -/
theorem any_isNotAFrame_scan :
    ((scan env.cancelled input).run state).1.fatal.any FrameError.isNotAFrame = true ↔
      ¬ input.HasMagic ∧ ¬ input.IsCutSkippable := by
  unfold scan
  split
  next error source hread => exact Header.isNotAFrame_iff_of_read hread
  next header source hread =>
    have hmagic : input.HasMagic := Header.hasMagic_of_read hread
    refine iff_of_false ?_ fun ⟨hnot, _⟩ => hnot hmagic
    split
    next error hstart => exact Bool.false_ne_true
    next scanner hstart =>
      rw [Bool.not_eq_true]
      exact header.any_isNotAFrame_conclude _ _ _

/-- The magic number is reported to be the one of a frame exactly where it is, and in skippable
frames that end within their size word. Else the error says that there is no frame. -/
theorem magicValid_analyze_iff :
    let report := ((analyze env options input).run state).1
    (report.magicValid = true ↔ input.HasMagic ∨ input.IsCutSkippable) ∧
      (report.fatalError.any FrameError.isNotAFrame = true ↔
        ¬ (input.HasMagic ∨ input.IsCutSkippable)) := by
  intro report
  have hreport : report = _ := run_analyze env options input state
  have hnotAFrame := any_isNotAFrame_scan env input state
  rw [← not_or] at hnotAFrame
  rw [hreport, Report.fatalError_of]
  refine ⟨?_, hnotAFrame⟩
  show (!_) = true ↔ _
  rw [Bool.not_eq_true', ← Bool.not_eq_true, hnotAFrame, not_not]

end Analysis

/-- The first word of a skippable frame alone is reported to be the one of a frame. -/
theorem magicValid_cut_skippable :
    let input : Bytes := #[0x50, 0x2A, 0x4D, 0x18]
    let report := report .lz4 {} input
    report.magicValid = true ∧ report.fatalError.any FrameError.isNotAFrame = false ∧
      ¬ input.HasMagic := by
  decide +kernel

end Lz4Frame
