import Lz4Frame.Proofs.Header
import Lz4Frame.Proofs.Source.Script

/-! The fields that a reader of headers asks for: the magic number, and behind it what the bytes read
so far call for. From the start of its data on, each field starts where the reader says. Unless the
data ends, what a reader reports is about the bytes that it has read, `readScript_errsWith`. -/

namespace Lz4Frame

/-- The input ended before there was anything to judge. -/
def HeaderError.IsPending : HeaderError → Prop
  | .unexpectedEnd .. => True
  | .invalidMagic none => True
  | _ => False

namespace Header

open Reading (Script)
open Source (memory)

/-! ### Scripts -/

def readNumberScript (rest offset : ℕ) (part : Part) :
    Script .io (readNumber (rest + 1) offset part) :=
  .map _ (.field offset rest _ fun error hne => by
    cases error <;> first | rfl | exact absurd rfl hne)

def readMagicScript : Script .io readMagic :=
  .map _ (.field 0 _ _ fun error hne => by
    cases error <;> first | rfl | exact absurd rfl hne)

def readAnnouncedScript {α : Type} {field : Reading HeaderError α} (announced : Bool)
    (s : Script .io field) : Script .io (readAnnounced announced field) :=
  match announced with
  | true => .map _ s
  | false => .pure _

def readDescriptorScript : Script .io readDescriptor :=
  .bind (.map _ (readNumberScript 0 4 .frameDescriptor)) fun flags =>
    match Descriptor.flagsError? flags with
    | some error => .throw error
    | none =>
      .bind (.map _ (readNumberScript 0 5 .blockDescriptor)) fun sizes =>
        match Descriptor.ofBytes flags sizes with
        | .error error => .throw error
        | .ok descriptor => .pure descriptor

def readFieldsScript : Script .io readFields :=
  .bind readDescriptorScript fun descriptor =>
    .bind (readAnnouncedScript _ (.map _ (readNumberScript 7 6 .contentSize)))
      fun ⟨contentSize, hsize⟩ =>
        .bind (readAnnouncedScript _
          (.map _ (readNumberScript 3 (6 + descriptor.contentSizeSize) .dictionaryId)))
          fun ⟨dictionaryId, hid⟩ =>
            .bind (.map _ (readNumberScript 0
              (length ⟨descriptor, contentSize, dictionaryId, hsize, hid⟩ - 1) .headerChecksum))
              fun _ => .ite (.pure _) (.throw _)

def readScript : Script .io read :=
  .bind readMagicScript fun _ =>
    .ite (.bind (readNumberScript 3 4 .skippableFrameSize) fun _ => .throw _)
      (.ite readFieldsScript (.throw _))

/-! ### Errors -/

section Errors

variable {pending mistake : HeaderError → Prop}

theorem readAnnouncedScript_errsWith {α : Type} {field : Reading HeaderError α} (announced : Bool)
    {s : Script .io field} (h : s.ErrsWith pending mistake) :
    (readAnnouncedScript announced s).ErrsWith pending mistake := by
  cases announced with
  | true => exact h
  | false => trivial

variable (hpending : ∀ offset part, pending (.unexpectedEnd offset part))
  (hmistake : ∀ error : HeaderError, error.IsMistake → mistake error)
include hpending hmistake

theorem readDescriptorScript_errsWith : readDescriptorScript.ErrsWith pending mistake := by
  refine .bind (hpending 4 _) fun flags => ?_
  cases hflags : Descriptor.flagsError? flags with
  | some error => exact hmistake error (Descriptor.isMistake_of_flagsError? hflags)
  | none =>
    refine .bind (hpending 5 _) fun sizes => ?_
    cases hbytes : Descriptor.ofBytes flags sizes with
    | error error => exact hmistake error (Descriptor.isMistake_of_ofBytes hbytes)
    | ok descriptor => trivial

/-- Behind the magic number, a field is cut or has a value that it may not have. -/
theorem readFieldsScript_errsWith : readFieldsScript.ErrsWith pending mistake := by
  refine .bind (readDescriptorScript_errsWith hpending hmistake) fun descriptor => ?_
  refine .bind (readAnnouncedScript_errsWith _ (hpending 6 _)) ?_
  rintro ⟨contentSize, hsize⟩
  refine .bind (readAnnouncedScript_errsWith _ (hpending _ _)) ?_
  rintro ⟨dictionaryId, hid⟩
  exact .bind (hpending _ _) fun stored => .ite trivial (hmistake _ trivial)

end Errors

/-- The source itself is not to blame. -/
theorem readScript_errsWith :
    readScript.ErrsWith HeaderError.IsPending
      fun error => ∀ offset reason, error ≠ .io offset reason := by
  have hmistake : ∀ error : HeaderError, error.IsMistake →
      ∀ offset reason, error ≠ .io offset reason := by
    rintro _ h offset reason rfl
    exact h
  refine .bind trivial fun magic => .ite (.bind trivial fun size => nofun) (.ite ?_ nofun)
  exact readFieldsScript_errsWith (fun _ _ => trivial) hmistake

/-! ### Counting -/

variable {data : Bytes}

theorem readNumberScript_counts (rest offset : ℕ) (part : Part) :
    (readNumberScript rest offset part).Counts data offset fun _ => offset + (rest + 1) :=
  .map .field

theorem readAnnouncedScript_counts {α : Type} {field : Reading HeaderError α} {announced : Bool}
    {s : Script .io field} {start width : ℕ} (h : s.Counts data start fun _ => start + width) :
    (readAnnouncedScript announced s).Counts data start fun _ =>
      start + if announced then width else 0 := by
  cases announced with
  | true => exact .map h
  | false => exact .pure rfl

/-- A field that holds a number, whatever is made of it. -/
theorem mapNumberScript_counts {α : Type} (f : ℕ → α) (rest offset : ℕ) (part : Part) :
    (Script.map f (readNumberScript rest offset part)).Counts data offset
      fun _ => offset + (rest + 1) :=
  .map (readNumberScript_counts rest offset part)

theorem readDescriptorScript_counts : readDescriptorScript.Counts data 4 fun _ => 6 := by
  refine .bind (mapNumberScript_counts _ _ 4 _) fun flags => ?_
  cases Descriptor.flagsError? flags with
  | some error => exact .throw error
  | none =>
    refine .bind (mapNumberScript_counts _ _ 5 _) fun sizes => ?_
    cases Descriptor.ofBytes flags sizes with
    | error error => exact .throw error
    | ok descriptor => exact .pure rfl

theorem readFieldsScript_counts : readFieldsScript.Counts data 4 length := by
  refine .bind readDescriptorScript_counts fun descriptor => ?_
  refine .bind (readAnnouncedScript_counts (mapNumberScript_counts _ _ 6 _)) ?_
  rintro ⟨contentSize, hsize⟩
  refine .bind (readAnnouncedScript_counts (mapNumberScript_counts _ _ _ _)) ?_
  rintro ⟨dictionaryId, hid⟩
  let header : Header := ⟨descriptor, contentSize, dictionaryId, hsize, hid⟩
  have hstart : 6 + descriptor.contentSizeSize + descriptor.dictionaryIdSize =
      header.length - 1 := by
    simp only [length, Format.minHeaderSize, header]
    omega
  have hstop : header.length - 1 + 1 = header.length := by
    simp only [length, Format.minHeaderSize]
    omega
  show Script.Counts _ data (6 + descriptor.contentSizeSize + descriptor.dictionaryIdSize) length
  rw [hstart]
  refine .bind (mapNumberScript_counts _ _ _ _) fun stored => ?_
  exact .ite (.pure hstop) (.throw _)

theorem readMagicScript_counts : readMagicScript.Counts data 0 fun _ => 4 := .map .field

/-- From the start of an input on, each field is where the reader says. -/
theorem readScript_counts : readScript.Counts data 0 length := by
  refine .bind readMagicScript_counts fun magic => ?_
  refine .ite ?_ (.ite readFieldsScript_counts (.throw _))
  exact .bind (readNumberScript_counts _ 4 _) fun size => .throw _

end Header

end Lz4Frame
