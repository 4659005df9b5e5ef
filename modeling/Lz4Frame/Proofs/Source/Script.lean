import Lz4Frame.Proofs.Source.Readable

/-! What a reading asks its source for. A reading is made up of exact reads, of seeks and of what is
done with their answers. Its script is a view that keeps these apart, and so tells which fields a run
asks for. By one induction over scripts, what holds of a single exact read holds of every reading: as
long as the fields can be read, it does not matter in which pieces they come, `Script.endsLike`, the
first one that cannot be read is reported, `Script.eq_error`, and more data changes only what ran
into the end, `Script.settles`. -/

namespace Lz4Frame

open Source (memory)

/-- A part of the data that is read as a whole. -/
structure Field where
  start : ℕ
  width : ℕ
  /-- Where it starts if the reader has not miscounted. -/
  counted : ℕ
  deriving DecidableEq, Repr

def Field.stop (field : Field) : ℕ := field.start + field.width

namespace Source

/-- The first of some fields that cannot be read. -/
def firstFault (source : Source) (fields : List Field) : Option Field :=
  fields.find? fun field => source.failsBefore field.stop

theorem firstFault_append (source : Source) (fields fields' : List Field) :
    source.firstFault (fields ++ fields') =
      (source.firstFault fields).or (source.firstFault fields') := List.find?_append

theorem firstFault_singleton_eq_none_iff {source : Source} {field : Field} :
    source.firstFault [field] = none ↔ source.failsBefore field.stop = false := by
  simp [firstFault]

theorem firstFault_singleton_eq_some_iff {source : Source} {field field' : Field} :
    source.firstFault [field] = some field' ↔
      source.failsBefore field.stop = true ∧ field = field' := by
  simp [firstFault, List.find?_singleton]

theorem firstFault_eq_none_of_le {source : Source} {stop : ℕ} (hstop : source.failFrom = some stop)
    {fields : List Field} (h : ∀ field ∈ fields, field.stop ≤ stop) :
    source.firstFault fields = none := by
  rw [firstFault, List.find?_eq_none]
  intro field hfield
  rw [Bool.not_eq_true, failsBefore_eq_false_iff]
  rintro fault hfault
  cases hstop.symm.trans hfault
  exact h field hfield

theorem firstFault_of_head? {source : Source} {stop : ℕ} (hstop : source.failFrom = some stop)
    {fields : List Field} {field : Field} (hfield : fields.head? = some field)
    (hlt : stop < field.stop) : source.firstFault fields = some field := by
  obtain ⟨rest, rfl⟩ := List.head?_eq_some_iff.1 hfield
  exact List.find?_cons_of_pos (failsBefore_eq_true_iff.2 ⟨stop, hstop, hlt⟩)

theorem MovedTo.firstFault {source moved : Source} {stop : ℕ} (h : source.MovedTo stop moved) :
    moved.firstFault = source.firstFault := by
  funext fields
  rw [Source.firstFault, Source.firstFault, h.failsBefore]

theorem Honest.firstFault {source : Source} (h : source.Honest) (fields : List Field) :
    source.firstFault fields = none := by
  simp [Source.firstFault, h.failsBefore]

namespace EndsLike

variable {ε ε' α β : Type} {source : Source}

/-- The way a reading goes on behind another one. -/
theorem of_movedTo {moved : Source} {stop : ℕ} (hmoved : source.MovedTo stop moved)
    {result result' : EStateM.Result ε Source α} (h : moved.EndsLike result result') :
    source.EndsLike result result' := by
  cases h with
  | ok a h =>
    rw [hmoved.data]
    exact .ok a (hmoved.trans h)
  | error error h =>
    rw [hmoved.data]
    exact .error error (hmoved.trans h)

theorem in_memory {result result' : EStateM.Result ε Source α} (h : source.EndsLike result result') :
    (∃ a stop, result = .ok a (memory source.data stop)) ∨
      ∃ error stop, result = .error error (memory source.data stop) := by
  cases h with
  | ok a => exact .inl ⟨a, _, rfl⟩
  | error error => exact .inr ⟨error, _, rfl⟩

theorem adaptExcept {x : Reading ε α} (f : ε → ε') {source₁ source₂ : Source}
    (h : source.EndsLike (x source₁) (x source₂)) :
    source.EndsLike (x.adaptExcept f source₁) (x.adaptExcept f source₂) := by
  unfold EStateM.adaptExcept
  generalize x source₁ = result₁ at h ⊢
  generalize x source₂ = result₂ at h ⊢
  cases h with
  | ok a h => exact .ok a h
  | error error h => exact .error (f error) h

theorem map {x : Reading ε α} (f : α → β) {source₁ source₂ : Source}
    (h : source.EndsLike (x source₁) (x source₂)) :
    source.EndsLike ((f <$> x) source₁) ((f <$> x) source₂) := by
  show source.EndsLike (EStateM.map f x source₁) (EStateM.map f x source₂)
  unfold EStateM.map
  generalize x source₁ = result₁ at h ⊢
  generalize x source₂ = result₂ at h ⊢
  cases h with
  | ok a h => exact .ok (f a) h
  | error error h => exact .error error h

end EndsLike

end Source

namespace Reading

/-- How a reading is made up. No field is empty. All that can be said about one that was not given is
that the data has ended or, with `io`, where the field starts and what the source has reported. -/
inductive Script {ε : Type} (io : ℕ → IoError → ε) : {α : Type} → Reading ε α → Type 1
  | pure {α : Type} (a : α) : Script io (Pure.pure a : Reading ε α)
  | throw {α : Type} (error : ε) : Script io (MonadExcept.throw error : Reading ε α)
  | field (counted rest : ℕ) (fail : IoError → ε)
      (hfail : ∀ error, error ≠ .unexpectedEof → fail error = io counted error) :
    Script io ((Source.readExact (rest + 1)).adaptExcept fail)
  | seekTo (position : ℕ) (fail : IoError → ε) :
    Script io ((Source.seekTo position).adaptExcept fail)
  | map {α β : Type} {x : Reading ε α} (f : α → β) (s : Script io x) : Script io (f <$> x)
  | bind {α β : Type} {x : Reading ε α} {f : α → Reading ε β} (s : Script io x)
      (t : ∀ a, Script io (f a)) : Script io (x >>= f)

namespace Script

variable {ε : Type} {io : ℕ → IoError → ε} {α β : Type} {x : Reading ε α}

/-- The script of the branch that is taken. -/
def ite {c : Prop} {y : Reading ε α} :
    [Decidable c] → Script io x → Script io y → Script io (if c then x else y)
  | .isTrue _, s, _ => s
  | .isFalse _, _, t => t

/-- The fields that a run on `source` asks for, the one it may fail at included. -/
def fields : {α : Type} → {x : Reading ε α} → Script io x → Source → List Field
  | _, _, .pure _, _ => []
  | _, _, .throw _, _ => []
  | _, _, .field counted rest .., source =>
    [{ start := source.position, width := rest + 1, counted }]
  | _, _, .seekTo .., _ => []
  | _, _, .map _ s, source => s.fields source
  | _, _, .bind (x := x) s t, source =>
    s.fields source ++
      match x source with
      | .ok a next => (t a).fields next
      | .error _ _ => []

theorem fields_ite {c : Prop} [inst : Decidable c] {y : Reading ε α} (s : Script io x)
    (t : Script io y) (source : Source) :
    (ite s t : Script io (if c then x else y)).fields source =
      if c then s.fields source else t.fields source := by
  cases inst with
  | isTrue => rfl
  | isFalse => rfl

theorem fields_bind {f : α → Reading ε β} (s : Script io x) (t : ∀ a, Script io (f a))
    (source : Source) :
    (s.bind t).fields source =
      s.fields source ++
        match x source with
        | .ok a next => (t a).fields next
        | .error _ _ => [] := by
  rw [fields]

theorem fields_bind_of_ok {f : α → Reading ε β} (s : Script io x) (t : ∀ a, Script io (f a))
    {source next : Source} {a : α} (h : x source = .ok a next) :
    (s.bind t).fields source = s.fields source ++ (t a).fields next := by
  rw [fields_bind, h]

theorem fields_bind_of_error {f : α → Reading ε β} (s : Script io x) (t : ∀ a, Script io (f a))
    {source next : Source} {error : ε} (h : x source = .error error next) :
    (s.bind t).fields source = s.fields source := by
  rw [fields_bind, h, List.append_nil]

/-- Where all fields can be read, a reading ends as it does in memory. -/
theorem endsLike (s : Script io x) {source : Source} (hsource : source.Readable)
    (hfields : source.firstFault (s.fields (memory source.data source.position)) = none) :
    source.EndsLike (x (memory source.data source.position)) (x source) := by
  induction s generalizing source with
  | pure a => exact .ok a (.refl source)
  | throw error => exact .error error (.refl source)
  | field counted rest fail hfail =>
    exact .adaptExcept fail (hsource.readExact_endsLike rest.succ_pos
      (Source.firstFault_singleton_eq_none_iff.1 hfields))
  | seekTo position fail =>
    obtain ⟨moved, hseek, hmoved⟩ := hsource.seek_eq fun _ => position
    refine .adaptExcept fail ?_
    rw [Source.seekTo, hseek]
    exact .ok position hmoved
  | map f s ih => exact .map f (ih hsource hfields)
  | @bind _ _ x f s t ihs iht =>
    rw [fields_bind, Source.firstFault_append, Option.or_eq_none_iff] at hfields
    obtain ⟨hfirst, hthen⟩ := hfields
    have hx := ihs hsource hfirst
    generalize hmem : x (memory source.data source.position) = result at hx hthen
    generalize hrun : x source = result' at hx
    cases hx with
    | ok a hmoved =>
      rw [bind_of_ok hmem, bind_of_ok hrun]
      have hnext := iht a (hsource.of_movedTo hmoved)
      rw [hmoved.firstFault, hmoved.data, hmoved.position] at hnext
      exact .of_movedTo hmoved (hnext hthen)
    | error error hmoved =>
      rw [bind_of_error hmem, bind_of_error hrun]
      exact .error error hmoved

/-- The first field that cannot be read is what a reading ends with. -/
theorem eq_error (s : Script io x) {source : Source} (hsource : source.Readable) (field : Field)
    (hfield : source.firstFault (s.fields (memory source.data source.position)) = some field) :
    ∃ moved, x source = .error (io field.counted source.error) moved := by
  induction s generalizing source with
  | pure a => cases hfield
  | throw error => cases hfield
  | seekTo position fail => cases hfield
  | field counted rest fail hfail =>
    obtain ⟨hfails, rfl⟩ := Source.firstFault_singleton_eq_some_iff.1 hfield
    obtain ⟨moved, hread⟩ := hsource.readExact_of_fails rest.succ_pos hfails
    obtain ⟨fault, hfault, -⟩ := Source.failsBefore_eq_true_iff.1 hfails
    obtain ⟨-, -, herror⟩ := hsource.failFrom fault hfault
    exact ⟨moved, adaptExcept_eq_error.2 ⟨source.error, hread, hfail source.error herror⟩⟩
  | map f s ih =>
    obtain ⟨moved, hread⟩ := ih hsource hfield
    exact ⟨moved, map_eq_error.2 hread⟩
  | @bind _ _ x f s t ihs iht =>
    rw [fields_bind, Source.firstFault_append, Option.or_eq_some_iff] at hfield
    obtain hfirst | ⟨hfirst, hthen⟩ := hfield
    · obtain ⟨moved, hread⟩ := ihs hsource hfirst
      exact ⟨moved, bind_of_error hread⟩
    · have hx := s.endsLike hsource hfirst
      generalize hmem : x (memory source.data source.position) = result at hx hthen
      generalize hrun : x source = result' at hx
      cases hx with
      | ok a hmoved =>
        have hnext := iht a (hsource.of_movedTo hmoved)
        rw [hmoved.firstFault, hmoved.data, hmoved.position, hmoved.error] at hnext
        obtain ⟨moved, hread⟩ := hnext hthen
        exact ⟨moved, by rw [bind_of_ok hrun, hread]⟩
      | error error hmoved => cases hthen

/-- In memory a reading ends in memory. -/
theorem exists_memory (s : Script io x) (data : Bytes) (position : ℕ) :
    (∃ a stop, x (memory data position) = .ok a (memory data stop)) ∨
      ∃ error stop, x (memory data position) = .error error (memory data stop) := by
  have hmemory := Source.honest_memory data position
  exact (s.endsLike hmemory.readable (hmemory.firstFault _)).in_memory

/-! ### More data -/

/-- Where the data ends within a field, the error is in `pending`, and every other error is in
`mistake`. -/
def ErrsWith (pending mistake : ε → Prop) : {α : Type} → {x : Reading ε α} → Script io x → Prop
  | _, _, .pure _ => True
  | _, _, .throw error => mistake error
  | _, _, .field _ _ fail _ => pending (fail .unexpectedEof)
  | _, _, .seekTo .. => True
  | _, _, .map _ s => s.ErrsWith pending mistake
  | _, _, .bind s t => s.ErrsWith pending mistake ∧ ∀ a, (t a).ErrsWith pending mistake

variable {pending mistake : ε → Prop}

theorem ErrsWith.bind {f : α → Reading ε β} {s : Script io x} {t : ∀ a, Script io (f a)}
    (hs : s.ErrsWith pending mistake) (ht : ∀ a, (t a).ErrsWith pending mistake) :
    (bind s t).ErrsWith pending mistake := ⟨hs, ht⟩

theorem ErrsWith.ite {c : Prop} [inst : Decidable c] {y : Reading ε α} {s : Script io x}
    {t : Script io y} (hs : s.ErrsWith pending mistake) (ht : t.ErrsWith pending mistake) :
    (Script.ite s t : Script io (if c then x else y)).ErrsWith pending mistake := by
  cases inst with
  | isTrue => exact hs
  | isFalse => exact ht

/-- How `x` ends on `data`, and what becomes of that with more data. -/
inductive Settles (pending mistake : ε → Prop) (x : Reading ε α) (data : Bytes) (position : ℕ) : Prop
  | answer (a : α) (next : ℕ) (read : x (memory data position) = .ok a (memory data next))
    (stays : ∀ more, x (memory (data ++ more) position) = .ok a (memory (data ++ more) next))
  | cut (error : ε) (source : Source) (read : x (memory data position) = .error error source)
    (raised : pending error)
  | refusal (error : ε) (source : Source) (read : x (memory data position) = .error error source)
    (raised : mistake error)
    (stays : ∀ more, ∃ source, x (memory (data ++ more) position) = .error error source)

/-- What comes of a reading from memory stays when there is more data, unless the data ended. -/
theorem settles (s : Script io x) (h : s.ErrsWith pending mistake) (data : Bytes) (position : ℕ) :
    Settles pending mistake x data position := by
  induction s generalizing position with
  | pure a => exact .answer a position rfl fun _ => rfl
  | throw error => exact .refusal error _ rfl h fun _ => ⟨_, rfl⟩
  | field counted rest fail hfail =>
    cases hread : Source.readExact (rest + 1) (memory data position) with
    | ok bytes source =>
      obtain ⟨hlength, hat, rfl⟩ := Source.readExact_memory_eq_ok_iff.1 hread
      refine .answer bytes _ (adaptExcept_eq_ok.2 hread) fun more => adaptExcept_eq_ok.2 ?_
      exact Source.readExact_memory_eq_ok_iff.2 ⟨hlength, hat.append more, rfl⟩
    | error error source =>
      obtain rfl := Source.eq_unexpectedEof_of_readExact_memory hread
      exact .cut _ source (adaptExcept_eq_error.2 ⟨_, hread, rfl⟩) h
  | seekTo target fail => exact .answer target target rfl fun _ => rfl
  | map f s ih =>
    cases ih h position with
    | answer a next read stays =>
      exact .answer (f a) next (map_eq_ok.2 ⟨a, read, rfl⟩)
        fun more => map_eq_ok.2 ⟨a, stays more, rfl⟩
    | cut error source read raised => exact .cut error source (map_eq_error.2 read) raised
    | refusal error source read raised stays =>
      refine .refusal error source (map_eq_error.2 read) raised fun more => ?_
      obtain ⟨source', read'⟩ := stays more
      exact ⟨source', map_eq_error.2 read'⟩
  | bind s t ihs iht =>
    cases ihs h.1 position with
    | cut error source read raised => exact .cut error source (bind_of_error read) raised
    | refusal error source read raised stays =>
      refine .refusal error source (bind_of_error read) raised fun more => ?_
      obtain ⟨source', read'⟩ := stays more
      exact ⟨source', bind_of_error read'⟩
    | answer a next read stays =>
      -- both go on at the same place
      cases iht a (h.2 a) next with
      | answer b last read' stays' =>
        refine .answer b last ((bind_of_ok read).trans read') fun more => ?_
        exact (bind_of_ok (stays more)).trans (stays' more)
      | cut error source read' raised =>
        exact .cut error source ((bind_of_ok read).trans read') raised
      | refusal error source read' raised stays' =>
        refine .refusal error source ((bind_of_ok read).trans read') raised fun more => ?_
        obtain ⟨source', read''⟩ := stays' more
        exact ⟨source', (bind_of_ok (stays more)).trans read''⟩

theorem ErrsWith.error {s : Script io x} (h : s.ErrsWith pending mistake) {data : Bytes}
    {position : ℕ} {error : ε} {source : Source}
    (herror : x (memory data position) = .error error source) : pending error ∨ mistake error := by
  cases s.settles h data position with
  | answer a next read => cases herror.symm.trans read
  | cut error' source' read raised =>
    cases herror.symm.trans read
    exact .inl raised
  | refusal error' source' read raised =>
    cases herror.symm.trans read
    exact .inr raised

/-- An error that is not about the end of the data stays. -/
theorem ErrsWith.error_append {s : Script io x} (h : s.ErrsWith pending mistake) {data : Bytes}
    {position : ℕ} {error : ε} {source : Source}
    (herror : x (memory data position) = .error error source) (hsettled : ¬ pending error)
    (more : Bytes) : ∃ source', x (memory (data ++ more) position) = .error error source' := by
  cases s.settles h data position with
  | answer a next read => cases herror.symm.trans read
  | cut error' source' read raised =>
    cases herror.symm.trans read
    exact absurd raised hsettled
  | refusal error' source' read raised stays =>
    cases herror.symm.trans read
    exact stays more

/-! ### Counting -/

/-- Read from memory at `start`, a script counts right: each field starts where its reader says, and
an answer leaves the source where it says. -/
structure Counts (s : Script io x) (data : Bytes) (start : ℕ) (stop : α → ℕ) : Prop where
  fields : ∀ field ∈ s.fields (memory data start), field.counted = field.start
  ok : ∀ {a source}, x (memory data start) = .ok a source → source = memory data (stop a)

namespace Counts

variable {data : Bytes} {start : ℕ} {stop : α → ℕ}

theorem pure {a : α} (h : start = stop a) : (pure a : Script io _).Counts data start stop where
  fields := fun _ h => nomatch h
  ok hok := by
    obtain ⟨rfl, rfl⟩ := pure_eq_ok.1 hok
    rw [h]

theorem throw (error : ε) : (throw error : Script io _).Counts data start stop where
  fields := fun _ h => nomatch h
  ok hok := absurd hok throw_ne_ok

theorem field {rest : ℕ} {fail : IoError → ε}
    {hfail : ∀ error, error ≠ .unexpectedEof → fail error = io start error} :
    (field start rest fail hfail).Counts data start fun _ => start + (rest + 1) where
  fields := by
    intro field hfield
    rw [List.mem_singleton.1 hfield]
    rfl
  ok hok := (Source.readExact_memory_eq_ok_iff.1 (adaptExcept_eq_ok.1 hok)).2.2

theorem seekTo (position : ℕ) (fail : IoError → ε) :
    (seekTo position fail : Script io _).Counts data start fun _ => position where
  fields := fun _ h => nomatch h
  ok := by
    rintro _ _ ⟨⟩
    rfl

theorem map {f : α → β} {stop : β → ℕ} {s : Script io x}
    (h : s.Counts data start fun a => stop (f a)) : (map f s).Counts data start stop where
  fields := h.fields
  ok hok := by
    obtain ⟨a, hread, rfl⟩ := map_eq_ok.1 hok
    exact h.ok hread

theorem bind {f : α → Reading ε β} {s : Script io x} {t : ∀ a, Script io (f a)} {stop' : β → ℕ}
    (hs : s.Counts data start stop) (ht : ∀ a, (t a).Counts data (stop a) stop') :
    (bind s t).Counts data start stop' where
  fields := by
    intro field hfield
    rcases hread : x (memory data start) with ⟨a, next⟩ | ⟨error, next⟩
    · rw [fields_bind_of_ok s t hread, List.mem_append, hs.ok hread] at hfield
      exact hfield.elim (hs.fields field) ((ht a).fields field)
    · rw [fields_bind_of_error s t hread] at hfield
      exact hs.fields field hfield
  ok hok := by
    obtain ⟨a, next, hread, hthen⟩ := bind_eq_ok.1 hok
    rw [hs.ok hread] at hthen
    exact (ht a).ok hthen

theorem ite {c : Prop} [inst : Decidable c] {y : Reading ε α} {s : Script io x} {t : Script io y}
    (hs : s.Counts data start stop) (ht : t.Counts data start stop) :
    (Script.ite s t : Script io (if c then x else y)).Counts data start stop := by
  cases inst with
  | isTrue => exact hs
  | isFalse => exact ht

end Counts

end Script

end Reading

end Lz4Frame
