import Mathlib.Data.List.Basic
import Lz4Frame.Block.Expansion
import Lz4Frame.Environment
import Lz4Frame.Format

/-! Facts about the content of a compressed body. No byte of it stands for more than 255 bytes of
content, so the bound on the content is the only limit that counts, `decompress_eq_expand`, and
expanding neither returns nor asks for more room than that, `expand_bounded`. A match reaches less
than a window back, so the history before the last window is never looked at, `expand_tail`, not
even by the errors. -/

namespace Lz4Frame

namespace Bytes

/-! ### The tail of a byte string -/

theorem extract_append_tail (data : Bytes) (count : ℕ) :
    data.extract 0 (data.size - count) ++ data.tail count = data := by
  rw [tail]
  simp

theorem extract_append_of_size_add (before behind : Bytes) (start : ℕ) :
    (before ++ behind).extract (before.size + start) (before ++ behind).size =
      behind.extract start behind.size := by
  simp [Array.extract_append]

theorem tail_append {before behind : Bytes} {count : ℕ} (h : count ≤ behind.size) :
    (before ++ behind).tail count = behind.tail count := by
  have hstart : (before ++ behind).size - count = before.size + (behind.size - count) := by
    rw [Array.size_append]
    omega
  rw [tail, hstart, extract_append_of_size_add, tail]

/-- Cutting a byte string before it grows does not change where its tail ends up. -/
theorem tail_append_tail (data more : Bytes) (count : ℕ) :
    (data.tail count ++ more).tail count = (data ++ more).tail count := by
  by_cases hsize : data.size ≤ count
  · rw [tail_of_size_le hsize]
  have hgrown : count ≤ (data.tail count ++ more).size := by
    rw [Array.size_append, size_tail]
    omega
  rw [← tail_append hgrown, ← Array.append_assoc, extract_append_tail]

end Bytes

namespace Block

namespace Sequence

/-! ### The size of a sequence -/

theorem size_of_readExtension {length n : ℕ} {input rest : List UInt8}
    (h : readExtension length input = .ok (n, rest)) :
    n + 255 * rest.length ≤ length + 255 * input.length := by
  fun_induction readExtension length input with
  | case1 => cases h
  | case2 length rest' ih =>
    have := ih h
    rw [List.length_cons]
    omega
  | case3 length byte rest' hne =>
    cases h
    have := byte.toNat_lt
    rw [List.length_cons]
    omega

theorem size_of_readLength {bits n : ℕ} {input rest : List UInt8} (hbits : bits < 16)
    (h : readLength bits input = .ok (n, rest)) :
    n + 255 * rest.length ≤ 15 + 255 * input.length := by
  unfold readLength at h
  split at h
  · exact size_of_readExtension h
  · cases h
    omega

/-- A match starts less than a window back, and its length was paid for. -/
theorem size_of_readMatch {bits offset length : ℕ} {input rest : List UInt8} (hbits : bits < 16)
    (h : readMatch bits input = .matching offset length rest) :
    offset < Format.windowSize ∧ length + 255 * rest.length + 491 ≤ 255 * input.length := by
  unfold readMatch at h
  split at h
  · cases h
  · cases h
  next low high behind =>
    dsimp only at h
    split at h
    · cases h
    · split at h
      · cases h
      next n rest' hlength =>
        cases h
        have := size_of_readLength hbits hlength
        have := low.toNat_lt
        have := high.toNat_lt
        simp only [Format.windowSize, List.length_cons]
        omega

/-- All content of a sequence was paid for. -/
theorem size_of_read {input : List UInt8} {sequence : Sequence}
    (h : read input = .ok sequence) :
    sequence.literals.length ≤ input.length ∧
      ∀ {offset length rest}, sequence.continuation = .matching offset length rest →
        offset < Format.windowSize ∧
          sequence.literals.length + length + 255 * rest.length ≤ 255 * input.length := by
  unfold read at h
  split at h
  · cases h
  next token behind =>
    have := token.toNat_lt
    split at h
    · cases h
    next count input' hcount =>
      have hle := length_of_readLength hcount
      split at h
      · cases h
      next literals rest' hsplit =>
        obtain ⟨rfl, rfl⟩ := splitExact?_eq_some_iff.1 hsplit
        cases h
        rw [List.length_append] at hle
        rw [List.length_cons]
        dsimp only
        refine ⟨by omega, fun {offset length rest} hmatch => ?_⟩
        obtain ⟨hoffset, hsize⟩ := size_of_readMatch (by omega) hmatch
        exact ⟨hoffset, by omega⟩

end Sequence

/-! ### The limit -/

/-- The next sequence of a body is carried out. -/
theorem expandFrom_eq (start limit : ℕ) (window : Bytes) (input : List UInt8) :
    expandFrom start limit window input =
      match Sequence.read input with
      | .error error => .error error
      | .ok sequence =>
        if limit < window.size - start + sequence.literals.length then
          .error (.outputTooSmall limit (window.size - start + sequence.literals.length))
        else match sequence.continuation with
          | .ended => .ok (window ++ sequence.literals.toArray)
          | .malformed error => .error error
          | .matching offset length rest =>
            if limit < window.size - start + sequence.literals.length + length then
              .error (.outputTooSmall limit
                (window.size - start + sequence.literals.length + length))
            else if (window ++ sequence.literals.toArray).size < offset then
              .error .offsetOutOfBounds
            else
              expandFrom start limit
                (copyMatch offset length (window ++ sequence.literals.toArray)) rest := by
  rw [expandFrom]
  split
  next hread => rw [hread]
  next sequence hread =>
    simp only [hread]
    split_ifs
    · rfl
    · split
      next hnext => rw [hnext]
      next hnext => rw [hnext]
      next hnext => rw [hnext]

/-- A limit that leaves room for what the rest of a body can stand for is never met. -/
theorem expandFrom_of_le {start limit limit' : ℕ} {window : Bytes} {input : List UInt8}
    (h : window.size - start + 255 * input.length ≤ limit)
    (h' : window.size - start + 255 * input.length ≤ limit') :
    expandFrom start limit window input = expandFrom start limit' window input := by
  induction hlength : input.length using Nat.strongRecOn generalizing window input with
  | ind n ih =>
    subst hlength
    rw [expandFrom_eq start limit, expandFrom_eq start limit']
    cases hread : Sequence.read input with
    | error error => rfl
    | ok sequence =>
      obtain ⟨hliterals, hmatching⟩ := Sequence.size_of_read hread
      dsimp only
      rw [if_neg (by omega), if_neg (by omega)]
      cases hnext : sequence.continuation with
      | ended => rfl
      | malformed error => rfl
      | matching offset length rest =>
        obtain ⟨-, hsize⟩ := hmatching hnext
        have hlt := Sequence.length_of_read hread hnext
        have hwindow : (copyMatch offset length (window ++ sequence.literals.toArray)).size -
            start ≤ window.size - start + sequence.literals.length + length := by
          simp only [size_copyMatch, Array.size_append, List.size_toArray]
          omega
        have hfits : ¬ limit < window.size - start + sequence.literals.length + length := by omega
        have hfits' : ¬ limit' < window.size - start + sequence.literals.length + length := by omega
        dsimp only
        rw [if_neg hfits, if_neg hfits', ih _ hlt (by omega) (by omega) rfl]

/-- The content has no other limit than the one it is given. -/
theorem decompress_eq_expand (body history : Bytes) (maxSize : ℕ) :
    decompress body history maxSize = expand maxSize body history := by
  unfold decompress
  by_cases h : maxSize ≤ sizeBound body
  · rw [Nat.min_eq_left h]
  · unfold sizeBound at *
    have hsize : body.toList.length = body.size := Array.length_toList
    have hlimit : expandFrom history.size (255 * body.size + 16) history body.toList =
        expandFrom history.size maxSize history body.toList :=
      expandFrom_of_le (by omega) (by omega)
    rw [Nat.min_eq_right (by omega), expand, expand, hlimit]

/-! ### The window -/

/-- Matches that stay within a part of the window do not see what is before it. -/
theorem copyMatch_append {offset : ℕ} (length : ℕ) (before window : Bytes)
    (h : offset ≤ window.size) :
    copyMatch offset length (before ++ window) = before ++ copyMatch offset length window := by
  induction length generalizing window with
  | zero => rfl
  | succ length ih =>
    have hbyte : (before ++ window).getD ((before ++ window).size - offset) 0 =
        window.getD (window.size - offset) 0 := by
      rw [Array.size_append, Nat.add_sub_assoc h, Array.getD_eq_getD_getElem?,
        Array.getD_eq_getD_getElem?, Array.getElem?_append_right (Nat.le_add_right _ _),
        Nat.add_sub_cancel_left]
    rw [copyMatch, copyMatch, hbyte, ← Array.append_push, ih _ (by rw [Array.size_push]; omega)]

/-- What lies before the last window is carried along and never looked at. -/
theorem expandFrom_append {start limit : ℕ} {before window : Bytes} {input : List UInt8}
    (hstart : start ≤ window.size) (h : Format.windowSize ≤ window.size) :
    expandFrom (before.size + start) limit (before ++ window) input =
      (expandFrom start limit window input).map (before ++ ·) := by
  induction hlength : input.length using Nat.strongRecOn generalizing window input with
  | ind n ih =>
    subst hlength
    have hsize : (before ++ window).size - (before.size + start) = window.size - start := by
      rw [Array.size_append]
      omega
    rw [expandFrom_eq, expandFrom_eq start, hsize]
    cases hread : Sequence.read input with
    | error error => rfl
    | ok sequence =>
      dsimp only
      split_ifs
      · rfl
      cases hnext : sequence.continuation with
      | ended => simp [Except.map, Array.append_assoc]
      | malformed error => rfl
      | matching offset length rest =>
        obtain ⟨hoffset, -⟩ := (Sequence.size_of_read hread).2 hnext
        have hlt := Sequence.length_of_read hread hnext
        have hreach : ¬ (window ++ sequence.literals.toArray).size < offset := by
          rw [Array.size_append]
          omega
        have hreach' : ¬ (before ++ window ++ sequence.literals.toArray).size < offset := by
          simp only [Array.size_append] at *
          omega
        dsimp only
        split_ifs
        · rfl
        rw [Array.append_assoc, copyMatch_append _ _ _ (by omega), ih _ hlt _ _ rfl]
        · simp only [size_copyMatch, Array.size_append]
          omega
        · simp only [size_copyMatch, Array.size_append]
          omega

/-- The history before the last window makes no difference. -/
theorem expand_tail (limit : ℕ) (body history : Bytes) :
    expand limit body (history.tail Format.windowSize) = expand limit body history := by
  by_cases hsize : history.size ≤ Format.windowSize
  · rw [Bytes.tail_of_size_le hsize]
  have hwindow : (history.tail Format.windowSize).size = Format.windowSize := by
    rw [Bytes.size_tail]
    omega
  obtain ⟨before, window, hbefore, htail⟩ : ∃ before window, before ++ window = history ∧
      history.tail Format.windowSize = window := ⟨_, _, Bytes.extract_append_tail history _, rfl⟩
  rw [htail] at hwindow ⊢
  subst hbefore
  unfold expand
  rw [Array.size_append, expandFrom_append (Nat.le_refl _) (by omega)]
  cases expandFrom window.size limit window body.toList with
  | error error => rfl
  | ok content => exact congrArg Except.ok (Bytes.extract_append_of_size_add before content _).symm

/-! ### Room -/

/-- Something is wrong with the body itself, whatever room there is for its content. -/
def BodyError.IsMalformed : BodyError → Prop
  | .outputTooSmall .. => False
  | _ => True

namespace Sequence

theorem isMalformed_of_readExtension {length : ℕ} {input : List UInt8} {error : BodyError}
    (h : readExtension length input = .error error) : error.IsMalformed := by
  fun_induction readExtension length input with
  | case1 =>
    cases h
    trivial
  | case2 length rest ih => exact ih h
  | case3 => cases h

theorem isMalformed_of_readLength {bits : ℕ} {input : List UInt8} {error : BodyError}
    (h : readLength bits input = .error error) : error.IsMalformed := by
  unfold readLength at h
  split at h
  · exact isMalformed_of_readExtension h
  · cases h

theorem isMalformed_of_readMatch {bits : ℕ} {input : List UInt8} {error : BodyError}
    (h : readMatch bits input = .malformed error) : error.IsMalformed := by
  unfold readMatch at h
  split at h
  · cases h
  · cases h
    trivial
  · dsimp only at h
    split at h
    · cases h
      trivial
    · split at h
      next hlength =>
        cases h
        exact isMalformed_of_readLength hlength
      next => cases h

theorem isMalformed_of_read {input : List UInt8} {error : BodyError}
    (h : read input = .error error) : error.IsMalformed := by
  unfold read at h
  split at h
  · cases h
    trivial
  · split at h
    next hlength =>
      cases h
      exact isMalformed_of_readLength hlength
    next =>
      split at h <;> cases h
      trivial

theorem isMalformed_of_continuation {input : List UInt8} {sequence : Sequence} {error : BodyError}
    (h : read input = .ok sequence) (hnext : sequence.continuation = .malformed error) :
    error.IsMalformed := by
  unfold read at h
  split at h
  · cases h
  · split at h
    · cases h
    · split at h <;> cases h
      exact isMalformed_of_readMatch hnext

end Sequence

/-- What may come of a body under a limit, if `sized` says how much content there is in the result:
content within the limit, or a request that the limit is too small for. Neither goes beyond `most`.
Other errors have nothing to do with sizes. -/
structure Bounded {α : Type} (limit most : ℕ) (sized : α → ℕ) (result : Except BodyError α) :
    Prop where
  content : ∀ a, result = .ok a → sized a ≤ min limit most
  request : ∀ allowed asked, result = .error (.outputTooSmall allowed asked) →
    allowed = limit ∧ limit < asked ∧ asked ≤ most

namespace Bounded

variable {α : Type} {limit most : ℕ} {sized : α → ℕ}

theorem of_isMalformed {error : BodyError} (h : error.IsMalformed) :
    Bounded limit most sized (.error error) := by
  refine ⟨nofun, fun allowed asked herror => ?_⟩
  cases herror
  exact h.elim

theorem of_request {asked : ℕ} (hlt : limit < asked) (hle : asked ≤ most) :
    Bounded limit most sized (.error (.outputTooSmall limit asked)) := by
  refine ⟨nofun, ?_⟩
  rintro _ _ ⟨⟩
  exact ⟨rfl, hlt, hle⟩

theorem of_content {a : α} (h : sized a ≤ min limit most) :
    Bounded limit most sized (.ok a) := by
  refine ⟨?_, nofun⟩
  rintro _ ⟨⟩
  exact h

theorem mono {most' : ℕ} {result : Except BodyError α} (h : Bounded limit most sized result)
    (hle : most ≤ most') : Bounded limit most' sized result := by
  refine ⟨fun a ha => ?_, fun allowed asked herror => ?_⟩
  · have := h.content a ha
    omega
  · obtain ⟨hallowed, hlt, hasked⟩ := h.request allowed asked herror
    exact ⟨hallowed, hlt, Nat.le_trans hasked hle⟩

theorem map {β : Type} {sized' : β → ℕ} {f : α → β} {result : Except BodyError α}
    (h : Bounded limit most sized result) (hf : ∀ a, sized' (f a) = sized a) :
    Bounded limit most sized' (result.map f) := by
  rcases result with error | a
  · exact ⟨nofun, fun allowed asked herror => h.request allowed asked (by cases herror; rfl)⟩
  · exact .of_content (by rw [hf a]; exact h.content a rfl)

end Bounded

/-- Each sequence pays for the content it asks for, so what is left of the body can ask for no more
than 255 bytes a byte. -/
theorem expandFrom_bounded (start limit : ℕ) (window : Bytes) (input : List UInt8) :
    Bounded limit (window.size - start + 255 * input.length) (·.size - start)
      (expandFrom start limit window input) := by
  fun_induction expandFrom start limit window input with
  | case1 window input error hread => exact .of_isMalformed (Sequence.isMalformed_of_read hread)
  | case2 window input sequence hread size hlt =>
    obtain ⟨hliterals, -⟩ := Sequence.size_of_read hread
    exact .of_request hlt (by omega)
  | case3 window input sequence hread size hle window' hnext =>
    obtain ⟨hliterals, -⟩ := Sequence.size_of_read hread
    refine .of_content ?_
    simp only [window', Array.size_append, List.size_toArray]
    omega
  | case4 window input sequence hread size hle error hnext =>
    exact .of_isMalformed (Sequence.isMalformed_of_continuation hread hnext)
  | case5 window input sequence hread size hle offset length rest hnext hlt =>
    obtain ⟨-, hmatching⟩ := Sequence.size_of_read hread
    obtain ⟨-, hsize⟩ := hmatching hnext
    exact .of_request hlt (by omega)
  | case6 => exact .of_isMalformed trivial
  | case7 window input sequence hread size hle window' offset length rest hnext hle' hreach ih =>
    obtain ⟨-, hmatching⟩ := Sequence.size_of_read hread
    obtain ⟨-, hsize⟩ := hmatching hnext
    refine ih.mono ?_
    simp only [window', size_copyMatch, Array.size_append, List.size_toArray]
    omega

theorem expand_bounded (limit : ℕ) (body history : Bytes) :
    Bounded limit (255 * body.size) Array.size (expand limit body history) := by
  have hfrom := expandFrom_bounded history.size limit history body.toList
  rw [Nat.sub_self, Nat.zero_add, Array.length_toList] at hfrom
  exact hfrom.map fun window => by simp

end Block

/-- Expanding into as much room as a body can ever need gives what expanding into all of the allowed
room gives, the failure and its message included. For whatever room there is, a body, well-formed or
not, neither gets nor asks for more than 255 bytes of it a byte. -/
theorem Decompressor.lz4_eq_expand (body history : Bytes) (maxSize : ℕ) :
    lz4 body history maxSize =
        (Block.expand maxSize body history).mapError (fun error => .corrupted error.message) ∧
      ∀ limit,
        (∀ content, Block.expand limit body history = .ok content →
          content.size ≤ min limit (255 * body.size)) ∧
        ∀ allowed asked, Block.expand limit body history = .error (.outputTooSmall allowed asked) →
          allowed = limit ∧ limit < asked ∧ asked ≤ 255 * body.size := by
  refine ⟨?_, fun limit => ?_⟩
  · rw [lz4, Block.decompress_eq_expand]
  · have hbounded := Block.expand_bounded limit body history
    exact ⟨hbounded.content, hbounded.request⟩

end Lz4Frame
