import Mathlib.Data.List.Basic
import Lz4Frame.XxHash32

/-! A single changed byte always changes the hash: `XxHash32.digest_ne_of_differOnce`. Each step of
the hash mixes one word into one word, and as a function of either of them it loses nothing. So the
change goes into one lane, or into the bytes behind the last stripe, and nothing takes it back. That
says nothing about two changes, which may cancel each other. -/

namespace Lz4Frame

/-- Byte strings of one length that have different bytes in exactly one place. -/
inductive DifferOnce : List UInt8 → List UInt8 → Prop
  | here {byte byte' : UInt8} (rest : List UInt8) :
    byte ≠ byte' → DifferOnce (byte :: rest) (byte' :: rest)
  | there (byte : UInt8) {rest rest' : List UInt8} :
    DifferOnce rest rest' → DifferOnce (byte :: rest) (byte :: rest')

namespace DifferOnce

variable {bytes bytes' : List UInt8}

theorem length_eq (h : DifferOnce bytes bytes') : bytes.length = bytes'.length := by
  induction h with
  | here rest hne => rfl
  | there byte h ih => rw [List.length_cons, List.length_cons, ih]

theorem append_left (front : List UInt8) (h : DifferOnce bytes bytes') :
    DifferOnce (front ++ bytes) (front ++ bytes') := by
  induction front with
  | nil => exact h
  | cons byte front ih => exact .there byte ih

theorem append_right (behind : List UInt8) (h : DifferOnce bytes bytes') :
    DifferOnce (bytes ++ behind) (bytes' ++ behind) := by
  induction h with
  | here rest hne => exact .here (rest ++ behind) hne
  | there byte h ih => exact .there byte ih

theorem set {i : ℕ} (hi : i < bytes.length) {byte : UInt8} (hne : bytes[i] ≠ byte) :
    DifferOnce bytes (bytes.set i byte) := by
  induction bytes generalizing i with
  | nil => cases hi
  | cons first bytes ih =>
    cases i with
    | zero => exact .here bytes hne
    | succ i => exact .there first (ih (Nat.lt_of_succ_lt_succ hi) hne)

end DifferOnce

namespace XxHash32

/-! ### Steps that lose nothing -/

def primes : List UInt32 := [prime1, prime2, prime3, prime4, prime5]

/-- All of these primes are odd, so each of them has an inverse. -/
theorem mul_prime_injective {prime : UInt32} (h : prime ∈ primes) :
    Function.Injective fun word : UInt32 => word * prime := by
  obtain ⟨inverse, hinverse⟩ : ∃ inverse, prime * inverse = 1 := by
    simp only [primes, List.mem_cons, List.not_mem_nil, or_false] at h
    rcases h with rfl | rfl | rfl | rfl | rfl
    exacts [⟨244002641, by decide⟩, ⟨3066638151, by decide⟩, ⟨2828982549, by decide⟩,
      ⟨2701016015, by decide⟩, ⟨2923004241, by decide⟩]
  intro left right heq
  have hback := congrArg (· * inverse) heq
  simpa only [UInt32.mul_assoc, hinverse, UInt32.mul_one] using hback

theorem toBitVec_rotateLeft (word : UInt32) {count : UInt32} (hpos : 0 < count.toNat)
    (hlt : count.toNat < 32) :
    (rotateLeft word count).toBitVec = word.toBitVec.rotateLeft count.toNat := by
  have hcount : (count.toBitVec % 32).toNat = count.toNat := by
    rw [BitVec.toNat_umod]
    exact Nat.mod_eq_of_lt hlt
  have hrest : ((32 - count).toBitVec % 32).toNat = 32 - count.toNat := by
    have hsub : (32 - count).toNat = 32 - count.toNat :=
      UInt32.toNat_sub_of_le _ _ (UInt32.le_iff_toNat_le.2 (Nat.le_of_lt hlt))
    rw [BitVec.toNat_umod, UInt32.toNat_toBitVec, hsub]
    exact Nat.mod_eq_of_lt (Nat.sub_lt (by decide) hpos)
  rw [rotateLeft, UInt32.toBitVec_or, UInt32.toBitVec_shiftLeft, UInt32.toBitVec_shiftRight,
    BitVec.shiftLeft_eq', BitVec.ushiftRight_eq', hcount, hrest, BitVec.rotateLeft_def,
    Nat.mod_eq_of_lt hlt]

/-- The bit that goes to the place of bit `i + count` comes from bit `i`. -/
theorem rotateLeft_injective {count : UInt32} (hpos : 0 < count.toNat) (hlt : count.toNat < 32) :
    Function.Injective fun word => rotateLeft word count := by
  intro left right heq
  have hbits : left.toBitVec.rotateLeft count.toNat = right.toBitVec.rotateLeft count.toNat := by
    rw [← toBitVec_rotateLeft left hpos hlt, ← toBitVec_rotateLeft right hpos hlt]
    exact congrArg UInt32.toBitVec heq
  apply UInt32.toBitVec_inj.1
  ext i hi
  by_cases hwrap : i + count.toNat < 32
  · have hbit := congrArg (·.getLsbD (i + count.toNat)) hbits
    have hplace : ¬ i + count.toNat < count.toNat := by omega
    simpa [BitVec.getLsbD_rotateLeft, Nat.mod_eq_of_lt hlt, hwrap, hplace,
      BitVec.getLsbD_eq_getElem hi] using hbit
  · have hbit := congrArg (·.getLsbD (i + count.toNat - 32)) hbits
    have hplace : i + count.toNat - 32 < count.toNat := by omega
    have hback : 32 - count.toNat + (i + count.toNat - 32) = i := by omega
    simpa [BitVec.getLsbD_rotateLeft, Nat.mod_eq_of_lt hlt, hplace, hback,
      BitVec.getLsbD_eq_getElem hi] using hbit

/-- What a word and its own shift make up determines the word: a difference of two such words would
be its own shift, and so have no highest bit. -/
theorem xorShift_injective {count : UInt32} (hpos : 0 < count.toNat) (hlt : count.toNat < 32) :
    Function.Injective fun word : UInt32 => word ^^^ word >>> count := by
  intro left right heq
  have hshift : left ^^^ right = (left ^^^ right) >>> count := by
    have hzero : (left ^^^ right) ^^^ (left ^^^ right) >>> count = 0 := by
      rw [UInt32.shiftRight_xor]
      have hswap : left ^^^ right ^^^ (left >>> count ^^^ right >>> count) =
          (left ^^^ left >>> count) ^^^ (right ^^^ right >>> count) := by ac_rfl
      rw [hswap]
      exact UInt32.xor_eq_zero_iff.2 heq
    exact UInt32.xor_eq_zero_iff.1 hzero
  have hnat := congrArg UInt32.toNat hshift
  rw [UInt32.toNat_shiftRight, Nat.mod_eq_of_lt hlt, Nat.shiftRight_eq_div_pow] at hnat
  apply UInt32.xor_eq_zero_iff.1
  apply UInt32.toNat_inj.1
  by_contra hne
  have hlt : (left ^^^ right).toNat / 2 ^ count.toNat < (left ^^^ right).toNat :=
    Nat.div_lt_self (Nat.pos_of_ne_zero hne) (Nat.one_lt_two_pow (Nat.ne_of_gt hpos))
  omega

/-! ### Words and lanes -/

theorem toNat_word (b₀ b₁ b₂ b₃ : UInt8) :
    (word b₀ b₁ b₂ b₃).toNat =
      b₀.toNat + b₁.toNat * 0x100 + b₂.toNat * 0x10000 + b₃.toNat * 0x1000000 := by
  have h₀ := b₀.toNat_lt
  have h₁ := b₁.toNat_lt
  have h₂ := b₂.toNat_lt
  have h₃ := b₃.toNat_lt
  simp only [word, UInt32.toNat_add, UInt32.toNat_mul, UInt8.toNat_toUInt32, UInt32.reduceToNat]
  omega

theorem word_inj {b₀ b₁ b₂ b₃ c₀ c₁ c₂ c₃ : UInt8} :
    word b₀ b₁ b₂ b₃ = word c₀ c₁ c₂ c₃ ↔ b₀ = c₀ ∧ b₁ = c₁ ∧ b₂ = c₂ ∧ b₃ = c₃ := by
  have := b₀.toNat_lt
  have := b₁.toNat_lt
  have := b₂.toNat_lt
  have := b₃.toNat_lt
  have := c₀.toNat_lt
  have := c₁.toNat_lt
  have := c₂.toNat_lt
  have := c₃.toNat_lt
  simp only [← UInt32.toNat_inj, ← UInt8.toNat_inj, toNat_word]
  omega

/-- A change lies in the first word or behind it. -/
theorem word_ne_or_differOnce {b₀ b₁ b₂ b₃ : UInt8} {rest bytes : List UInt8}
    (h : DifferOnce (b₀ :: b₁ :: b₂ :: b₃ :: rest) bytes) :
    (∃ c₀ c₁ c₂ c₃, bytes = c₀ :: c₁ :: c₂ :: c₃ :: rest ∧
      word b₀ b₁ b₂ b₃ ≠ word c₀ c₁ c₂ c₃) ∨
    ∃ rest', bytes = b₀ :: b₁ :: b₂ :: b₃ :: rest' ∧ DifferOnce rest rest' := by
  simp only [ne_eq, word_inj]
  rcases h with ⟨_, hne⟩ | ⟨_, ⟨_, hne⟩ | ⟨_, ⟨_, hne⟩ | ⟨_, ⟨_, hne⟩ | ⟨_, h⟩⟩⟩⟩
  · exact .inl ⟨_, _, _, _, rfl, fun heq => hne heq.1⟩
  · exact .inl ⟨_, _, _, _, rfl, fun heq => hne heq.2.1⟩
  · exact .inl ⟨_, _, _, _, rfl, fun heq => hne heq.2.2.1⟩
  · exact .inl ⟨_, _, _, _, rfl, fun heq => hne heq.2.2.2⟩
  · exact .inr ⟨_, rfl, h⟩

/-- Four bytes make a word. -/
theorem exists_word (bytes : List UInt8) (h : 4 ≤ bytes.length) :
    ∃ b₀ b₁ b₂ b₃ rest, bytes = b₀ :: b₁ :: b₂ :: b₃ :: rest := by
  rcases bytes with _ | ⟨b₀, _ | ⟨b₁, _ | ⟨b₂, _ | ⟨b₃, rest⟩⟩⟩⟩
  case cons.cons.cons.cons => exact ⟨b₀, b₁, b₂, b₃, rest, rfl⟩
  all_goals
    simp only [List.length_cons, List.length_nil] at h
    omega

/-- The step that every word of the input goes through. -/
def mix (factor count prime hash word : UInt32) : UInt32 :=
  rotateLeft (hash + word * factor) count * prime

section Mix

variable {factor count prime : UInt32}

theorem mix_injective (hfactor : factor ∈ primes) (hprime : prime ∈ primes)
    (hpos : 0 < count.toNat) (hlt : count.toNat < 32) (hash : UInt32) :
    Function.Injective (mix factor count prime hash) := by
  intro left right heq
  have hsum := rotateLeft_injective hpos hlt (mul_prime_injective hprime heq)
  exact mul_prime_injective hfactor ((UInt32.add_right_inj hash).1 hsum)

theorem mix_injective_hash (hprime : prime ∈ primes) (hpos : 0 < count.toNat)
    (hlt : count.toNat < 32) (word : UInt32) :
    Function.Injective (mix factor count prime · word) := by
  intro left right heq
  have hsum := rotateLeft_injective hpos hlt (mul_prime_injective hprime heq)
  exact (UInt32.add_left_inj (word * factor)).1 hsum

end Mix

theorem round_injective (lane : UInt32) : Function.Injective (round lane) :=
  mix_injective (by decide) (by decide) (by decide) (by decide) lane

theorem round_injective_lane (word : UInt32) : Function.Injective (round · word) :=
  mix_injective_hash (by decide) (by decide) (by decide) word

/-- Fewer bytes than a stripe has are left for the end. -/
theorem stripes_of_length_lt (lanes : Lanes) {data : List UInt8} (h : data.length < 16) :
    stripes lanes data = (lanes, data) := by
  rw [stripes.eq_2]
  rintro _ _ _ _ _ _ _ _ _ _ _ _ _ _ _ _ _ rfl
  simp only [List.length_cons] at h
  omega

/-- Exactly one lane is different. -/
inductive Lanes.DifferOnce : Lanes → Lanes → Prop
  | a {a a' : UInt32} (b c d : UInt32) : a ≠ a' → DifferOnce ⟨a, b, c, d⟩ ⟨a', b, c, d⟩
  | b {b b' : UInt32} (a c d : UInt32) : b ≠ b' → DifferOnce ⟨a, b, c, d⟩ ⟨a, b', c, d⟩
  | c {c c' : UInt32} (a b d : UInt32) : c ≠ c' → DifferOnce ⟨a, b, c, d⟩ ⟨a, b, c', d⟩
  | d {d d' : UInt32} (a b c : UInt32) : d ≠ d' → DifferOnce ⟨a, b, c, d⟩ ⟨a, b, c, d'⟩

theorem Lanes.DifferOnce.join_ne {lanes lanes' : Lanes} (h : DifferOnce lanes lanes') :
    lanes.join ≠ lanes'.join := by
  unfold join
  cases h with
  | a b c d hne =>
    simp only [ne_eq, UInt32.add_left_inj]
    exact (rotateLeft_injective (by decide) (by decide)).ne hne
  | b a c d hne =>
    simp only [ne_eq, UInt32.add_left_inj, UInt32.add_right_inj]
    exact (rotateLeft_injective (by decide) (by decide)).ne hne
  | c a b d hne =>
    simp only [ne_eq, UInt32.add_left_inj, UInt32.add_right_inj]
    exact (rotateLeft_injective (by decide) (by decide)).ne hne
  | d a b c hne =>
    simp only [ne_eq, UInt32.add_right_inj]
    exact (rotateLeft_injective (by decide) (by decide)).ne hne

/-- Further stripes do not bring two lanes together again. -/
theorem stripes_of_lanes {lanes lanes' : Lanes} (h : lanes.DifferOnce lanes')
    (data : List UInt8) :
    (stripes lanes data).1.DifferOnce (stripes lanes' data).1 ∧
      (stripes lanes data).2 = (stripes lanes' data).2 := by
  fun_induction stripes lanes data generalizing lanes' with
  | case1 lanes a₀ a₁ a₂ a₃ b₀ b₁ b₂ b₃ c₀ c₁ c₂ c₃ d₀ d₁ d₂ d₃ rest ih =>
    rw [stripes]
    apply ih
    cases h with
    | a b c d hne => exact .a _ _ _ ((round_injective_lane _).ne hne)
    | b a c d hne => exact .b _ _ _ ((round_injective_lane _).ne hne)
    | c a b d hne => exact .c _ _ _ ((round_injective_lane _).ne hne)
    | d a b c hne => exact .d _ _ _ ((round_injective_lane _).ne hne)
  | case2 lanes rest hrest =>
    rw [stripes.eq_2 _ _ hrest]
    exact ⟨h, rfl⟩

/-- A changed byte gets into one lane, or it is still to come behind the last stripe. -/
theorem stripes_of_differOnce (lanes : Lanes) {data data' : List UInt8}
    (h : DifferOnce data data') :
    (16 ≤ data.length ∧ (stripes lanes data).1.DifferOnce (stripes lanes data').1 ∧
      (stripes lanes data).2 = (stripes lanes data').2) ∨
    ((stripes lanes data).1 = (stripes lanes data').1 ∧
      DifferOnce (stripes lanes data).2 (stripes lanes data').2) := by
  fun_induction stripes lanes data generalizing data' with
  | case1 lanes a₀ a₁ a₂ a₃ b₀ b₁ b₂ b₃ c₀ c₁ c₂ c₃ d₀ d₁ d₂ d₃ rest ih =>
    have hlength : ∀ rest : List UInt8, 16 ≤ (a₀ :: a₁ :: a₂ :: a₃ :: b₀ :: b₁ :: b₂ :: b₃ :: c₀ ::
        c₁ :: c₂ :: c₃ :: d₀ :: d₁ :: d₂ :: d₃ :: rest).length := by
      intro rest
      simp only [List.length_cons]
      omega
    rcases word_ne_or_differOnce h with ⟨_, _, _, _, rfl, hne⟩ | ⟨_, rfl, hb⟩
    · exact .inl ⟨hlength rest, stripes_of_lanes (.a _ _ _ ((round_injective _).ne hne)) rest⟩
    rcases word_ne_or_differOnce hb with ⟨_, _, _, _, rfl, hne⟩ | ⟨_, rfl, hc⟩
    · exact .inl ⟨hlength rest, stripes_of_lanes (.b _ _ _ ((round_injective _).ne hne)) rest⟩
    rcases word_ne_or_differOnce hc with ⟨_, _, _, _, rfl, hne⟩ | ⟨_, rfl, hd⟩
    · exact .inl ⟨hlength rest, stripes_of_lanes (.c _ _ _ ((round_injective _).ne hne)) rest⟩
    rcases word_ne_or_differOnce hd with ⟨_, _, _, _, rfl, hne⟩ | ⟨_, rfl, hrest⟩
    · exact .inl ⟨hlength rest, stripes_of_lanes (.d _ _ _ ((round_injective _).ne hne)) rest⟩
    rcases ih hrest with ⟨-, hlanes⟩ | hbehind
    · exact .inl ⟨hlength rest, hlanes⟩
    · exact .inr hbehind
  | case2 lanes rest hrest =>
    have hlt : rest.length < 16 := by
      by_contra hle
      obtain ⟨_, _, _, _, behind, rfl⟩ := exists_word rest (by omega)
      simp only [List.length_cons] at hle
      obtain ⟨_, _, _, _, behind, rfl⟩ := exists_word behind (by omega)
      simp only [List.length_cons] at hle
      obtain ⟨_, _, _, _, behind, rfl⟩ := exists_word behind (by omega)
      simp only [List.length_cons] at hle
      obtain ⟨_, _, _, _, behind, rfl⟩ := exists_word behind (by omega)
      exact hrest _ _ _ _ _ _ _ _ _ _ _ _ _ _ _ _ _ rfl
    rw [stripes_of_length_lt lanes (h.length_eq ▸ hlt)]
    exact .inr ⟨rfl, h⟩

/-! ### The end of the input -/

section Fold

variable {step : UInt32 → UInt8 → UInt32}

theorem foldl_injective (hhash : ∀ byte, Function.Injective (step · byte)) (bytes : List UInt8) :
    Function.Injective fun hash => bytes.foldl step hash := by
  induction bytes with
  | nil => exact fun _ _ heq => heq
  | cons byte bytes ih => exact fun _ _ heq => hhash byte (ih heq)

theorem foldl_ne_of_differOnce (hhash : ∀ byte, Function.Injective (step · byte))
    (hbyte : ∀ hash, Function.Injective (step hash)) (hash : UInt32) {bytes bytes' : List UInt8}
    (h : DifferOnce bytes bytes') : bytes.foldl step hash ≠ bytes'.foldl step hash := by
  induction h generalizing hash with
  | here rest hne => exact (foldl_injective hhash rest).ne ((hbyte hash).ne hne)
  | there byte h ih => exact ih (step hash byte)

end Fold

/-- One of the last bytes. -/
def mixByte (hash : UInt32) (byte : UInt8) : UInt32 := mix prime5 11 prime1 hash byte.toUInt32

theorem mixByte_injective (hash : UInt32) : Function.Injective (mixByte hash) := by
  intro left right heq
  exact UInt8.toUInt32_inj.1 (mix_injective (by decide) (by decide) (by decide) (by decide) hash heq)

theorem mixByte_injective_hash (byte : UInt8) : Function.Injective (mixByte · byte) :=
  mix_injective_hash (by decide) (by decide) (by decide) byte.toUInt32

theorem mixRest_of_not_word (hash : UInt32) {rest : List UInt8}
    (h : ∀ b₀ b₁ b₂ b₃ behind, rest = b₀ :: b₁ :: b₂ :: b₃ :: behind → False) :
    mixRest hash rest = rest.foldl mixByte hash := mixRest.eq_2 hash rest h

theorem mixRest_cons (hash : UInt32) (b₀ b₁ b₂ b₃ : UInt8) (rest : List UInt8) :
    mixRest hash (b₀ :: b₁ :: b₂ :: b₃ :: rest) =
      mixRest (mix prime3 17 prime4 hash (word b₀ b₁ b₂ b₃)) rest := by
  rw [mixRest]
  rfl

/-- The bytes behind the last stripe are mixed in without losing anything of what came before. -/
theorem mixRest_injective (rest : List UInt8) : Function.Injective (mixRest · rest) := by
  suffices h : ∀ hash hash', hash ≠ hash' → mixRest hash rest ≠ mixRest hash' rest by
    intro hash hash' heq
    by_contra hne
    exact h hash hash' hne heq
  intro hash hash' hne
  fun_induction mixRest hash rest generalizing hash' with
  | case1 hash b₀ b₁ b₂ b₃ rest ih =>
    rw [mixRest_cons]
    exact ih _ ((mix_injective_hash (by decide) (by decide) (by decide) _).ne hne)
  | case2 hash rest hrest =>
    rw [mixRest_of_not_word hash' hrest]
    exact (foldl_injective mixByte_injective_hash rest).ne hne

theorem mixRest_ne_of_differOnce (hash : UInt32) {rest rest' : List UInt8}
    (h : DifferOnce rest rest') : mixRest hash rest ≠ mixRest hash rest' := by
  fun_induction mixRest hash rest generalizing rest' with
  | case1 hash b₀ b₁ b₂ b₃ rest ih =>
    rcases word_ne_or_differOnce h with ⟨_, _, _, _, rfl, hne⟩ | ⟨_, rfl, hrest⟩
    · rw [mixRest_cons]
      refine (mixRest_injective rest).ne ?_
      exact (mix_injective (by decide) (by decide) (by decide) (by decide) hash).ne hne
    · rw [mixRest_cons]
      exact ih hrest
  | case2 hash rest hrest =>
    have hrest' : ∀ b₀ b₁ b₂ b₃ behind, rest' = b₀ :: b₁ :: b₂ :: b₃ :: behind → False := by
      rintro b₀ b₁ b₂ b₃ behind rfl
      have hlength := h.length_eq
      simp only [List.length_cons] at hlength
      obtain ⟨_, _, _, _, behind, rfl⟩ := exists_word rest (by omega)
      exact hrest _ _ _ _ _ rfl
    rw [mixRest_of_not_word hash hrest']
    exact foldl_ne_of_differOnce mixByte_injective_hash mixByte_injective hash h

theorem avalanche_injective : Function.Injective avalanche := by
  intro left right heq
  have hlast := xorShift_injective (by decide) (by decide) heq
  have hmiddle := xorShift_injective (by decide) (by decide) (mul_prime_injective (by decide) hlast)
  exact xorShift_injective (by decide) (by decide) (mul_prime_injective (by decide) hmiddle)

/-- **Sensitivity.** A byte string with one changed byte has a different hash. -/
theorem digest_ne_of_differOnce {data data' : List UInt8} (h : DifferOnce data data') :
    digest data ≠ digest data' := by
  unfold digest finish
  rw [← h.length_eq]
  apply avalanche_injective.ne
  rcases stripes_of_differOnce .start h with ⟨hlength, hlanes, hrest⟩ | ⟨hlanes, hrest⟩
  · rw [hrest, if_pos hlength, if_pos hlength]
    apply (mixRest_injective _).ne
    rw [ne_eq, UInt32.add_left_inj]
    exact hlanes.join_ne
  · rw [hlanes]
    exact mixRest_ne_of_differOnce _ hrest

end XxHash32

end Lz4Frame
