import Mathlib.Algebra.Order.Field.Rat
import Mathlib.Algebra.Group.Even
import Mathlib.Tactic.Linarith
import Mathlib.Tactic.FieldSimp
import Mathlib.Tactic.IntervalCases
import Mathlib.Tactic.Positivity
import Lz4Frame.ByteSize

/-! Byte counts for people. The unit is the largest one that a count reaches, and the number in
front of it is the count in this unit, rounded to two decimals, `ByteSize.text_rounded`. A count just
below the next unit is rounded up to 1024 of its own unit, since the unit is chosen first. -/

namespace Lz4Frame

/-! ### Rounding -/

/-- A quotient is rounded down or up, to the side that its remainder is nearer to. -/
theorem roundDiv_cases (num den : ℕ) :
    (roundDiv num den = num / den ∧ 2 * (num % den) ≤ den ∧
        (2 * (num % den) = den → num / den % 2 = 0)) ∨
      (roundDiv num den = num / den + 1 ∧ den ≤ 2 * (num % den) ∧
        (2 * (num % den) = den → num / den % 2 = 1)) := by
  unfold roundDiv
  simp only [Bool.or_eq_true, Bool.and_eq_true, decide_eq_true_eq, beq_iff_eq]
  split_ifs with h
  · exact .inl ⟨rfl, by omega, by omega⟩
  · exact .inr ⟨rfl, by omega, by omega⟩

theorem roundDiv_mono {num num' : ℕ} (den : ℕ) (h : num ≤ num') :
    roundDiv num den ≤ roundDiv num' den := by
  have hle : num / den ≤ num' / den := Nat.div_le_div_right h
  have hnum := Nat.div_add_mod num den
  have hnum' := Nat.div_add_mod num' den
  rcases hle.lt_or_eq with hlt | heq
  · rcases roundDiv_cases num den with ⟨hround, -⟩ | ⟨hround, -⟩ <;>
      rcases roundDiv_cases num' den with ⟨hround', -⟩ | ⟨hround', -⟩ <;> omega
  · -- the quotients are the same, so the remainders decide
    rw [← heq] at hnum'
    rcases roundDiv_cases num den with ⟨hround, -⟩ | ⟨hround, hhalf, hodd⟩ <;>
      rcases roundDiv_cases num' den with ⟨hround', hhalf', heven'⟩ | ⟨hround', -⟩ <;> omega

theorem roundDiv_mul (n : ℕ) {den : ℕ} (hden : 0 < den) : roundDiv (n * den) den = n := by
  simp [roundDiv, Nat.mul_div_cancel n hden, hden]

@[simp] theorem roundDiv_one (n : ℕ) : roundDiv n 1 = n := by
  simpa using roundDiv_mul n Nat.one_pos

/-- A number of at most 53 bits needs no rounding. -/
theorem roundNat_of_lt {n : ℕ} (h : n < 2 ^ 53) : roundNat n = n := by
  have hlog : n.log2 - 52 = 0 := by
    rcases Nat.eq_zero_or_pos n with rfl | hpos
    · rfl
    · have := (Nat.log2_lt hpos.ne').2 h
      omega
  rw [roundNat, hlog]
  simp

/-- The hundredths are the ones nearest to `value`, and of two that are equally near, the even
ones. -/
def IsNearest (value : ℚ) (hundredths : ℕ) : Prop :=
  |value - hundredths / 100| ≤ 1 / 200 ∧ (|value - hundredths / 100| = 1 / 200 → Even hundredths)

theorem isNearest_of_distance {value : ℚ} {hundredths den distance : ℕ} (hden : 0 < den)
    (hvalue : |value - hundredths / 100| = distance / (100 * den)) (hhalf : 2 * distance ≤ den)
    (heven : 2 * distance = den → hundredths % 2 = 0) : IsNearest value hundredths := by
  have hden' : (0 : ℚ) < den := by exact_mod_cast hden
  rw [IsNearest, hvalue]
  constructor
  · have hhalf' : (2 : ℚ) * distance ≤ den := by exact_mod_cast hhalf
    rw [div_le_div_iff₀ (by positivity) (by norm_num)]
    linarith
  · intro htie
    rw [div_eq_div_iff (by positivity) (by norm_num)] at htie
    have htie' : (2 : ℚ) * distance = den := by linarith
    exact Nat.even_iff.2 (heven (by exact_mod_cast htie'))

theorem isNearest_roundDiv (num : ℕ) {den : ℕ} (hden : 0 < den) :
    IsNearest ((num : ℚ) / den) (roundDiv (num * 100) den) := by
  have hden' : (den : ℚ) ≠ 0 := by exact_mod_cast hden.ne'
  have hmod := Nat.mod_lt (num * 100) hden
  have hdiv : (num * 100 : ℚ) = den * (num * 100 / den : ℕ) + (num * 100 % den : ℕ) := by
    exact_mod_cast (Nat.div_add_mod (num * 100) den).symm
  rcases roundDiv_cases (num * 100) den with ⟨hround, hhalf, heven⟩ | ⟨hround, hhalf, hodd⟩
  · refine isNearest_of_distance hden ?_ hhalf (hround ▸ heven)
    have hvalue : (num : ℚ) / den - (num * 100 / den : ℕ) / 100 =
        (num * 100 % den : ℕ) / (100 * den) := by
      field_simp
      linarith
    rw [hround, hvalue]
    exact abs_of_nonneg (by positivity)
  · have hvalue : (num : ℚ) / den - ((num * 100 / den : ℕ) + 1) / 100 =
        -((den - num * 100 % den : ℕ) / (100 * den)) := by
      rw [Nat.cast_sub hmod.le]
      field_simp
      linarith
    have hdistance : |(num : ℚ) / den - (roundDiv (num * 100) den : ℕ) / 100| =
        (den - num * 100 % den : ℕ) / (100 * den) := by
      rw [hround, Nat.cast_add, Nat.cast_one, hvalue, abs_neg]
      exact abs_of_nonneg (by positivity)
    exact isNearest_of_distance hden hdistance (by omega) (by omega)

namespace ByteSize

/-! ### Units -/

theorem shiftLeft_eq_pow (unit : ℕ) : 1 <<< (10 * unit) = 1024 ^ unit := by
  rw [Nat.one_shiftLeft, pow_mul]
  norm_num

theorem unitIndex_le (count : ℕ) : unitIndex count ≤ 4 := Nat.min_le_left _ _

theorem le_unitIndex_iff {count unit : ℕ} (hunit : unit ≤ 4) (hcount : 0 < count) :
    unit ≤ unitIndex count ↔ 1024 ^ unit ≤ count := by
  rw [← shiftLeft_eq_pow, Nat.one_shiftLeft, ← Nat.le_log2 hcount.ne', unitIndex]
  omega

/-- A count reaches its unit. -/
theorem pow_unitIndex_le {count : ℕ} (hcount : 0 < count) : 1024 ^ unitIndex count ≤ count :=
  (le_unitIndex_iff (unitIndex_le count) hcount).1 le_rfl

/-- It reaches no bigger one, if there is one. -/
theorem lt_pow_of_unitIndex_lt {count : ℕ} (h : unitIndex count < 4) :
    count < 1024 ^ (unitIndex count + 1) := by
  rcases Nat.eq_zero_or_pos count with rfl | hcount
  · positivity
  · rw [← not_le, ← le_unitIndex_iff h hcount]
    omega

theorem unitIndex_mono {count count' : ℕ} (h : count ≤ count') :
    unitIndex count ≤ unitIndex count' := by
  rcases Nat.eq_zero_or_pos count with rfl | hcount
  · exact Nat.zero_le _
  · exact (le_unitIndex_iff (unitIndex_le count) (hcount.trans_le h)).2
      ((pow_unitIndex_le hcount).trans h)

theorem unitIndex_eq_zero_iff {count : ℕ} : unitIndex count = 0 ↔ count < 1024 := by
  constructor
  · intro h
    have hlt : count < 1024 ^ (unitIndex count + 1) := lt_pow_of_unitIndex_lt (by omega)
    rwa [h] at hlt
  · intro h
    rcases Nat.eq_zero_or_pos count with rfl | hcount
    · rfl
    · have hle : 1 ≤ unitIndex count ↔ 1024 ^ 1 ≤ count := le_unitIndex_iff (by omega) hcount
      omega

theorem unitIndex_pos {count : ℕ} (h : 1024 ≤ count) : 0 < unitIndex count :=
  Nat.pos_of_ne_zero fun hzero => absurd (unitIndex_eq_zero_iff.1 hzero) h.not_gt

/-- A value is divided by 1024 as long as it is not below 1024 and there is a bigger unit, at most
`bigger` times. -/
def divide : (bigger : ℕ) → (value : ℚ) → ℕ × ℚ
  | 0, value => (0, value)
  | bigger + 1, value =>
    if 1024 ≤ value then
      let (unit, quotient) := divide bigger (value / 1024)
      (unit + 1, quotient)
    else
      (0, value)

theorem divide_eq {bigger unit : ℕ} {value : ℚ} (hunit : unit ≤ bigger)
    (hle : 0 < unit → 1024 ^ unit ≤ value) (hlt : unit < bigger → value < 1024 ^ (unit + 1)) :
    divide bigger value = (unit, value / 1024 ^ unit) := by
  induction bigger generalizing unit value with
  | zero =>
    obtain rfl : unit = 0 := by omega
    simp [divide]
  | succ bigger ih =>
    cases unit with
    | zero =>
      have hbelow : value < 1024 := by simpa using hlt (Nat.succ_pos bigger)
      simp [divide, hbelow.not_ge]
    | succ unit =>
      have hpow : (1024 : ℚ) ^ (unit + 1) ≤ value := hle (Nat.succ_pos unit)
      have hreached : 1024 ≤ value :=
        le_trans (le_self_pow₀ (by norm_num) (Nat.succ_ne_zero unit)) hpow
      have hbehind : divide bigger (value / 1024) = (unit, value / 1024 / 1024 ^ unit) := by
        refine ih (by omega) (fun _ => ?_) fun hbigger => ?_
        · rw [le_div_iff₀ (by norm_num), ← pow_succ]
          exact hpow
        · rw [div_lt_iff₀ (by norm_num), ← pow_succ]
          exact hlt (by omega)
      rw [divide, if_pos hreached, hbehind, div_div, ← pow_succ']

/-- The unit of a count is the one at which the divisions end. -/
theorem divide_count (count : ℕ) :
    divide 4 count = (unitIndex count, (count : ℚ) / 1024 ^ unitIndex count) := by
  refine divide_eq (unitIndex_le count) (fun hpos => ?_) fun hlt => ?_
  · have hcount : 0 < count := by
      by_contra hzero
      obtain rfl : count = 0 := by omega
      exact absurd hpos (by decide)
    exact_mod_cast pow_unitIndex_le hcount
  · exact_mod_cast lt_pow_of_unitIndex_lt hlt

/-! ### Numbers in front of the unit -/

theorem hundredths_eq (count : ℕ) :
    hundredths count = roundDiv (count * 100) (1024 ^ unitIndex count) := by
  rw [hundredths, shiftLeft_eq_pow]

theorem isNearest_hundredths (count : ℕ) :
    IsNearest ((count : ℚ) / 1024 ^ unitIndex count) (hundredths count) := by
  have hnearest : IsNearest ((count : ℚ) / (1024 ^ unitIndex count : ℕ))
      (roundDiv (count * 100) (1024 ^ unitIndex count)) := isNearest_roundDiv count (by positivity)
  rw [hundredths_eq]
  exact_mod_cast hnearest

theorem hundredths_of_lt {count : ℕ} (h : count < 1024) : hundredths count = count * 100 := by
  rw [hundredths_eq, unitIndex_eq_zero_iff.2 h, pow_zero, roundDiv_one]

theorem hundredths_mono {count count' : ℕ} (h : count ≤ count')
    (hunit : unitIndex count = unitIndex count') : hundredths count ≤ hundredths count' := by
  rw [hundredths_eq, hundredths_eq, hunit]
  exact roundDiv_mono _ (Nat.mul_le_mul_right 100 h)

/-- A count that reaches its unit is shown as 1.00 of it at least. -/
theorem le_hundredths {count : ℕ} (hcount : 0 < count) : 100 ≤ hundredths count := by
  have hle : 100 * 1024 ^ unitIndex count ≤ count * 100 := by
    rw [Nat.mul_comm]
    exact Nat.mul_le_mul_right 100 (pow_unitIndex_le hcount)
  calc 100 = roundDiv (100 * 1024 ^ unitIndex count) (1024 ^ unitIndex count) :=
        (roundDiv_mul 100 (by positivity)).symm
    _ ≤ hundredths count := by
        rw [hundredths_eq]
        exact roundDiv_mono _ hle

/-- A count below the next unit is shown as 1024.00 of its own at most, and as less than that if and
only if half a hundredth of its unit does not take it to the next one. -/
theorem hundredths_of_unitIndex_lt {count : ℕ} (h : unitIndex count < 4) :
    hundredths count ≤ 102400 ∧
      (hundredths count < 102400 ↔
        1024 ^ unitIndex count < 200 * (1024 ^ (unitIndex count + 1) - count)) := by
  have hlt := lt_pow_of_unitIndex_lt h
  rw [hundredths_eq]
  rw [pow_succ] at hlt ⊢
  generalize 1024 ^ unitIndex count = unit at *
  have hdiv := Nat.div_add_mod (count * 100) unit
  have hquotient : count * 100 / unit ≤ 102399 := by
    have hlt' : count * 100 / unit < 102400 :=
      Nat.div_lt_of_lt_mul (by omega)
    omega
  rcases hquotient.lt_or_eq with hbelow | heq
  · have hmul : unit * (count * 100 / unit) ≤ unit * 102398 :=
      Nat.mul_le_mul_left unit (by omega)
    have hmod := Nat.mod_lt (count * 100) (show 0 < unit by omega)
    rcases roundDiv_cases (count * 100) unit with ⟨hround, -⟩ | ⟨hround, -⟩ <;> omega
  · -- the quotient is odd, so a tie goes up
    rw [heq] at hdiv
    rcases roundDiv_cases (count * 100) unit with ⟨hround, hhalf, heven⟩ | ⟨hround, hhalf, -⟩ <;>
      omega

/-! ### Texts -/

theorem fixedPoint_two (n : ℕ) : fixedPoint 2 n = s!"{n / 100}.{n / 10 % 10}{n % 10}" := by
  have hdigits : ∀ r < 100, String.ofList ((Nat.toDigits 10 r).leftpad 2 '0') =
      toString (r / 10) ++ toString (r % 10) := by decide +kernel
  have htens : n % 100 / 10 = n / 10 % 10 := by omega
  have hones : n % 100 % 10 = n % 10 := by omega
  rw [fixedPoint, show Nat.pow 10 2 = 100 from rfl, hdigits _ (Nat.mod_lt n (by omega)), htens,
    hones]
  simp [String.append_assoc]

theorem text_of_lt {bytes : ℕ} (h : bytes < 1024) : text bytes = s!"{bytes} B" := if_pos h

/-- The names of the units above bytes. -/
theorem exists_name {bytes : ℕ} (h : 1024 ≤ bytes) :
    ∃ letter, units[unitIndex bytes]? = some (String.ofList [letter, 'i', 'B']) := by
  have hpos := unitIndex_pos h
  have hle := unitIndex_le bytes
  generalize unitIndex bytes = unit at *
  interval_cases unit
  · exact ⟨'K', rfl⟩
  · exact ⟨'M', rfl⟩
  · exact ⟨'G', rfl⟩
  · exact ⟨'T', rfl⟩

theorem text_of_le {bytes : ℕ} {name : String} (h : 1024 ≤ bytes) (hlt : bytes < 2 ^ 53)
    (hname : units[unitIndex bytes]? = some name) :
    text bytes = s!"{fixedPoint 2 (hundredths bytes)} {name}" := by
  rw [text, if_neg (by omega), roundNat_of_lt hlt]
  dsimp only
  rw [List.getD_eq_getElem?_getD, hname, Option.getD_some]

theorem text_eq_iff {bytes : ℕ} (hlt : bytes < 2 ^ 53) :
    text bytes = s!"{bytes} B" ↔ bytes < 1024 := by
  refine ⟨fun h => ?_, text_of_lt⟩
  by_contra hle
  obtain ⟨letter, hname⟩ := exists_name (Nat.not_lt.1 hle)
  rw [text_of_le (Nat.not_lt.1 hle) hlt hname] at h
  -- the character before the last one differs
  have hchars := congrArg (fun text => text.toList.reverse) h
  simp [toString, String.toList_singleton] at hchars

/-- A count of at most 53 bits is shown as it is if and only if it is below 1024. Any other one is
divided by 1024 up to its unit and shown with the nearest two decimals, as 1.00 at least. Where
there is a bigger unit, it is shown as less than 1024.00 of its own, except just below the bigger
one, where it is shown as 1024.00. A bigger count never has a smaller unit, nor a smaller number in
the same one. -/
theorem text_rounded {bytes : ℕ} (hbytes : bytes < 2 ^ 53) :
    let unit := unitIndex bytes
    let shown := hundredths bytes
    (text bytes = s!"{bytes} B" ↔ bytes < 1024) ∧
      (bytes < 1024 → unit = 0 ∧ shown = bytes * 100) ∧
      (1024 ≤ bytes → 0 < unit ∧ divide 4 bytes = (unit, (bytes : ℚ) / 1024 ^ unit) ∧
        IsNearest ((bytes : ℚ) / 1024 ^ unit) shown ∧
        (∃ name, units[unit]? = some name ∧
          text bytes = s!"{shown / 100}.{shown / 10 % 10}{shown % 10} {name}") ∧
        100 ≤ shown ∧
        (unit < 4 → shown ≤ 102400 ∧
          (shown < 102400 ↔ 1024 ^ unit < 200 * (1024 ^ (unit + 1) - bytes)))) ∧
      ∀ bytes' ≥ bytes, unit ≤ unitIndex bytes' ∧
        (unit = unitIndex bytes' → shown ≤ hundredths bytes') := by
  intro unit shown
  refine ⟨text_eq_iff hbytes, fun hlt => ?_, fun hle => ?_,
    fun bytes' h => ⟨unitIndex_mono h, hundredths_mono h⟩⟩
  · exact ⟨unitIndex_eq_zero_iff.2 hlt, hundredths_of_lt hlt⟩
  · obtain ⟨letter, hname⟩ := exists_name hle
    have htext := text_of_le hle hbytes hname
    rw [fixedPoint_two] at htext
    exact ⟨unitIndex_pos hle, divide_count bytes, isNearest_hundredths bytes, ⟨_, hname, htext⟩,
      le_hundredths (by omega), hundredths_of_unitIndex_lt⟩

/-- A count that is rounded up: 1.177 of the third unit. -/
theorem text_rounded_mebi :
    (1234567 : ℕ) < 2 ^ 53 ∧ text 1234567 = "1.18 MiB" ∧
      divide 4 1234567 = (2, 1234567 / 1024 ^ 2) ∧ IsNearest (1234567 / 1024 ^ 2) 118 ∧
      unitIndex 1234567 ≤ unitIndex 1300000 ∧ hundredths 1234567 ≤ hundredths 1300000 := by
  have hbytes : 1234567 < 2 ^ 53 := by decide
  have hunit : unitIndex 1234567 = 2 := by decide +kernel
  have hshown : hundredths 1234567 = 118 := by decide +kernel
  obtain ⟨-, -, hrounded, hmono⟩ := text_rounded hbytes
  obtain ⟨-, hdivide, hnearest, ⟨name, hname, htext⟩, -, -⟩ := hrounded (by decide)
  obtain ⟨hle, hnumber⟩ := hmono 1300000 (by decide)
  rw [hunit] at hdivide hnearest hname
  rw [hshown] at hnearest htext
  obtain rfl : "MiB" = name := Option.some.inj hname
  refine ⟨hbytes, htext, ?_, ?_, hle, hnumber (by decide +kernel)⟩
  · exact_mod_cast hdivide
  · exact_mod_cast hnearest

/-- Just below the third unit, the number in front of the second one is not below 1024. -/
theorem text_below_mebi :
    (1048575 : ℕ) < 2 ^ 53 ∧ unitIndex 1048575 = 1 ∧ text 1048575 = "1024.00 KiB" ∧
      ¬hundredths 1048575 < 102400 := by
  decide +kernel

end ByteSize

end Lz4Frame
