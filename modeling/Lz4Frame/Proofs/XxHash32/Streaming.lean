import Lz4Frame.Checksum

/-! A hash in progress that is fed and asked in any order. What it holds is determined by the input
so far, `Hasher.Holds`: the lanes are those behind the full stripes of all of it, wherever the pieces
ended, and what is left of it is pending. So every answer is the one that a hash of the whole input
gives, and asking leaves no trace, `Hasher.run_eq_oneShot`. -/

namespace Lz4Frame.XxHash32

namespace Hasher

/-- What a hasher can be asked to do. -/
inductive Call where
  /-- Take more input. -/
  | update (data : List UInt8)
  /-- Check a stored hash against that of the input so far. -/
  | verify (stored : UInt32)
  deriving DecidableEq

namespace Call

/-- The input that a call brings. -/
def data : Call → List UInt8
  | update data => data
  | verify _ => []

def isUpdate : Call → Bool
  | update _ => true
  | verify _ => false

end Call

/-- The input that calls bring. -/
def input (calls : List Call) : List UInt8 := calls.flatMap Call.data

/-- The answer to one call, if it is a question, and the hasher behind it. -/
def call (hasher : Hasher) : Call → Option Check × Hasher
  | .update data => (none, hasher.update data)
  | .verify stored => (some (.ofHasher hasher stored), hasher)

/-- The answers to calls one after the other, and the hasher behind them. -/
def run (hasher : Hasher) : List Call → List (Option Check) × Hasher
  | [] => ([], hasher)
  | first :: calls =>
    let made := hasher.call first
    let behind := made.2.run calls
    (made.1 :: behind.1, behind.2)

/-- The answers where all input behind `before` is kept, and hashed as a whole for each of them. -/
def oneShot (before : List UInt8) : List Call → List (Option Check)
  | [] => []
  | .update data :: calls => none :: oneShot (before ++ data) calls
  | .verify stored :: calls => some (.ofData before stored) :: oneShot before calls

/-! ### What a hasher holds -/

/-- A hasher that was fed with `input`, in whatever pieces. -/
structure Holds (hasher : Hasher) (input : List UInt8) : Prop where
  stripes : stripes .start input = (hasher.lanes, hasher.pending)
  length : hasher.length = input.length

namespace Holds

variable {hasher : Hasher} {input : List UInt8}

theorem empty : Holds {} [] := ⟨rfl, rfl⟩

theorem update (h : hasher.Holds input) (data : List UInt8) :
    (hasher.update data).Holds (input ++ data) where
  stripes := by
    rw [stripes_append, h.stripes]
    rfl
  length := by
    rw [List.length_append, ← h.length]
    rfl

/-- Only the input counts, and not the pieces in which it came. -/
theorem check (h : hasher.Holds input) (stored : UInt32) :
    Check.ofHasher hasher stored = .ofData input stored := by
  rw [Check.ofHasher, Check.ofData, digest, XxHash32.digest, h.stripes, h.length]

theorem isEmpty_iff (h : hasher.Holds input) : hasher.isEmpty = true ↔ input.length = 0 := by
  rw [isEmpty, beq_iff_eq, h.length]

theorem call (h : hasher.Holds input) (call : Call) :
    (hasher.call call).2.Holds (input ++ call.data) := by
  cases call with
  | update data => exact h.update data
  | verify stored => simpa [Hasher.call, Call.data] using h

/-- From call to call, a hasher holds all input so far and answers for all of it. -/
theorem run (h : hasher.Holds input) (calls : List Call) :
    (hasher.run calls).1 = oneShot input calls ∧
      (hasher.run calls).2.Holds (input ++ Hasher.input calls) := by
  induction calls generalizing hasher input with
  | nil => exact ⟨rfl, by simpa [Hasher.run, Hasher.input] using h⟩
  | cons first calls ih =>
    obtain ⟨hanswers, hbehind⟩ := ih (h.call first)
    refine ⟨?_, ?_⟩
    · rw [Hasher.run]
      dsimp only
      rw [hanswers]
      cases first with
      | update data => rfl
      | verify stored => rw [Hasher.call, h.check, Call.data, List.append_nil, oneShot]
    · rwa [Hasher.input, List.flatMap_cons, ← List.append_assoc]

end Holds

/-! ### Questions -/

/-- Asking does not change a hasher. -/
theorem run_filter_isUpdate (hasher : Hasher) (calls : List Call) :
    (hasher.run (calls.filter Call.isUpdate)).2 = (hasher.run calls).2 := by
  induction calls generalizing hasher with
  | nil => rfl
  | cons first calls ih =>
    cases first with
    | update data => exact ih _
    | verify stored => exact ih hasher

/-- **Hashing in pieces.** However the input is cut into pieces, and whatever is asked in between,
every answer is that of a hash of the whole input so far. The hasher behind the calls knows the
length of the input and its hash, and it is the one that nobody has asked anything. -/
theorem run_eq_oneShot (calls : List Call) :
    let hasher := (run {} calls).2
    (run {} calls).1 = oneShot [] calls ∧
      hasher.length = (input calls).length ∧
      (hasher.isEmpty = true ↔ (input calls).length = 0) ∧
      (∀ stored, Check.ofHasher hasher stored = .ofData (input calls) stored) ∧
      hasher = (run {} (calls.filter Call.isUpdate)).2 := by
  obtain ⟨hanswers, hholds⟩ := Holds.empty.run calls
  rw [List.nil_append] at hholds
  exact ⟨hanswers, hholds.length, hholds.isEmpty_iff, hholds.check,
    (run_filter_isUpdate {} calls).symm⟩

end Hasher

end Lz4Frame.XxHash32
