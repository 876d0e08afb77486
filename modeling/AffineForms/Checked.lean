/-!
# Checked — machine-word arithmetic that reports overflow

A word of a given size is a natural number below that size; a machine word has the size `wordSize`,
which is two to the power 64.  An operation answers the exact result when that result is a word,
and otherwise the cause of the failure:

* `Checked.add`, `Checked.mul` fail when the exact result is not below the size;
* `Checked.sub` fails when the exact result would be negative;
* `Checked.rem` fails when the divisor is zero.

Each operation comes with the condition under which it succeeds.
-/

namespace AffineForms

/-- The number of values of a machine word of 64 bits. -/
def wordSize : Nat := 0x10000000000000000

/-- The ways in which an operation on words can have no result. -/
inductive Overflow where
  | add
  | sub
  | mul
  | rem
  deriving DecidableEq, Repr

namespace Overflow

def message : Overflow → String
  | add => "attempt to add with overflow"
  | sub => "attempt to subtract with overflow"
  | mul => "attempt to multiply with overflow"
  | rem => "attempt to calculate the remainder with a divisor of zero"

end Overflow

namespace Checked

def add (size a b : Nat) : Except Overflow Nat :=
  if a + b < size then .ok (a + b) else .error .add

def sub (a b : Nat) : Except Overflow Nat :=
  if b ≤ a then .ok (a - b) else .error .sub

def mul (size a b : Nat) : Except Overflow Nat :=
  if a * b < size then .ok (a * b) else .error .mul

def rem (a b : Nat) : Except Overflow Nat :=
  if b = 0 then .error .rem else .ok (a % b)

/-! ## When the operations succeed -/

theorem add_eq_ok {size a b : Nat} (h : a + b < size) : add size a b = .ok (a + b) :=
  if_pos h

theorem sub_eq_ok {a b : Nat} (h : b ≤ a) : sub a b = .ok (a - b) :=
  if_pos h

theorem mul_eq_ok {size a b : Nat} (h : a * b < size) : mul size a b = .ok (a * b) :=
  if_pos h

theorem rem_eq_ok {a b : Nat} (h : b ≠ 0) : rem a b = .ok (a % b) :=
  if_neg h

theorem add_eq_error_iff {size a b : Nat} : add size a b = .error .add ↔ size ≤ a + b := by
  by_cases h : a + b < size
  · simp [add, h]
  · simp [add, h, Nat.le_of_not_lt h]

theorem sub_eq_error_iff {a b : Nat} : sub a b = .error .sub ↔ a < b := by
  by_cases h : b ≤ a
  · simp [sub, h, Nat.not_lt_of_le h]
  · simp [sub, h, Nat.lt_of_not_le h]

end Checked

end AffineForms
