/-!
# Machine words

Offsets, sizes, addresses and struct ids are natural numbers below `Word.bound`. Sums, products
and differences are checked: a result outside the range is a `Fault`, never a wrapped number.
-/
namespace TypeRecovery

inductive ArithOp where
  | add
  | multiply
  | subtract
deriving DecidableEq

/-- Why a computation stopped without a result: a number left the range of machine words, a descent
through nested structs came around, or a recursion used up the steps it was given. -/
inductive Fault where
  | overflow (op : ArithOp)
  /-- Lists which struct held which other at its start when the descent began, by number. -/
  | endless (nesting : List (Nat × Nat))
  | exhausted
deriving DecidableEq

def ArithOp.verb : ArithOp → String
  | add => "add"
  | multiply => "multiply"
  | subtract => "subtract"

def Fault.message : Fault → String
  | overflow op => "attempt to " ++ op.verb ++ " with overflow"
  | endless _ => "descent through nested structs did not end"
  | exhausted => "evaluation did not finish"

abbrev Checked := Except Fault

namespace Word

/-- Words are the naturals below this bound. -/
def bound : Nat := 18446744073709551616

/-- The largest word. -/
def max : Nat := 18446744073709551615

def add (a b : Nat) : Checked Nat :=
  if a + b < bound then .ok (a + b) else .error (.overflow .add)

def mul (a b : Nat) : Checked Nat :=
  if a * b < bound then .ok (a * b) else .error (.overflow .multiply)

def sub (a b : Nat) : Checked Nat :=
  if b ≤ a then .ok (a - b) else .error (.overflow .subtract)

theorem add_eq_ok_iff {a b c : Nat} : add a b = .ok c ↔ a + b < bound ∧ c = a + b := by
  unfold add
  split <;> simp [*, eq_comm]

theorem mul_eq_ok_iff {a b c : Nat} : mul a b = .ok c ↔ a * b < bound ∧ c = a * b := by
  unfold mul
  split <;> simp [*, eq_comm]

theorem sub_eq_ok_iff {a b c : Nat} : sub a b = .ok c ↔ b ≤ a ∧ c = a - b := by
  unfold sub
  split <;> simp [*, eq_comm]

/-- The successor, held at the largest word. -/
def next (a : Nat) : Nat := min (a + 1) max

/-- Signed words run from `-signedBound` up to but not including `signedBound`. -/
def signedBound : Nat := 9223372036854775808

def isSigned (n : Int) : Bool :=
  -(signedBound : Int) ≤ n && n < (signedBound : Int)

/-- The word with the same bits as a signed word. -/
def ofSigned (n : Int) : Nat :=
  if n < 0 then (n + (bound : Int)).toNat else n.toNat

end Word
end TypeRecovery
