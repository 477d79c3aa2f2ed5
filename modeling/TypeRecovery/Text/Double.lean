/-!
# Natural numbers as doubles

A double keeps 53 significant bits. A number between two neighbours goes to the nearer one, and one
in the middle goes to the neighbour with an even significand.
-/
namespace TypeRecovery.Double

/-- The distance of neighbouring doubles from the power of two below `n` on. -/
def spacing (n : Nat) : Nat := Nat.pow 2 (n.log2 - 52)

def nearest (n : Nat) : Nat :=
  let below := n / spacing n
  let rest := n % spacing n
  if spacing n < 2 * rest ∨ (2 * rest = spacing n ∧ below % 2 = 1) then (below + 1) * spacing n
  else below * spacing n

/-- The least number that is nearest to no finite double. -/
def bound : Nat := Nat.pow 2 1024 - Nat.pow 2 970

end TypeRecovery.Double
