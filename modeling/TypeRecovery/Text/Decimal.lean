import TypeRecovery.Text.Double
import TypeRecovery.Text.Numeral
import TypeRecovery.Word

/-!
# Decimal literals

The magnitude of a number literal is held as a word and a power of ten. The word takes the leading
digits up to the first one that does not fit; from there on digits are dropped, and those of the
integer part still count for the power.
-/
namespace TypeRecovery

structure Decimal where
  significand : Nat
  exponent : Int
deriving DecidableEq

namespace Decimal

/-- Appends digits to a word, and counts those from the first one that does not fit. -/
def appendDigits (n : Nat) : List Char → Nat × Nat
  | [] => (n, 0)
  | c :: cs =>
    let longer := n * 10 + (Numeral.decimalDigit? c).getD 0
    if longer < Word.bound then appendDigits longer cs else (n, cs.length + 1)

def exponentValue : List Char → Int
  | '-' :: cs => -((Numeral.decimalValue? cs).getD 0 : Int)
  | '+' :: cs => ((Numeral.decimalValue? cs).getD 0 : Int)
  | cs => ((Numeral.decimalValue? cs).getD 0 : Int)

/-- The magnitude of a well-formed literal. -/
def ofLiteral (literal : List Char) : Decimal :=
  let unsigned := literal.dropWhile (· = '-')
  let mantissa := unsigned.takeWhile fun c => c ≠ 'e' && c ≠ 'E'
  let whole := appendDigits 0 (mantissa.takeWhile (· ≠ '.'))
  let places := (mantissa.dropWhile (· ≠ '.')).drop 1
  let all := appendDigits whole.1 places
  { significand := all.1
    exponent := exponentValue ((unsigned.drop mantissa.length).drop 1) + whole.2 -
      (places.length - all.2 : Nat) }

/-- Whether the product of the significand and the power of ten, each taken as a double, is a finite
double. No power beyond that of the largest double is computed. -/
def isFinite (d : Decimal) : Bool :=
  match d.exponent with
  | .negSucc _ => true
  | .ofNat e =>
    d.significand = 0 ||
      (e ≤ 308 && Double.nearest d.significand * Double.nearest (Nat.pow 10 e) < Double.bound)

end Decimal
end TypeRecovery
