/-!
# Numerals

Decimal and hexadecimal numerals as lists of digits. Writing gives the fewest digits, in lower
case; reading takes digits of either case and any number of leading zeros.
-/
namespace TypeRecovery.Numeral

def decimal (n : Nat) : String := String.ofList (Nat.toDigits 10 n)

def hex (n : Nat) : String := String.ofList (Nat.toDigits 16 n)

/-- A hexadecimal numeral with its mark. -/
def marked (n : Nat) : String := "0x" ++ hex n

def signed : Int → String
  | .ofNat n => decimal n
  | .negSucc n => "-" ++ decimal (n + 1)

def decimalDigit? (c : Char) : Option Nat :=
  if '0' ≤ c ∧ c ≤ '9' then some (c.toNat - '0'.toNat) else none

def hexDigit? (c : Char) : Option Nat :=
  if '0' ≤ c ∧ c ≤ '9' then some (c.toNat - '0'.toNat)
  else if 'a' ≤ c ∧ c ≤ 'f' then some (c.toNat - 'a'.toNat + 10)
  else if 'A' ≤ c ∧ c ≤ 'F' then some (c.toNat - 'A'.toNat + 10)
  else none

/-- The value of a list of digits, `none` if one of them is no digit. -/
def value? (base : Nat) (digit? : Char → Option Nat) (cs : List Char) : Option Nat :=
  cs.foldlM (fun n c => (digit? c).map fun d => n * base + d) 0

def decimalValue? (cs : List Char) : Option Nat :=
  if cs.isEmpty then none else value? 10 decimalDigit? cs

def hexValue? (cs : List Char) : Option Nat :=
  if cs.isEmpty then none else value? 16 hexDigit? cs

/-- A decimal numeral without leading zeros. -/
def canonical? : List Char → Option Nat
  | ['0'] => some 0
  | '0' :: _ => none
  | cs => decimalValue? cs

end TypeRecovery.Numeral
