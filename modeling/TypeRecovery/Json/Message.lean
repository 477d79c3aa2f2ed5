import TypeRecovery.Json.Spelling
import TypeRecovery.Text.Decimal

/-!
# Messages

A message is read strictly, whether or not its parts are used: every string and every name must
spell a text, nothing may be nested too deep, and every number must be finite as a double. Of
fields with the same name the last one stands. In a settled message all strings are spelled with as
few escapes as their texts allow.
-/
namespace TypeRecovery.Json

def isFinite : Json → Bool
  | int n => (Decimal.ofLiteral (Numeral.decimal n.natAbs).toList).isFinite
  | real literal => (Decimal.ofLiteral literal.toList).isFinite
  | _ => true

mutual

/-- The message that a value stands for. -/
def settle? : Json → Option Json
  | str literal => (unspell? literal).map text
  | arr items => (settleItems? items).map arr
  | obj fields => (settleFields? fields).map obj
  | tooDeep => none
  | j => if j.isFinite then some j else none

def settleItems? : List Json → Option (List Json)
  | [] => some []
  | j :: rest => do return (← settle? j) :: (← settleItems? rest)

def settleFields? : List (String × Json) → Option (List (String × Json))
  | [] => some []
  | (literal, j) :: rest => do
    let name := spell (← unspell? literal)
    let j ← settle? j
    let rest ← settleFields? rest
    return if rest.any (·.1 == name) then rest else (name, j) :: rest

end
end TypeRecovery.Json
