import TypeRecovery.Ty

/-!
# Value expressions

The values that a program writes, as far as they can be typed. All else is carried as a short text.
-/
namespace TypeRecovery

inductive Expr where
  /-- A local slot of the function around it. -/
  | slot (index : Nat)
  | global (address : Nat)
  | addressOf (inner : Expr)
  | num (value size : Nat)
  | call (callee : Expr) (args : List Expr)
  | cast (inner : Expr) (type : Ty)
  | helper (name : String)
  | other (text : String)

namespace Expr

def stripCasts : Expr → Expr
  | cast inner _ => inner.stripCasts
  | e => e

mutual

def text : Expr → Checked String
  | slot index => pure ("v" ++ Numeral.decimal index)
  | global address => pure ("g_" ++ Numeral.hex address)
  | addressOf inner => do return "&" ++ (← inner.text)
  | num value _ => pure (Numeral.marked value)
  | call callee args => do
    return (← callee.text) ++ "(" ++ ", ".intercalate (← textAll args) ++ ")"
  | cast inner type => do return "(" ++ (← type.text) ++ ")" ++ (← inner.text)
  | helper name => pure name
  | other text => pure text

def textAll : List Expr → Checked (List String)
  | [] => pure []
  | e :: rest => do return (← e.text) :: (← textAll rest)

end

def isGlobal : Expr → Bool
  | global _ => true
  | _ => false

mutual

/-- The globals an expression mentions. The callee of a direct call is code, not a global. -/
def globals : Expr → List Nat
  | global address => [address]
  | addressOf inner => inner.globals
  | cast inner _ => inner.globals
  | call callee args => (if callee.isGlobal then [] else callee.globals) ++ globalsAll args
  | slot _ => []
  | num _ _ => []
  | helper _ => []
  | other _ => []

def globalsAll : List Expr → List Nat
  | [] => []
  | e :: rest => e.globals ++ globalsAll rest

end

end Expr
end TypeRecovery
