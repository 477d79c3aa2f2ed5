import TypeRecovery.Table
import TypeRecovery.Text.Numeral

/-!
# Variables

A variable is a local slot of a function or a global object at an address. Locals come before
globals; locals are ordered by function and slot, globals by address.
-/
namespace TypeRecovery

inductive Variable where
  | local (function slot : Nat)
  | global (address : Nat)
deriving DecidableEq

namespace Variable

def rank : Variable → Nat × Nat × Nat
  | .local function slot => (0, function, slot)
  | .global address => (1, address, 0)

instance : Key Variable :=
  Key.comap rank fun {a b} h => by cases a <;> cases b <;> simp_all [rank]

def isLocal : Variable → Bool
  | .local _ _ => true
  | .global _ => false

def isGlobal : Variable → Bool
  | .local _ _ => false
  | .global _ => true

def function? : Variable → Option Nat
  | .local function _ => some function
  | .global _ => none

def slot? : Variable → Option Nat
  | .local _ slot => some slot
  | .global _ => none

def address? : Variable → Option Nat
  | .local _ _ => none
  | .global address => some address

def text : Variable → String
  | .local function slot => "sub_" ++ Numeral.hex function ++ ":v" ++ Numeral.decimal slot
  | .global address => "g_" ++ Numeral.hex address

end Variable
end TypeRecovery
