import TypeRecovery.Text.Numeral
import TypeRecovery.Word

/-!
# Use chains

A use chain lists the steps from a variable to the value that is used. The member at offset 8 of
what `v` points to is `[add 8, deref]`, `v + 8` is `[add 8]`, and the bare variable is the empty
chain. `Chain.shape` says what a chain tells about the variable.
-/
namespace TypeRecovery

inductive UseStep where
  | add (bytes : Int)
  | deref
  | addressOf
deriving DecidableEq

abbrev Chain := List UseStep

inductive Shape where
  /-- The variable itself. -/
  | value
  /-- The object at the offset as a whole. -/
  | member (offset : Nat)
  /-- A pointer to the object at the offset. -/
  | interior (offset : Nat)
  /-- The object at the offset is followed further. -/
  | through (offset : Nat)
  /-- No use of a pointer. -/
  | notPointer
deriving DecidableEq

def UseStep.text : UseStep → String
  | add n => "+" ++ Numeral.marked (Word.ofSigned n)
  | deref => "*"
  | addressOf => "&"

namespace Chain

/-- Dereferences the variable at an offset. -/
def derefAt (offset : Int) : Chain := if offset = 0 then [.deref] else [.add offset, .deref]

def offsetBy (offset : Int) : Chain := if offset = 0 then [] else [.add offset]

def text (c : Chain) : String := "[" ++ ", ".intercalate (c.map UseStep.text) ++ "]"

/-- The shape of what follows an offset. -/
def shapeFrom (offset : Nat) : Chain → Shape
  | [] => if 0 < offset then .interior offset else .value
  | [.deref] => .member offset
  | [.deref, .addressOf] => .interior offset
  | .deref :: _ => .through offset
  | _ => .notPointer

def shape : Chain → Shape
  | .add n :: rest => if n < 0 then .notPointer else shapeFrom n.toNat rest
  | c => shapeFrom 0 c

def isPossiblePointer (c : Chain) : Bool := c.shape != .notPointer

/-- The offset of the pointed-to object that a use touches. -/
def pointerOffset? (c : Chain) : Option Nat :=
  match c.shape with
  | .value => some 0
  | .member offset => some offset
  | .interior offset => some offset
  | .through offset => some offset
  | .notPointer => none

end Chain
end TypeRecovery
