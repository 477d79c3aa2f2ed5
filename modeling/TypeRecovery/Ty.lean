import TypeRecovery.Table
import TypeRecovery.Word
import TypeRecovery.Text.Numeral

/-!
# Types

The types that variables and struct members can have. A struct is named by its id; its layout lives
in a type store and may still grow while types refer to it.
-/
namespace TypeRecovery

structure StructId where
  index : Nat
deriving DecidableEq

instance : Key StructId :=
  Key.comap StructId.index fun {a b} h => by cases a; cases b; simp_all

def StructId.text (id : StructId) : String := "struct#" ++ Numeral.decimal id.index

/-- `unknown` is the type of a value without usable evidence. -/
inductive Ty where
  | unknown
  | void
  | int (size : Nat) (signed : Bool)
  | float (size : Nat)
  | pointer (target : Ty)
  | array (element : Ty) (length : Option Nat)
  | struct (id : StructId)
deriving DecidableEq

namespace Ty

instance : Inhabited Ty := ⟨unknown⟩

def uint (size : Nat) : Ty := int size false

def structPointer (id : StructId) : Ty := pointer (struct id)

def isUnknown : Ty → Bool
  | unknown => true
  | _ => false

def isKnown (t : Ty) : Bool := !t.isUnknown

def isVoid : Ty → Bool
  | void => true
  | _ => false

def isInt : Ty → Bool
  | int _ _ => true
  | _ => false

def isPointer : Ty → Bool
  | pointer _ => true
  | _ => false

def isArray : Ty → Bool
  | array _ _ => true
  | _ => false

def isStruct : Ty → Bool
  | struct _ => true
  | _ => false

def pointee? : Ty → Option Ty
  | pointer t => some t
  | _ => none

/-- The object that a pointer or an array gives access to. -/
def object? : Ty → Option Ty
  | pointer t => some t
  | array t _ => some t
  | _ => none

def structId? : Ty → Option StructId
  | struct id => some id
  | _ => none

/-- The struct under every level of pointers and arrays. -/
def finalStruct? : Ty → Option StructId
  | pointer t => t.finalStruct?
  | array t _ => t.finalStruct?
  | struct id => some id
  | _ => none

def bearsStruct (t : Ty) : Bool := t.finalStruct?.isSome

/-- The size in bytes, given the size of pointers and of structs. `none` for a type that has none:
an unbounded array, for instance. -/
def sizeWith (pointerSize : Nat) (structSize : StructId → Option Nat) : Ty → Checked (Option Nat)
  | unknown => pure none
  | void => pure none
  | int size _ => pure (some size)
  | float size => pure (some size)
  | pointer _ => pure (some pointerSize)
  | array element length => do
    match ← element.sizeWith pointerSize structSize, length with
    | some size, some n => some <$> Word.mul size n
    | _, _ => pure none
  | struct id => pure (structSize id)

/-- The size of a type that holds no struct by value. -/
def fixedSize (pointerSize : Nat) (t : Ty) : Checked (Option Nat) :=
  t.sizeWith pointerSize fun _ => none

def intName : Nat → Bool → String
  | 1, true => "char"
  | 1, false => "unsigned char"
  | 2, true => "short"
  | 2, false => "unsigned short"
  | 4, true => "int"
  | 4, false => "unsigned int"
  | 8, true => "long long"
  | 8, false => "unsigned long long"
  | _, true => "__int128"
  | _, false => "unsigned __int128"

/-- Wide floats are named by their width in bits. -/
def floatName : Nat → Checked String
  | 4 => pure "float"
  | 8 => pure "double"
  | 16 => pure "long double"
  | size => do return "float" ++ Numeral.decimal (← Word.mul size 8)

/-- The type in C notation, with structs named by `name`. -/
def renderWith (name : StructId → String) : Ty → Checked String
  | unknown => pure "unknown"
  | void => pure "void"
  | int size signed => pure (intName size signed)
  | float size => floatName size
  | pointer t => do return (← t.renderWith name) ++ "*"
  | array t (some n) => do return (← t.renderWith name) ++ "[" ++ Numeral.decimal n ++ "]"
  | array t none => do return (← t.renderWith name) ++ "[]"
  | struct id => pure ("struct " ++ name id)

def text (t : Ty) : Checked String := t.renderWith fun id => Numeral.decimal id.index

end Ty

/-- Distinct types in the order in which they are first seen. -/
def distinctTypes (ts : List Ty) : List Ty :=
  ts.foldl (fun seen t => if t ∈ seen then seen else seen ++ [t]) []

end TypeRecovery
