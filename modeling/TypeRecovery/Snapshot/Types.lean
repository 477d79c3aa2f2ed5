import TypeRecovery.Json.Record
import TypeRecovery.Ty
import TypeRecovery.Variable

/-!
# Types and variables as JSON
-/
namespace TypeRecovery

def StructId.toJson (id : StructId) : Json := .nat id.index

def StructId.ofJson? (j : Json) : Option StructId := j.word?.map StructId.mk

namespace Ty

def toJson : Ty → Json
  | unknown => .text "unknown"
  | void => .text "void"
  | int size signed => .obj [("int", .obj [("size", .nat size), ("signed", .bool signed)])]
  | float size => .obj [("float", .obj [("size", .nat size)])]
  | pointer t => .obj [("pointer", t.toJson)]
  | array t length =>
    .obj [("array", .obj [("element", t.toJson), ("length", Json.ofOption .nat length)])]
  | struct id => .obj [("struct", id.toJson)]

def intOfJson? (j : Json) : Option Ty := do
  match ← j.fields? ["size", "signed"] with
  | [size, signed] =>
    return int (← Json.required Json.word? size) (← Json.required Json.bool? signed)
  | _ => none

def floatOfJson? (j : Json) : Option Ty := do
  match ← j.fields? ["size"] with
  | [size] => return float (← Json.required Json.word? size)
  | _ => none

/-- The length of an array may be left out of an object, not of a list. -/
def arrayOfJson? (decode : Json → Option Ty) (j : Json) : Option Ty := do
  match ← j.fields? ["element", "length"], j with
  | [element, some length], _ =>
    return array (← Json.required decode element) (← Json.option? Json.word? length)
  | [element, none], .obj _ => return array (← Json.required decode element) none
  | _, _ => none

def ofVariant? (decode : Json → Option Ty) : String → Json → Option Ty
  | "unknown", .null => some unknown
  | "void", .null => some void
  | "int", j => intOfJson? j
  | "float", j => floatOfJson? j
  | "pointer", j => (decode j).map pointer
  | "array", j => arrayOfJson? decode j
  | "struct", j => (StructId.ofJson? j).map struct
  | _, _ => none

/-- Reads a type that nests at most so many levels. -/
def ofJsonWithin? : Nat → Json → Option Ty
  | 0, _ => none
  | levels + 1, j =>
    match j.variant? with
    | some ("unknown", none) => some unknown
    | some ("void", none) => some void
    | some (name, some contents) => ofVariant? (ofJsonWithin? levels) name contents
    | _ => none

def ofJson? (j : Json) : Option Ty := ofJsonWithin? (Json.maxNesting + 1) j

end Ty

namespace Variable

def toJson : Variable → Json
  | .local function slot =>
    .obj [("local", .obj [("function", .nat function), ("slot", .nat slot)])]
  | .global address => .obj [("global", .nat address)]

def localOfJson? (place : Json.Place) (j : Json) : Option Variable := do
  match ← j.variantFields? place ["function", "slot"] with
  | [function, slot] =>
    return .local (← Json.required Json.word? function) (← Json.required Json.word? slot)
  | _ => none

def ofJson? (place : Json.Place) (j : Json) : Option Variable :=
  match j.variant? with
  | some ("local", some contents) => localOfJson? place contents
  | some ("global", some contents) => contents.word?.map .global
  | _ => none

end Variable
end TypeRecovery
