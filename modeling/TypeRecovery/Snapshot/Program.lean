import TypeRecovery.Json.Printer
import TypeRecovery.Json.Reader
import TypeRecovery.Program.Basic
import TypeRecovery.Snapshot.Types
import TypeRecovery.Text.Address

/-!
# Programs as JSON

A program is written as its bodies and imports; the index is built again when it is read. The
types that inference fills into uses are no part of it. Addresses of functions are written as
hexadecimal numerals.
-/
namespace TypeRecovery

namespace UseStep

def toJson : UseStep → Json
  | add n => .obj [("add", .int n)]
  | deref => .text "deref"
  | addressOf => .text "address_of"

def ofJson? (j : Json) : Option UseStep :=
  match j.variant? with
  | some ("add", some n) => n.signedWord?.map add
  | some ("deref", none) => some deref
  | some ("deref", some .null) => some deref
  | some ("address_of", none) => some addressOf
  | some ("address_of", some .null) => some addressOf
  | _ => none

end UseStep

namespace Chain

def toJson (c : Chain) : Json := Json.ofList UseStep.toJson c

def ofJson? (j : Json) : Option Chain := Json.list? UseStep.ofJson? j

end Chain

namespace Expr

mutual

def toJson : Expr → Json
  | slot index => .obj [("local", .nat index)]
  | global address => .obj [("global", .nat address)]
  | addressOf inner => .obj [("address_of", inner.toJson)]
  | num value size => .obj [("num", .obj [("value", .nat value), ("size", .nat size)])]
  | call callee args =>
    .obj [("call", .obj [("callee", callee.toJson), ("args", .arr (toJsonAll args))])]
  | cast inner type => .obj [("cast", .obj [("expr", inner.toJson), ("to", type.toJson)])]
  | helper name => .obj [("helper", .text name)]
  | other text => .obj [("other", .text text)]

def toJsonAll : List Expr → List Json
  | [] => []
  | e :: rest => e.toJson :: toJsonAll rest

end

def numOfJson? (place : Json.Place) (j : Json) : Option Expr := do
  match ← j.variantFields? place ["value", "size"] with
  | [value, size] => return num (← Json.required Json.word? value) (← Json.required Json.word? size)
  | _ => none

def callOfJson? (place : Json.Place) (decode : Json → Option Expr) (j : Json) : Option Expr := do
  match ← j.variantFields? place ["callee", "args"] with
  | [callee, args] =>
    return call (← Json.required decode callee) (← Json.required (Json.list? decode) args)
  | _ => none

def castOfJson? (place : Json.Place) (decode : Json → Option Expr) (j : Json) : Option Expr := do
  match ← j.variantFields? place ["expr", "to"] with
  | [inner, type] => return cast (← Json.required decode inner) (← Json.required Ty.ofJson? type)
  | _ => none

def ofVariant? (place : Json.Place) (decode : Json → Option Expr) : String → Json → Option Expr
  | "local", j => j.word?.map slot
  | "global", j => j.word?.map global
  | "address_of", j => (decode j).map addressOf
  | "num", j => numOfJson? place j
  | "call", j => callOfJson? place decode j
  | "cast", j => castOfJson? place decode j
  | "helper", j => j.str?.map helper
  | "other", j => j.str?.map other
  | _, _ => none

/-- Reads an expression that nests at most so many levels. -/
def ofJsonWithin? (place : Json.Place) : Nat → Json → Option Expr
  | 0, _ => none
  | levels + 1, j =>
    match j.variant? with
    | some (name, some contents) => ofVariant? place (ofJsonWithin? place levels) name contents
    | _ => none

def ofJson? (place : Json.Place) (j : Json) : Option Expr :=
  ofJsonWithin? place (Json.maxNesting + 1) j

end Expr

namespace PointerOrigin

def toJson (o : PointerOrigin) : Json :=
  .obj [("var", o.var.toJson), ("chain", o.chain.toJson)]

def ofJson? (place : Json.Place) (j : Json) : Option PointerOrigin := do
  match ← j.fields? ["var", "chain"] with
  | [var, chain] =>
    return {
      var := ← Json.required (Variable.ofJson? place) var
      chain := ← Json.required Chain.ofJson? chain }
  | _ => none

end PointerOrigin

namespace CallTarget

def toJson : CallTarget → Json
  | explicit address => .obj [("explicit", .nat address)]
  | helper name => .obj [("helper", .text name)]
  | implicit origin => .obj [("implicit", Json.ofOption PointerOrigin.toJson origin)]

def ofJson? (place : Json.Place) (j : Json) : Option CallTarget :=
  match j.variant? with
  | some ("explicit", some contents) => contents.word?.map explicit
  | some ("helper", some contents) => contents.str?.map helper
  | some ("implicit", some contents) =>
    (Json.option? (PointerOrigin.ofJson? place) contents).map implicit
  | _ => none

end CallTarget

namespace Call

def toJson (c : Call) : Json :=
  .obj [("address", .nat c.address), ("target", c.target.toJson)]

def ofJson? (place : Json.Place) (j : Json) : Option Call := do
  match ← j.fields? ["address", "target"] with
  | [address, target] =>
    return {
      address := ← Json.required Json.word? address
      target := ← Json.required (CallTarget.ofJson? place) target }
  | _ => none

end Call

namespace Read

def toJson (r : Read) : Json := .obj [("var", r.var.toJson), ("chain", r.chain.toJson)]

def ofJson? (place : Json.Place) (j : Json) : Option Read := do
  match ← j.fields? ["var", "chain"] with
  | [var, chain] =>
    return {
      var := ← Json.required (Variable.ofJson? place) var
      chain := ← Json.optional [] Chain.ofJson? chain }
  | _ => none

end Read

namespace Write

def toJson (w : Write) : Json :=
  .obj [("var", w.var.toJson), ("chain", w.chain.toJson), ("value", w.value.toJson)]

def ofJson? (place : Json.Place) (j : Json) : Option Write := do
  match ← j.fields? ["var", "chain", "value"] with
  | [var, chain, value] =>
    return {
      var := ← Json.required (Variable.ofJson? place) var
      chain := ← Json.optional [] Chain.ofJson? chain
      value := ← Json.required (Expr.ofJson? place) value }
  | _ => none

end Write

namespace Cast

def toJson (c : Cast) : Json :=
  .obj [("var", c.var.toJson), ("chain", c.chain.toJson), ("arg_index", .nat c.argIndex),
    ("call", c.call.toJson)]

def ofJson? (place : Json.Place) (j : Json) : Option Cast := do
  match ← j.fields? ["var", "chain", "arg_index", "call"] with
  | [var, chain, argIndex, call] =>
    return {
      var := ← Json.required (Variable.ofJson? place) var
      chain := ← Json.optional [] Chain.ofJson? chain
      argIndex := ← Json.required Json.word? argIndex
      call := ← Json.required (Call.ofJson? place) call }
  | _ => none

end Cast

namespace Return

def toJson (r : Return) : Json := .obj [("var", r.var.toJson), ("chain", r.chain.toJson)]

def ofJson? (place : Json.Place) (j : Json) : Option Return :=
  (Read.ofJson? place j).map fun r => { var := r.var, chain := r.chain }

end Return

namespace LocalSlot

def toJson (l : LocalSlot) : Json :=
  .obj [("name", .text l.name), ("is_arg", .bool l.isArg), ("is_stack", .bool l.isStack)]

def ofJson? (j : Json) : Option LocalSlot := do
  match ← j.fields? ["name", "is_arg", "is_stack"] with
  | [name, isArg, isStack] =>
    return {
      name := ← Json.required Json.str? name
      isArg := ← Json.optional false Json.bool? isArg
      isStack := ← Json.optional false Json.bool? isStack }
  | _ => none

end LocalSlot

def Address.toJson (address : Nat) : Json := .text (Numeral.marked address)

def Address.ofJson? (j : Json) : Option Nat := j.str?.bind Address.parse?

namespace FunctionBody

def toJson (f : FunctionBody) : Json :=
  .obj [("address", Address.toJson f.address), ("name", .text f.name),
    ("locals", Json.ofList LocalSlot.toJson f.locals),
    ("reads", Json.ofList Read.toJson f.reads),
    ("writes", Json.ofList Write.toJson f.writes),
    ("casts", Json.ofList Cast.toJson f.casts),
    ("calls", Json.ofList Call.toJson f.calls),
    ("returns", Json.ofList Return.toJson f.returns)]

def ofJson? (j : Json) : Option FunctionBody := do
  match ← j.fields? ["address", "name", "locals", "reads", "writes", "casts", "calls", "returns"]
    with
  | [address, name, locals, reads, writes, casts, calls, returns] =>
    return {
      address := ← Json.required Address.ofJson? address
      name := ← Json.optional "" Json.str? name
      locals := ← Json.optional [] (Json.list? LocalSlot.ofJson?) locals
      reads := ← Json.optional [] (Json.list? (Read.ofJson? .document)) reads
      writes := ← Json.optional [] (Json.list? (Write.ofJson? .document)) writes
      casts := ← Json.optional [] (Json.list? (Cast.ofJson? .document)) casts
      calls := ← Json.optional [] (Json.list? (Call.ofJson? .document)) calls
      returns := ← Json.optional [] (Json.list? (Return.ofJson? .document)) returns }
  | _ => none

def parse? (text : String) : Option FunctionBody := (Json.parse? text).bind ofJson?

end FunctionBody

namespace Program

def importToJson (e : Nat × String) : Json :=
  .obj [("address", Address.toJson e.1), ("name", .text e.2)]

def importOfJson? (j : Json) : Option (Nat × String) := do
  match ← j.fields? ["address", "name"] with
  | [address, name] =>
    return (← Json.required Address.ofJson? address, ← Json.required Json.str? name)
  | _ => none

def toJson (p : Program) : Json :=
  .obj [("functions", Json.ofList FunctionBody.toJson p.functions.values),
    ("imports", Json.ofList importToJson p.imports.entries)]

/-- A program with the given parts. Imports are entered before functions. -/
def ofParts (functions : List FunctionBody) (imports : List (Nat × String)) : Program :=
  functions.foldl addFunction (imports.foldl (fun p e => p.addImport e.1 e.2) {})

def ofJson? (j : Json) : Option Program := do
  match ← j.fields? ["functions", "imports"] with
  | [functions, imports] =>
    return ofParts (← Json.optional [] (Json.list? FunctionBody.ofJson?) functions)
      (← Json.optional [] (Json.list? importOfJson?) imports)
  | _ => none

def render (p : Program) : String := p.toJson.pretty

def parse? (text : String) : Option Program := (Json.parse? text).bind ofJson?

end Program
end TypeRecovery
