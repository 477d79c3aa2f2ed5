import TypeRecovery.Json.Printer
import TypeRecovery.Json.Reader
import TypeRecovery.Snapshot.Types
import TypeRecovery.Store.Database

/-!
# Stores as JSON

Layouts, call-target tables and databases as documents. Tables whose keys are no strings are lists
of pairs, of which the last with a given key counts.
-/
namespace TypeRecovery

namespace Member

def toJson (m : Member) : Json :=
  .obj ([("offset", .nat m.offset), ("name", .text m.name), ("member_type", m.type.toJson),
    ("size", .nat m.size)] ++
    match m.comment with
    | some c => [("comment", .text c)]
    | none => [])

def ofJson? (j : Json) : Option Member := do
  match ← j.fields? ["offset", "name", "member_type", "size", "comment"] with
  | [offset, name, type, size, comment] =>
    return {
      offset := ← Json.required Json.word? offset
      name := ← Json.required Json.str? name
      type := ← Json.required Ty.ofJson? type
      size := ← Json.required Json.word? size
      comment := ← Json.optional none (Json.option? Json.str?) comment }
  | _ => none

end Member

namespace Layout

def toJson (l : Layout) : Json :=
  .obj [("id", l.id.toJson), ("name", .text l.name),
    ("members", .obj (l.members.entries.map fun e => (Numeral.decimal e.1, e.2.toJson))),
    ("size", .nat l.size)]

def ofJson? (j : Json) : Option Layout := do
  match ← j.fields? ["id", "name", "members", "size"] with
  | [id, name, members, size] =>
    return {
      id := ← Json.required StructId.ofJson? id
      name := ← Json.required Json.str? name
      members := .ofList (← Json.required (Json.wordMap? Member.ofJson?) members)
      size := ← Json.required Json.word? size }
  | _ => none

end Layout

namespace MemberRef

def toJson (r : MemberRef) : Json := .arr [r.struct.toJson, .nat r.offset]

def ofJson? (j : Json) : Option MemberRef :=
  (Json.pair? StructId.ofJson? Json.word? j).map fun p => ⟨p.1, p.2⟩

end MemberRef

/-- A table as the list of its entries. -/
def Table.toJson {κ α : Type} [Key κ] (key : κ → Json) (value : α → Json) (t : Table κ α) : Json :=
  Json.ofList (fun e => .arr [key e.1, value e.2]) t.entries

def Table.ofJson? {κ α : Type} [Key κ] (key : Json → Option κ) (value : Json → Option α)
    (j : Json) : Option (Table κ α) :=
  (Json.list? (Json.pair? key value) j).map .ofList

namespace TargetTable

def toJson (t : TargetTable) : Json :=
  .obj [("version", .nat t.version), ("targets", t.targets.toJson MemberRef.toJson .nat)]

/-- Versions are numbers of 32 bits. -/
def versionBound : Nat := 4294967296

def ofJson? (j : Json) : Option TargetTable := do
  match ← j.fields? ["version", "targets"] with
  | [version, targets] =>
    return {
      version := ← Json.required (Json.below? versionBound) version
      targets := ← Json.required (Table.ofJson? MemberRef.ofJson? Json.word?) targets }
  | _ => none

end TargetTable

namespace Database

def toJson (db : Database) : Json :=
  .obj [("arch", .obj [("pointer_size", .nat db.pointerSize)]),
    ("structs", db.structs.toJson StructId.toJson Layout.toJson),
    ("declared", db.declared.toJson Variable.toJson Ty.toJson),
    ("call_targets", db.callTargets.toJson),
    ("next_id", .nat db.nextId)]

def archOfJson? (j : Json) : Option Nat := do
  match ← j.fields? ["pointer_size"] with
  | [size] => Json.required Json.word? size
  | _ => none

def ofJson? (j : Json) : Option Database := do
  match ← j.fields? ["arch", "structs", "declared", "call_targets", "next_id"] with
  | [arch, structs, declared, callTargets, nextId] =>
    return {
      pointerSize := ← Json.optional 8 archOfJson? arch
      structs := ← Json.optional .empty (Table.ofJson? StructId.ofJson? Layout.ofJson?) structs
      declared := ← Json.optional .empty
        (Table.ofJson? (Variable.ofJson? .document) Ty.ofJson?) declared
      callTargets := ← Json.optional {} TargetTable.ofJson? callTargets
      nextId := ← Json.optional 0 Json.word? nextId }
  | _ => none

def render (db : Database) : String := db.toJson.pretty

def parse? (text : String) : Option Database := (Json.parse? text).bind ofJson?

end Database
end TypeRecovery
