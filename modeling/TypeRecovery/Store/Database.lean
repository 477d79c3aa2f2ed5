import TypeRecovery.Store.Basic

/-!
# The database

A type store held in memory.
-/
namespace TypeRecovery

/-- The call targets of function-pointer members, under a version of the table's format. -/
structure TargetTable where
  version : Nat := 1
  targets : Table MemberRef Nat := .empty
deriving DecidableEq

namespace TargetTable

def get? (t : TargetTable) (r : MemberRef) : Option Nat := t.targets.get? r

def insert (t : TargetTable) (r : MemberRef) (target : Nat) : TargetTable :=
  { t with targets := t.targets.insert r target }

def removeStruct (t : TargetTable) (id : StructId) : TargetTable :=
  { t with targets := t.targets.filter fun r _ => r.struct != id }

end TargetTable

structure Database where
  pointerSize : Nat := 8
  structs : Table StructId Layout := .empty
  declared : Table Variable Ty := .empty
  callTargets : TargetTable := {}
  nextId : Nat := 0
deriving DecidableEq

/-- The name of a struct that was given none. -/
def defaultStructName (id : Nat) : String := "struct_" ++ Numeral.decimal id

namespace Database

def create (db : Database) (name : Option String) : Checked (StructId × Database) := do
  let id : StructId := ⟨db.nextId⟩
  let nextId ← Word.add db.nextId 1
  let name := name.getD (defaultStructName id.index)
  return (id, { db with nextId, structs := db.structs.insert id { id, name } })

def insert (db : Database) (l : Layout) : Checked Database := do
  let after ← Word.add l.id.index 1
  return { db with nextId := max db.nextId after, structs := db.structs.insert l.id l }

def delete (db : Database) (id : StructId) : Except Refusal Database :=
  if db.structs.contains id then
    .ok { db with
      structs := db.structs.erase id
      callTargets := db.callTargets.removeStruct id }
  else .error (.unknownStruct id)

def setCallTarget (db : Database) (r : MemberRef) (target : Nat) : Except Refusal Database :=
  if db.structs.contains r.struct then
    .ok { db with callTargets := db.callTargets.insert r target }
  else .error (.unknownStruct r.struct)

instance : TypeStore Database where
  pointerSize db := db.pointerSize
  nextId db := db.nextId
  structIds db := db.structs.keys
  layout? db id := db.structs.get? id
  setLayout db id l := { db with structs := db.structs.insert id l }
  create db name := db.create name
  insert db l := db.insert l
  delete db id := db.delete id
  declared? db var := db.declared.get? var
  setDeclared db var t := { db with declared := db.declared.insert var t }
  callTarget? db r := db.callTargets.get? r
  setCallTarget db r target := db.setCallTarget r target

/-- Lays out the members of a new struct one after the other. -/
def placeMembers (id : StructId) : List (Nat × Ty) → Edit Database Unit
  | [] => pure ()
  | (offset, t) :: rest => do
    let _ ← TypeStore.addMember id offset
    TypeStore.setMemberType id offset t
    placeMembers id rest

/-- Creates a struct of at least `size` bytes from its members. A refused member leaves the struct
as far as it was built. -/
def define (name : String) (size : Nat) (members : List (Nat × Ty)) : Edit Database StructId := do
  let (id, db) ← (← get).create (some name)
  set db
  placeMembers id members
  modify fun db => match db.structs.get? id with
    | some l => { db with structs := db.structs.insert id { l with size := max l.size size } }
    | none => db
  return id

structure Stats where
  structs : Nat
  members : Nat
  declared : Nat
  callTargets : Nat
deriving DecidableEq

def stats (db : Database) : Stats where
  structs := db.structs.size
  members := db.structs.sumBy fun l => l.members.size
  declared := db.declared.size
  callTargets := db.callTargets.targets.size

end Database
end TypeRecovery
