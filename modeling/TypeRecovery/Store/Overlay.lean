import TypeRecovery.Store.Database

/-!
# The staging overlay

An overlay collects changes to a database. Reads fall through to the database for whatever the
overlay has not touched. `Overlay.commit` writes the changes into the database and
`Overlay.discard` drops them.
-/
namespace TypeRecovery

structure Overlay where
  inner : Database
  /-- Structs created here, and copies of inner structs that were touched. -/
  structs : Table StructId Layout := .empty
  /-- Structs that the inner database did not have. -/
  created : KeySet StructId := .empty
  /-- Inner structs deleted here. -/
  deleted : KeySet StructId := .empty
  declared : Table Variable Ty := .empty
  callTargets : Table MemberRef Nat := .empty
  nextId : Nat
deriving DecidableEq

/-- What a commit did. -/
structure CommitReport where
  structs : List StructId := []
  declared : List Variable := []
  refused : List (Variable × Refusal) := []
deriving DecidableEq

namespace Overlay

def ofDatabase (db : Database) : Overlay := { inner := db, nextId := db.nextId }

def isProvisional (o : Overlay) (id : StructId) : Bool := o.created.contains id

def isClean (o : Overlay) : Bool :=
  o.structs.isEmpty && o.deleted.isEmpty && o.declared.isEmpty && o.callTargets.isEmpty

def discard (o : Overlay) : Overlay :=
  { o with
    structs := .empty
    created := .empty
    deleted := .empty
    declared := .empty
    callTargets := .empty
    nextId := o.inner.nextId }

def layout? (o : Overlay) (id : StructId) : Option Layout :=
  if o.deleted.contains id then none else o.structs.get? id <|> o.inner.structs.get? id

def next (o : Overlay) : Nat := max o.nextId o.inner.nextId

def create (o : Overlay) (name : Option String) : Checked (StructId × Overlay) := do
  let id : StructId := ⟨o.next⟩
  let nextId ← Word.add id.index 1
  let name := name.getD (defaultStructName id.index)
  return (id, { o with
    nextId
    structs := o.structs.insert id { id, name }
    created := o.created.add id })

def insert (o : Overlay) (l : Layout) : Checked Overlay := do
  let after ← Word.add l.id.index 1
  return { o with
    created := if o.inner.structs.contains l.id then o.created else o.created.add l.id
    deleted := o.deleted.erase l.id
    nextId := max o.nextId after
    structs := o.structs.insert l.id l }

def delete (o : Overlay) (id : StructId) : Except Refusal Overlay :=
  if (o.layout? id).isSome then
    .ok { o with
      structs := o.structs.erase id
      callTargets := o.callTargets.filter fun r _ => r.struct != id
      created := o.created.erase id
      deleted := if o.created.contains id then o.deleted else o.deleted.add id }
  else .error (.unknownStruct id)

def structIds (o : Overlay) : List StructId :=
  let kept := o.inner.structs.keys.filter fun id => !o.deleted.contains id
  ((KeySet.ofKeys kept).addAll o.structs.keys).toList

def callTarget? (o : Overlay) (r : MemberRef) : Option Nat :=
  if o.deleted.contains r.struct then none
  else o.callTargets.get? r <|> o.inner.callTargets.get? r

def setCallTarget (o : Overlay) (r : MemberRef) (target : Nat) : Except Refusal Overlay :=
  if (o.layout? r.struct).isSome then
    .ok { o with callTargets := o.callTargets.insert r target }
  else .error (.unknownStruct r.struct)

instance : TypeStore Overlay where
  pointerSize o := o.inner.pointerSize
  nextId o := o.next
  structIds o := o.structIds
  layout? o id := o.layout? id
  setLayout o id l := { o with structs := o.structs.insert id l }
  create o name := o.create name
  insert o l := o.insert l
  delete o id := o.delete id
  declared? o var := o.declared.get? var <|> o.inner.declared.get? var
  setDeclared o var t := { o with declared := o.declared.insert var t }
  callTarget? o r := o.callTarget? r
  setCallTarget o r target := o.setCallTarget r target

/-- Runs a change on a struct created here and refuses it on any other. -/
def provisional {α : Type} (id : StructId) (change : Edit Overlay α) : Edit Overlay α := do
  if (← get).isProvisional id then change else throw (.immutableStruct id)

/-! ## Committing -/

def deleteAll (db : Database) (ids : List StructId) : Database :=
  ids.foldl (fun db id => (db.delete id).toOption.getD db) db

def insertAll (db : Database) (ls : List Layout) : Checked Database :=
  ls.foldlM Database.insert db

/-- Declares what can be declared, and lists the variables that were and those that were not. -/
def declareAll (db : Database) : List (Variable × Ty) → Database × List Variable ×
    List (Variable × Refusal)
  | [] => (db, [], [])
  | (var, t) :: rest =>
    match TypeStore.declare db var t with
    | .ok db' =>
      let (last, declared, refused) := declareAll db' rest
      (last, var :: declared, refused)
    | .error cause =>
      let (last, declared, refused) := declareAll db rest
      (last, declared, (var, cause) :: refused)

/-- Sets call targets up to the first that is refused. -/
def targetAll (db : Database) : List (MemberRef × Nat) → Database × Option Refusal
  | [] => (db, none)
  | (r, target) :: rest =>
    match db.setCallTarget r target with
    | .ok db' => targetAll db' rest
    | .error cause => (db, some cause)

/-- Writes the overlay into the inner database: deletions, then structs, so that declarations can
refer to them, then declarations and call targets. A refused declaration is reported and does not
stop the commit; a refused call target does, with the overlay already emptied. -/
def commit : Edit Overlay CommitReport := do
  let o ← get
  let structs := o.structs.keys
  let db := deleteAll o.inner o.deleted.toList
  let db ← insertAll db o.structs.values
  let (db, declared, refused) := declareAll db o.declared.entries
  let (db, failed) := targetAll db o.callTargets.entries
  let o := { o with
    inner := db
    structs := .empty
    deleted := .empty
    declared := .empty
    callTargets := .empty }
  match failed with
  | some cause =>
    set o
    throw cause
  | none =>
    set { o with created := .empty, nextId := db.nextId }
    return { structs, declared, refused }

end Overlay
end TypeRecovery
