import TypeRecovery.Layout

/-!
# Type stores

A type store holds struct layouts, the declared types of variables and the call targets of
function-pointer members. `TypeStore` lists what a store has to offer; sizes, names, rendering and
edits of single layouts are defined here once for every store.
-/
namespace TypeRecovery

/-- A member of a struct, named by where it starts. -/
structure MemberRef where
  struct : StructId
  offset : Nat
deriving DecidableEq

instance : Key MemberRef :=
  Key.comap (fun r => (r.struct, r.offset)) fun {a b} h => by cases a; cases b; simp_all

class TypeStore (σ : Type) where
  pointerSize : σ → Nat
  /-- The id that the next created struct receives. -/
  nextId : σ → Nat
  /-- The ids of all structs, in increasing order. -/
  structIds : σ → List StructId
  layout? : σ → StructId → Option Layout
  /-- Replaces the layout of a struct that exists. -/
  setLayout : σ → StructId → Layout → σ
  /-- Creates an empty struct, named after its id unless a name is given. -/
  create : σ → Option String → Checked (StructId × σ)
  /-- Stores a layout under its own id. -/
  insert : σ → Layout → Checked σ
  delete : σ → StructId → Except Refusal σ
  declared? : σ → Variable → Option Ty
  setDeclared : σ → Variable → Ty → σ
  callTarget? : σ → MemberRef → Option Nat
  setCallTarget : σ → MemberRef → Nat → Except Refusal σ

namespace TypeStore

variable {σ : Type} [TypeStore σ]

def has (s : σ) (id : StructId) : Bool := (layout? s id).isSome

def name? (s : σ) (id : StructId) : Option String := (layout? s id).map (·.name)

/-- Which struct holds which by value at its start, by number. -/
def nesting (s : σ) : List (Nat × Nat) :=
  (structIds s).flatMap fun id => match layout? s id with
    | none => []
    | some l => l.begins.map fun nested => (id.index, nested.index)

/-- The first struct of that name, by id. -/
def byName? (s : σ) (name : String) : Option StructId :=
  (structIds s).find? fun id => name? s id == some name

def sizeOf (s : σ) (t : Ty) : Checked (Option Nat) :=
  t.sizeWith (pointerSize s) fun id => (layout? s id).map (·.size)

def render (s : σ) (t : Ty) : Checked String :=
  t.renderWith fun id => (name? s id).getD id.text

def renderMember (s : σ) (m : Member) : Checked String := do
  let type ← if m.type.isUnknown then pure "_BYTE" else render s m.type
  let comment := match m.comment with
    | some c => " " ++ c
    | none => ""
  return "    " ++ type ++ " " ++ m.name ++ "; // offset " ++ Numeral.marked m.offset ++ comment ++
    "\n"

/-- The struct as a C definition. -/
def format? (s : σ) (id : StructId) : Checked (Option String) :=
  match layout? s id with
  | none => pure none
  | some l => do
    let members ← l.members.values.mapM (renderMember s)
    return some ("struct " ++ l.name ++ " \x7b\n" ++ String.join members ++ "\x7d // size: " ++
      Numeral.decimal l.size ++ " bytes")

/-- A declaration must be known and reach only a struct that exists. -/
def declare (s : σ) (var : Variable) (t : Ty) : Except Refusal σ :=
  if t.isUnknown then .error (.declaration var "unknown")
  else match t.finalStruct? with
    | some id => if has s id then .ok (setDeclared s var t) else .error (.unknownStruct id)
    | none => .ok (setDeclared s var t)

/-- Changes a layout of the store. The layout counts as touched even if the change is refused. -/
def editLayout {α : Type} (id : StructId) (change : Edit Layout α) : Edit σ α := do
  let s ← get
  match layout? s id with
  | none => throw (.unknownStruct id)
  | some l =>
    let (result, l') ← (change.run.run l : Checked _)
    set (setLayout s id l')
    match result with
    | .ok a => return a
    | .error cause => throw cause

def addMember (id : StructId) (offset : Nat) : Edit σ Bool :=
  editLayout id (Layout.addMember offset)

/-- Sets the type of a member, sized by the store. -/
def setMemberType (id : StructId) (offset : Nat) (t : Ty) : Edit σ Unit := do
  let s ← get
  if !has s id then
    throw (.unknownStruct id)
  match ← sizeOf s t with
  | none => throw (.unsizedType (← render s t))
  | some size => editLayout id (Layout.setMemberType offset t size)

def maximizeSize (id : StructId) (size : Nat) : Edit σ Bool :=
  editLayout id (Layout.maximizeSize size)

end TypeStore
end TypeRecovery
