import TypeRecovery.Refusal

/-!
# Struct layouts

A layout holds the members of a struct by their start offsets. A member without a type is a
placeholder: it has no width of its own but still occupies one byte.

A struct known to reach past its last member is grown with `Layout.maximizeSize`, which marks the
last byte with a one-byte sentinel. A member that runs into the sentinel absorbs it; running into
any other member is refused.

A layout read from a snapshot need not be well formed: members may be stored under a key other than
their offset, and may overlap.
-/
namespace TypeRecovery

structure Member where
  offset : Nat
  name : String
  type : Ty
  size : Nat
  comment : Option String := none
deriving DecidableEq

namespace Member

def defaultName (offset : Nat) : String := "field_" ++ Numeral.hex offset

def placeholder (offset : Nat) : Member :=
  { offset, name := defaultName offset, type := .unknown, size := 0 }

def sentinel (offset : Nat) : Member :=
  { offset, name := defaultName offset, type := .uint 1, size := 1 }

def isPlaceholder (m : Member) : Bool := m.type.isUnknown && m.size == 0

/-- The bytes that a member occupies. -/
def width (m : Member) : Nat := max m.size 1

/-- The first offset after a member. -/
def stop (m : Member) : Checked Nat := Word.add m.offset m.width

end Member

structure Layout where
  id : StructId
  name : String
  members : Table Nat Member := .empty
  size : Nat := 0
deriving DecidableEq

namespace Layout

/-- The member that covers `offset`. Only the nearest member before it is asked. -/
def memberAt (l : Layout) (offset : Nat) : Checked (Option Member) :=
  match l.members.floor? offset with
  | none => pure none
  | some (_, m) => do
    let stop ← m.stop
    return if offset < stop then some m else none

def covers (l : Layout) (offset : Nat) : Checked Bool := do
  return (← l.memberAt offset).isSome

/-- Adds a placeholder at `offset` unless a member covers it, and says whether it did. -/
def addMember (offset : Nat) : Edit Layout Bool := do
  let l ← get
  if ← l.covers offset then
    return false
  let stop ← Word.add offset 1
  set { l with
    members := l.members.insert offset (Member.placeholder offset)
    size := max l.size stop }
  return true

def memberStart (l : Layout) (offset : Nat) : Checked (Option Nat) := do
  return (← l.memberAt offset).map (·.offset)

def memberSize (l : Layout) (offset : Nat) : Checked (Option Nat) := do
  return (← l.memberAt offset).map (·.size)

/-- The structs that a layout holds by value at its start. -/
def begins (l : Layout) : List StructId :=
  l.members.values.filterMap fun m => if m.offset = 0 then m.type.structId? else none

/-- The start of the first member after `offset`. -/
def nextMember (l : Layout) (offset : Nat) : Option Nat :=
  (l.members.ceil? (Word.next offset)).map (·.1)

/-- Whether the member at `offset` is one byte wide and ends the struct. -/
def isTrailingSentinel (l : Layout) (offset : Nat) : Checked Bool :=
  match l.members.get? offset with
  | none => pure false
  | some m =>
    if m.size = 1 then do
      let stop ← Word.add offset 1
      return stop == l.size
    else pure false

/-- Removes the sentinel that a member of `size` bytes at `offset` would run into, and refuses the
member if it would run into anything else. -/
def clearFor (offset size : Nat) : Edit Layout Unit := do
  let l ← get
  match l.nextMember offset with
  | none => return
  | some next =>
    let stop ← Word.add offset size
    if stop ≤ next then
      return
    else if ← l.isTrailingSentinel next then
      set { l with members := l.members.erase next }
    else throw (.memberOverlap l.id offset size next)

/-- Gives the member at `offset`, if there is one, another type and size. -/
def retype (l : Layout) (offset : Nat) (type : Ty) (size : Nat) : Layout :=
  match l.members.get? offset with
  | some m => { l with members := l.members.insert offset { m with type, size } }
  | none => l

/-- Gives the member that starts at `offset` a type and a size. -/
def setMemberType (offset : Nat) (type : Ty) (size : Nat) : Edit Layout Unit := do
  let l ← get
  match ← l.memberStart offset with
  | none => throw (.missingMember l.id offset)
  | some start =>
    if start = offset then
      clearFor offset size
      modify (·.retype offset type size)
      let stop ← Word.add offset size
      modify fun l => { l with size := max l.size stop }
    else throw (.midMember l.id offset start)

/-- Grows the struct to `size` bytes, never shrinks it, and says whether it grew. -/
def maximizeSize (size : Nat) : Edit Layout Bool := do
  let l ← get
  if size ≤ l.size then
    return false
  let last := size - 1
  let members := if ← l.covers last then l.members
    else l.members.insert last (Member.sentinel last)
  set { l with members, size }
  return true

def setMemberComment (offset : Nat) (comment : String) : Edit Layout Unit := do
  let l ← get
  match l.members.get? offset with
  | none => throw (.missingMember l.id offset)
  | some m =>
    set { l with members := l.members.insert offset { m with comment := some comment } }

end Layout
end TypeRecovery
