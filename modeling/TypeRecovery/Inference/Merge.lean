import TypeRecovery.Inference.Infer

/-!
# Merging evidence into layouts

Every use of a pointer to a struct of the run is evidence for a member. Members are merged one at a
time; a change that does not fit is refused and reported, and the layout stays as it was.
-/
namespace TypeRecovery

/-- What to do with a typed member once its placeholder is there. -/
inductive Merge where
  | nothing
  | refuse (subject message : String)
  /-- The member lies inside a struct member that is larger than it. -/
  | descend (nested : StructId) (offset : Nat)
  | place (structName : String)
deriving DecidableEq

namespace Merge

def subject (name : String) (offset : Nat) : String := name ++ "+" ++ Numeral.marked offset

/-- The member that `size` bytes at `offset` would run into, the sentinel apart. -/
def obstacle (l : Layout) (offset size : Nat) : Checked (Option Nat) :=
  match l.nextMember offset with
  | none => pure none
  | some next => do
    let stop ← Word.add offset size
    if stop ≤ next then
      return none
    return if ← l.isTrailingSentinel next then none else some next

/-- The struct member around `offset` that is larger than `size`, and the offset inside it. -/
def enclosing (l : Layout) (offset size : Nat) : Checked (Option (StructId × Nat)) := do
  match ← l.memberAt offset with
  | none => return none
  | some m =>
    match m.type.structId? with
    | none => return none
    | some nested =>
      if size < m.size then
        return some (nested, ← Word.sub offset m.offset)
      return none

def plan (db : Overlay) (id : StructId) (offset : Nat) (type : Ty) : Checked Merge := do
  if type.isUnknown then
    return nothing
  match ← TypeStore.sizeOf db type, db.layout? id with
  | some size, some l =>
    if size = 0 then
      return nothing
    match ← obstacle l offset size with
    | some next =>
      return refuse (subject l.name offset)
        ((← TypeStore.render db type) ++ " of size " ++ Numeral.decimal size ++
          " would overwrite the member at " ++ Numeral.marked next)
    | none =>
      match ← enclosing l offset size with
      | some (nested, relative) => return descend nested relative
      | none => return place l.name
  | _, _ => return nothing

end Merge

namespace Infer

/-- The descent into struct members, over the structs as they were nested when it began. -/
def addMemberTypeWithin (nesting : List (Nat × Nat)) : Nat → StructId → Nat → Ty → Infer Unit
  | 0, _, _, _ => stop (.endless nesting)
  | fuel + 1, id, offset, type => do
    if !(← get).isNewType id then
      report (.note .memberMerge (Merge.subject id.text offset)
        "struct predates this run; left unchanged")
      return
    match ← edit (Overlay.provisional id (TypeStore.addMember id offset)) with
    | .error cause => report (.contractViolation .memberMerge id.text cause.message)
    | .ok _ =>
      match ← Merge.plan (← get).db id offset type with
      | .nothing => return
      | .refuse subject message => report (.refused .memberMerge subject message)
      | .descend nested relative => addMemberTypeWithin nesting fuel nested relative type
      | .place name =>
        match ← edit (Overlay.provisional id (TypeStore.setMemberType id offset type)) with
        | .ok _ => return
        | .error cause => report (.refused .memberMerge (Merge.subject name offset) cause.message)

/-- Records that a struct has a member of some type at `offset`. Only structs of the run change.
Each descent lowers the offset or enters another struct, which bounds their number, unless some
struct begins with itself. -/
def addMemberType (id : StructId) (offset : Nat) (type : Ty) : Infer Unit := do
  let db := (← get).db
  addMemberTypeWithin (TypeStore.nesting db) ((db.structIds.length + 1) * (offset + 1)) id offset
    type

/-- Grows a struct of the run that is passed where a pointer to a larger struct is expected. -/
def sizeFromCast (id : StructId) (argType : Ty) : Infer Unit := do
  let s ← get
  match argType.pointee?.bind Ty.structId? with
  | none => return
  | some expected =>
    if expected = id || !s.isNewType id then
      return
    match s.db.layout? expected with
    | none => return
    | some l =>
      if l.size = 0 then
        return
      let _ ← edit (Overlay.provisional id (TypeStore.maximizeSize id l.size))

def addWrite (id : StructId) (w : Write) : Infer Unit :=
  match w.chain.shape with
  | .member offset => addMemberType id offset w.valueType
  | .through offset => addMemberType id offset .unknown
  | _ => pure ()

def addRead (id : StructId) (r : Read) : Infer Unit :=
  match r.chain.shape with
  | .member offset => addMemberType id offset .unknown
  | .interior offset => addMemberType id offset .unknown
  | .through offset => addMemberType id offset .unknown
  | .value => pure ()
  | .notPointer => pure ()

def addCast (id : StructId) (c : Cast) : Infer Unit :=
  match c.chain.shape with
  | .value => sizeFromCast id c.argType
  | .member offset => addMemberType id offset c.argType
  | .interior offset => addMemberType id offset (c.argType.pointee?.getD .unknown)
  | .through offset => addMemberType id offset .unknown
  | .notPointer => pure ()

/-- Merges the evidence of `uses` into the struct that `type` points to. -/
def addUses (uses : Uses) (type : Ty) : Infer Unit :=
  match type.pointee?.bind Ty.structId? with
  | none => pure ()
  | some id => do
    uses.writes.forM (addWrite id)
    uses.reads.forM (addRead id)
    uses.casts.forM (addCast id)

end Infer
end TypeRecovery
