import TypeRecovery.Program.Chain
import TypeRecovery.Store.Basic

/-!
# Walking use chains

A chain is followed from a value of known type, step by step. A dereference of a struct lands on
the member that starts at the offset added so far, in the struct itself or in a struct nested in
it; any other dereference indexes an array of the pointee.
-/
namespace TypeRecovery

/-- Where a walk stands: the type reached, the member the last dereference landed on, and the
offset added since. -/
structure Cursor where
  type : Ty
  member : Option MemberRef := none
  pending : Int := 0
deriving DecidableEq

/-- Where a walk ends. -/
structure ChainTarget where
  type : Ty
  member : Option MemberRef
deriving DecidableEq

section Walk

variable {σ : Type} [TypeStore σ]

/-- The member that starts exactly at `offset`, in the struct or in a struct nested in it. -/
def memberStartingWithin (s : σ) : Nat → StructId → Nat → OptionT Checked (MemberRef × Ty)
  | 0, _, _ => throwThe Fault (.endless (TypeStore.nesting s))
  | fuel + 1, id, offset => do
    let l ← liftOption (TypeStore.layout? s id)
    let m ← OptionT.mk (l.memberAt offset)
    if m.offset = offset then
      return (⟨id, offset⟩, m.type)
    let nested ← liftOption m.type.structId?
    memberStartingWithin s fuel nested (← Word.sub offset m.offset)
where
  liftOption {α : Type} (o : Option α) : OptionT Checked α := OptionT.mk (pure o)

/-- Every level either lowers the offset or enters a struct not entered since it was last lowered,
which bounds the number of levels, unless some struct begins with itself. -/
def memberStartingAt (s : σ) (id : StructId) (offset : Nat) : OptionT Checked (MemberRef × Ty) :=
  memberStartingWithin s (((TypeStore.structIds s).length + 1) * (offset + 1)) id offset

namespace Cursor

def add (c : Cursor) (n : Int) : Option Cursor :=
  if c.type.isPointer && Word.isSigned (c.pending + n) then
    some { c with pending := c.pending + n }
  else none

/-- Dereferencing lands on a member of a struct, or on an element of an array of the pointee. -/
def deref (s : σ) (c : Cursor) : OptionT Checked Cursor := do
  let target ← OptionT.mk (pure c.type.object?)
  if c.pending < 0 then
    failure
  let offset := c.pending.toNat
  match target with
  | .struct id =>
    let (member, type) ← memberStartingAt s id offset
    return { type, member := some member }
  | _ =>
    let size ← OptionT.mk (TypeStore.sizeOf s target)
    if size = 0 ∨ offset % size ≠ 0 then
      failure
    return { type := target }

def addressOf (c : Cursor) : Option Cursor :=
  if c.pending = 0 then some { c with type := .pointer c.type } else none

def step (s : σ) (c : Cursor) : UseStep → OptionT Checked Cursor
  | .add n => OptionT.mk (pure (c.add n))
  | .deref => c.deref s
  | .addressOf => OptionT.mk (pure c.addressOf)

/-- An offset left over at the end points to a member of the pointee. -/
def finish (s : σ) (c : Cursor) : OptionT Checked ChainTarget := do
  if c.pending = 0 then
    return { type := c.type, member := c.member }
  if c.pending < 0 then
    failure
  let id ← OptionT.mk (pure (c.type.pointee?.bind Ty.structId?))
  let (member, type) ← memberStartingAt s id c.pending.toNat
  return { type := .pointer type, member := some member }

end Cursor

/-- Follows a chain from a value of type `start`; `none` when a step does not fit. -/
def Chain.walk (s : σ) (chain : Chain) (start : Ty) : OptionT Checked ChainTarget := do
  let c ← chain.foldlM (Cursor.step s) { type := start }
  c.finish s

end Walk
end TypeRecovery
