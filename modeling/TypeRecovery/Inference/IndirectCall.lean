import TypeRecovery.Inference.Infer
import TypeRecovery.Program.Walk
import TypeRecovery.Text.Address

/-!
# Indirect calls

An indirect call reaches the function recorded for the struct member that its pointer was loaded
from. Without a record, an address in the comment of the member or its name is taken, if the pass
for that is on. The result has to be the start of a function.
-/
namespace TypeRecovery

inductive CallFailure where
  | originUnknown
  | untyped (var : Variable)
  | noMember (chain : Chain) (type : Ty)
  | notFunction (target : Nat)
  | noTarget (member : MemberRef)
deriving DecidableEq

def CallFailure.message (db : Overlay) : CallFailure → Checked String
  | originUnknown => pure "pointer origin unknown"
  | untyped var => pure (var.text ++ " has no inferred type")
  | noMember chain type => do
    return chain.text ++ " does not reach a member of " ++ (← TypeStore.render db type)
  | notFunction target => pure ("member target " ++ Numeral.marked target ++ " is not a function")
  | noTarget member => pure ("no call target for " ++
      (TypeStore.name? db member.struct).getD "" ++ "+" ++ Numeral.marked member.offset)

/-- An address written in the comment of a member, or else its name read as an address. -/
def Member.annotatedTarget? (m : Member) : Option Nat :=
  match m.comment.bind Address.inText? with
  | some address => some address
  | none => Address.parse? m.name

/-- The recorded or annotated target of a member. -/
def memberTarget? (c : Context) (db : Overlay) (r : MemberRef) : Option Nat :=
  match db.callTarget? r with
  | some target => some target
  | none =>
    if c.settings.isEnabled .annotationFallback then
      ((db.layout? r.struct).bind (·.members.get? r.offset)).bind Member.annotatedTarget?
    else none

def targetOfOrigin (c : Context) (r : Run) : Option PointerOrigin →
    Checked (Except CallFailure Nat)
  | none => pure (.error .originUnknown)
  | some origin => do
    let type := r.varType origin.var
    if type.isUnknown then
      return .error (.untyped origin.var)
    match (← (origin.chain.walk r.db type).run).bind (·.member) with
    | none => return .error (.noMember origin.chain type)
    | some member =>
      match memberTarget? c r.db member with
      | none => return .error (.noTarget member)
      | some target =>
        return if c.program.isFunctionStart target then .ok target
          else .error (.notFunction target)

namespace Infer

/-- The target of an indirect call. A call that is not indirect has none, without a report. -/
def indirectTarget (c : Context) (call : Call) : Infer (Option Nat) :=
  match call.target with
  | .implicit origin => do
    let s ← get
    match ← targetOfOrigin c s.toRun origin with
    | .ok target => return some target
    | .error failure =>
      report (.unresolvableCall ("call at " ++ Numeral.marked call.address)
        (← failure.message s.db))
      return none
  | _ => pure none

/-- The function that a call reaches, if it is a real call and known. Nothing is reported. -/
def callee? (c : Context) (call : Call) : Infer (Option Nat) :=
  match call.target with
  | .explicit target => pure (if c.program.isHelper target then none else some target)
  | .helper _ => pure none
  | .implicit origin => do
    if !c.settings.isEnabled .implicitCalls then
      return none
    match ← targetOfOrigin c (← get).toRun origin with
    | .ok target => return some target
    | .error _ => return none

end Infer
end TypeRecovery
