import TypeRecovery.Diagnostic
import TypeRecovery.Program.CallGraph
import TypeRecovery.Settings
import TypeRecovery.Store.Overlay

/-!
# Runs

A run holds what inference has found so far: the types of variables and return values, the structs
it created, the call edges it resolved and its diagnostics. Changes to structs stay in an overlay
until the run is committed as a whole or rolled back.
-/
namespace TypeRecovery

/-- How far the inference of one type has come. Asking for a type in progress gives unknown. -/
inductive Resolution where
  | inProgress
  | resolved (type : Ty)
deriving DecidableEq

def Resolution.type : Resolution → Ty
  | inProgress => .unknown
  | resolved type => type

structure Run where
  db : Overlay
  vars : Table Variable Resolution := .empty
  returns : Table Nat Resolution := .empty
  newTypes : KeySet StructId := .empty
  newEdges : List CallEdge := []
  diagnostics : List Diagnostic := []
deriving DecidableEq

/-- What a committed run wrote. -/
structure WriteBack where
  variablesTyped : Nat
  structsCommitted : List StructId
  callEdges : List CallEdge
deriving DecidableEq

namespace Run

def start (db : Database) : Run := { db := .ofDatabase db }

def varType (r : Run) (var : Variable) : Ty := ((r.vars.get? var).map (·.type)).getD .unknown

def returnType (r : Run) (function : Nat) : Ty :=
  ((r.returns.get? function).map (·.type)).getD .unknown

def trackedVariables (r : Run) : List Variable := r.vars.keys

def isNewType (r : Run) (id : StructId) : Bool := r.newTypes.contains id

/-- Whether a type reaches a struct of this run. -/
def isProvisional (r : Run) (t : Ty) : Bool := (t.finalStruct?.map r.isNewType).getD false

def report (r : Run) (d : Diagnostic) : Run := { r with diagnostics := r.diagnostics ++ [d] }

def createStruct (settings : Settings) (r : Run) : Checked (StructId × Run) := do
  let (id, db) ← r.db.create (some (settings.structName r.db.next))
  return (id, { r with db, newTypes := r.newTypes.add id })

def isClean (r : Run) : Bool :=
  r.vars.isEmpty && r.returns.isEmpty && r.newTypes.isEmpty && r.newEdges.isEmpty && r.db.isClean

def refusedWriteBack (var : Variable) (cause : Refusal) : Diagnostic :=
  .refused .writeBack var.text cause.message

/-- Declares the type of a variable if it is known. -/
def declareResolved (r : Run) (var : Variable) : Resolution → Run
  | .inProgress => r
  | .resolved t =>
    if t.isUnknown then r
    else match TypeStore.declare r.db var t with
      | .ok db => { r with db }
      | .error cause => r.report (refusedWriteBack var cause)

/-- Declares every known type, commits the overlay and empties the run. Refused declarations are
reported and skipped. -/
def commit : Edit Run WriteBack := do
  let r ← get
  let r := r.vars.entries.foldl (fun r e => r.declareResolved e.1 e.2) { r with vars := .empty }
  match ← (Overlay.commit.run.run r.db : Checked _) with
  | (.error cause, db) =>
    set { r with db }
    throw cause
  | (.ok report, db) =>
    let r := report.refused.foldl (fun r e => r.report (refusedWriteBack e.1 e.2)) { r with db }
    set { r with returns := .empty, newTypes := .empty, newEdges := [] }
    return {
      variablesTyped := report.declared.length
      structsCommitted := report.structs
      callEdges := r.newEdges }

def rollback (r : Run) : Run :=
  { r with
    db := r.db.discard
    vars := .empty
    returns := .empty
    newTypes := .empty
    newEdges := []
    diagnostics := [] }

end Run
end TypeRecovery
