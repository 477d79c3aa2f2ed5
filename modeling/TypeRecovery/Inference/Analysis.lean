import TypeRecovery.Inference.Engine

/-!
# Analysing a program

What can be asked of a session. Everything stays provisional until `Infer.apply`, which propagates
the types found, resolves indirect calls and commits the run.
-/
namespace TypeRecovery

/-- What a committed session did. -/
structure Summary where
  callEdges : List CallEdge
  variablesTyped : Nat
  structsCommitted : List StructId
  diagnostics : List Diagnostic
deriving DecidableEq

namespace Infer

variable (c : Context)

def analyzeVariable (var : Variable) : Infer Ty := (Inference.ofContext c).inferVariable var

def analyzeReturn (function : Nat) : Infer Ty := (Inference.ofContext c).inferReturn function

def analyzeExpr (function : Nat) (e : Expr) : Infer Ty :=
  Inference.exprType c (Inference.ofContext c) function e

def propagate (var : Variable) : Infer Unit := (Inference.ofContext c).propagate var

/-- Visits the functions that were put off until none is left. -/
def drainDeferred : Nat → Infer Unit
  | 0 => stop .exhausted
  | fuel + 1 => do
    match (← get).deferred.popFirst? with
    | none => return
    | some (function, rest) =>
      modify fun s => { s with deferred := rest }
      (Inference.ofContext c).visitFunction function
      drainDeferred fuel

/-- Analyses a function bottom-up, callees first, once in a session. Each visit to a function that
was put off either analyses one more function or leaves the queue shorter, which bounds them. -/
def analyzeFunction (function : Nat) : Infer Unit := do
  (Inference.ofContext c).visitFunction function
  if (← get).depth = 0 then
    let functions := c.program.functions.size
    drainDeferred c ((functions + 1) * (functions + 1) + 1)

def analyzeEverything : Infer Unit := c.program.functionAddresses.forM (analyzeFunction c)

/-- The functions that the tracked variables belong to or are used in. -/
def touchedFunctions (vars : List Variable) : List Nat :=
  (KeySet.ofKeys (vars.flatMap c.program.usersOf)).toList

/-- The edges of the indirect calls of a function. -/
def indirectEdges (function : Nat) : Infer (List CallEdge) :=
  match c.program.function? function with
  | none => pure []
  | some body => do
    let edges ← (body.calls.filter Call.isImplicit).mapM fun call => do
      let target ← indirectTarget c call
      return target.map fun target =>
        { caller := function, callAddress := call.address, target : CallEdge }
    return edges.filterMap id

/-- Propagates the variables that are tracked when it starts, in order. -/
def propagateTracked : Infer Unit := do
  (← get).trackedVariables.forM (propagate c)

/-- The edges of the indirect calls of the functions touched, by ascending caller and then in the
order of the body. -/
def resolveCalls : Infer (List CallEdge) := do
  if c.settings.isEnabled .implicitCalls then
    let touched := touchedFunctions c (← get).trackedVariables
    return (← touched.mapM (indirectEdges c)).flatten
  return []

/-- Declares the known types and writes the new structs. A session that was committed starts
afresh. -/
def commit (edges : List CallEdge) : Edit Session Summary := do
  let s ← get
  match ← (Run.commit.run.run { s.toRun with newEdges := edges } : Checked _) with
  | (.error cause, run) =>
    set { s with toRun := run }
    throw cause
  | (.ok written, run) =>
    set { s with toRun := { run with diagnostics := [] } }.forget
    return {
      callEdges := written.callEdges
      variablesTyped := written.variablesTyped
      structsCommitted := written.structsCommitted
      diagnostics := run.diagnostics }

/-- Makes what the session found permanent: propagates every variable, resolves the indirect calls
of the functions it touched and commits. -/
def writeBack : Infer (Except Refusal Summary) := do
  propagateTracked c
  let edges ← resolveCalls c
  change (commit edges)

def apply : Edit Session Summary := (writeBack c).run

end Infer
end TypeRecovery
