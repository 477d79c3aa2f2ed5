import TypeRecovery.Program.CallGraph
import TypeRecovery.Program.Function

/-!
# Programs

A program is its function bodies and imports by address, with an index of direct calls and of the
functions that refer to each global.
-/
namespace TypeRecovery

structure Program where
  functions : Table Nat FunctionBody := .empty
  imports : Table Nat String := .empty
  callGraph : CallGraph := {}
  globalRefs : Table Nat (KeySet Nat) := .empty

namespace Program

/-- Enters the calls and global references of a body into the index. -/
def index (p : Program) (f : FunctionBody) : Program :=
  let name := if f.name.isEmpty then none else some f.name
  let graph := f.calls.foldl
    (fun g call => match call.explicitTarget? with
      | some target => g.addCall f.address target ⟨call.address, .direct⟩
      | none => g)
    (p.callGraph.addNode f.address name false)
  let refs := f.referencedGlobals.toList.foldl
    (fun refs a => refs.insert a (((refs.get? a).getD .empty).add f.address)) p.globalRefs
  { p with callGraph := graph, globalRefs := refs }

/-- Builds the index anew, imports first. -/
def reindex (p : Program) : Program :=
  let graph := p.imports.entries.foldl
    (fun (g : CallGraph) e => g.addNode e.1 (some e.2) true) {}
  p.functions.values.foldl index { p with callGraph := graph, globalRefs := .empty }

/-- Adds a body, or replaces the one at its address. -/
def addFunction (p : Program) (f : FunctionBody) : Program :=
  if p.functions.contains f.address then
    reindex { p with functions := p.functions.insert f.address f }
  else
    let indexed := p.index f
    { indexed with functions := indexed.functions.insert f.address f }

def addImport (p : Program) (address : Nat) (name : String) : Program :=
  { p with
    callGraph := p.callGraph.addNode address (some name) true
    imports := p.imports.insert address name }

def function? (p : Program) (address : Nat) : Option FunctionBody := p.functions.get? address

def functionAddresses (p : Program) : List Nat := p.functions.keys

def isImport (p : Program) (address : Nat) : Bool := p.imports.contains address

def isFunctionStart (p : Program) (address : Nat) : Bool :=
  p.functions.contains address || p.imports.contains address

/-- The name of an import, or else the name of a function that has one. -/
def functionName? (p : Program) (address : Nat) : Option String :=
  match p.imports.get? address with
  | some name => some name
  | none => ((p.functions.get? address).map (·.name)).filter (!·.isEmpty)

def isHelper (p : Program) (address : Nat) : Bool :=
  ((p.functionName? address).map isHelperIntrinsic).getD false

/-- The functions called from a function, intrinsics apart. -/
def callsFrom (p : Program) (function : Nat) : List Nat :=
  (p.callGraph.calleeAddresses function).filter fun callee => !p.isHelper callee

/-- The functions that call an address or refer to the global there. -/
def callsTo (p : Program) (address : Nat) : List Nat :=
  ((KeySet.ofKeys (p.callGraph.callerAddresses address)).addAll
    ((p.globalRefs.get? address).getD .empty).toList).toList

end Program
end TypeRecovery
