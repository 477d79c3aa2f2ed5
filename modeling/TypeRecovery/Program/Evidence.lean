import TypeRecovery.Program.Chain
import TypeRecovery.Program.Expr
import TypeRecovery.Variable

/-!
# Evidence

How a program uses its variables: reads, writes, uses as call arguments, and returns. The types of
written values and of parameters are filled in by inference.
-/
namespace TypeRecovery

def helperIntrinsics : List String := ["LOWORD", "HIWORD", "LOBYTE"]

/-- Whether a name stands for a bit-manipulation intrinsic. One underscore may precede it. -/
def isHelperIntrinsic (name : String) : Bool :=
  let bare := match name.toList with
    | '_' :: rest => String.ofList rest
    | _ => name
  helperIntrinsics.contains bare

/-- Where the pointer of an indirect call was loaded from. -/
structure PointerOrigin where
  var : Variable
  chain : Chain
deriving DecidableEq

inductive CallTarget where
  | explicit (address : Nat)
  /-- A compiler intrinsic, which is never a call edge. -/
  | helper (name : String)
  /-- An indirect call. -/
  | implicit (origin : Option PointerOrigin)
deriving DecidableEq

structure Call where
  address : Nat
  target : CallTarget
deriving DecidableEq

namespace Call

def isExplicit (c : Call) : Bool :=
  match c.target with
  | .explicit _ => true
  | _ => false

def isHelper (c : Call) : Bool :=
  match c.target with
  | .helper _ => true
  | _ => false

def isImplicit (c : Call) : Bool :=
  match c.target with
  | .implicit _ => true
  | _ => false

def explicitTarget? (c : Call) : Option Nat :=
  match c.target with
  | .explicit address => some address
  | _ => none

end Call

structure Read where
  var : Variable
  chain : Chain

/-- A write through a variable, or an assignment to it if the chain is empty. -/
structure Write where
  var : Variable
  chain : Chain
  value : Expr
  valueType : Ty := .unknown

namespace Write

def isAssign (w : Write) : Bool := w.chain.isEmpty

/-- A write needs a dereference. -/
def isPossiblePointer (w : Write) : Bool :=
  match w.chain.shape with
  | .member _ => true
  | .through _ => true
  | _ => false

end Write

/-- A use of a variable as an argument of a call. -/
structure Cast where
  var : Variable
  chain : Chain
  argIndex : Nat
  call : Call
  argType : Ty := .unknown

namespace Cast

/-- The variable itself is the argument. -/
def isWhole (c : Cast) : Bool := c.chain.isEmpty

def isPossiblePointer (c : Cast) : Bool := c.chain.isPossiblePointer

end Cast

structure Return where
  var : Variable
  chain : Chain

/-- The uses of one variable. -/
structure Uses where
  reads : List Read := []
  writes : List Write := []
  casts : List Cast := []

namespace Uses

def size (u : Uses) : Nat := u.reads.length + u.writes.length + u.casts.length

def isEmpty (u : Uses) : Bool := u.size == 0

def assigns (u : Uses) : List Write := u.writes.filter Write.isAssign

def append (u v : Uses) : Uses where
  reads := u.reads ++ v.reads
  writes := u.writes ++ v.writes
  casts := u.casts ++ v.casts

end Uses
end TypeRecovery
