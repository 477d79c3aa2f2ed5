import TypeRecovery.Program.Evidence

/-!
# Function bodies

What a function does to variables, in program order. Argument `n` of a function is its local slot
`n`: arguments come first in the list of locals.
-/
namespace TypeRecovery

structure LocalSlot where
  name : String
  isArg : Bool := false
  isStack : Bool := false
deriving DecidableEq

/-- A stack slot that is no argument. -/
def LocalSlot.isStackLocal (l : LocalSlot) : Bool := l.isStack && !l.isArg

structure FunctionBody where
  address : Nat
  name : String := ""
  locals : List LocalSlot := []
  reads : List Read := []
  writes : List Write := []
  casts : List Cast := []
  calls : List Call := []
  returns : List Return := []

namespace FunctionBody

def addLocal (f : FunctionBody) (l : LocalSlot) : FunctionBody :=
  { f with locals := f.locals ++ [l] }

/-- Adds arguments named `a1`, `a2` and so on. -/
def addArgs (f : FunctionBody) (count : Nat) : FunctionBody :=
  (List.range count).foldl
    (fun f i => f.addLocal { name := "a" ++ Numeral.decimal (i + 1), isArg := true }) f

def addRead (f : FunctionBody) (var : Variable) (chain : Chain) : FunctionBody :=
  { f with reads := f.reads ++ [{ var, chain }] }

def addWrite (f : FunctionBody) (var : Variable) (chain : Chain) (value : Expr) : FunctionBody :=
  { f with writes := f.writes ++ [{ var, chain, value }] }

/-- Records a call site once. -/
def addCall (f : FunctionBody) (call : Call) : FunctionBody :=
  if call ∈ f.calls then f else { f with calls := f.calls ++ [call] }

/-- Records a call and the use of a variable as one of its arguments. -/
def addCast (f : FunctionBody) (var : Variable) (chain : Chain) (argIndex : Nat) (call : Call) :
    FunctionBody :=
  let f := f.addCall call
  { f with casts := f.casts ++ [{ var, chain, argIndex, call }] }

def addReturn (f : FunctionBody) (var : Variable) (chain : Chain) : FunctionBody :=
  { f with returns := f.returns ++ [{ var, chain }] }

def castsOf (f : FunctionBody) (var : Variable) : List Cast := f.casts.filter (·.var = var)

def usesOf (f : FunctionBody) (var : Variable) : Uses where
  reads := f.reads.filter (·.var = var)
  writes := f.writes.filter (·.var = var)
  casts := f.castsOf var

/-- The globals that a function touches by its uses or in the values it writes. -/
def referencedGlobals (f : FunctionBody) : KeySet Nat :=
  let vars := f.reads.map (·.var) ++ f.writes.map (·.var) ++ f.casts.map (·.var) ++
    f.returns.map (·.var)
  (KeySet.ofKeys (vars.filterMap Variable.address?)).addAll (f.writes.flatMap (·.value.globals))

end FunctionBody
end TypeRecovery
