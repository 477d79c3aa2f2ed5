import TypeRecovery.Inference.IndirectCall
import TypeRecovery.Inference.Merge
import TypeRecovery.Inference.Verdict

/-!
# The inference engine

Variables, return values, functions and propagation depend on one another without any order. Each
activation marks what it works on before it asks for anything else, and what is marked is not
worked on again, so the nesting is bounded by the number of things that can be marked.

`Inference` holds the four activities at one level of nesting, `Inference.step` builds a level from
the one below, and `Inference.upTo` stacks a given number of levels.
-/
namespace TypeRecovery

structure Inference where
  inferVariable : Variable → Infer Ty
  inferReturn : Nat → Infer Ty
  visitFunction : Nat → Infer Unit
  propagate : Variable → Infer Unit

/-- The uses of one variable by the functions they are in. -/
abbrev UseGroups := List (Nat × Uses)

def UseGroups.merged (groups : UseGroups) : Uses :=
  groups.foldl (fun all g => all.append g.2) {}

/-- How a function is named in diagnostics. -/
def functionSubject (function : Nat) : String := "sub_" ++ Numeral.hex function

/-- The functions in which uses of a variable are looked for. -/
def Program.usersOf (p : Program) : Variable → List Nat
  | .local function _ => [function]
  | .global address => p.callsTo address

namespace Inference

variable (c : Context) (deeper : Inference)

/-! ## Values -/

def untypedValue (function : Nat) (e : Expr) : Infer Ty := do
  Infer.report (.unknownEvidence .expressions (functionSubject function)
    ("cannot type value " ++ (← e.text)))
  return .unknown

/-- The type of a global used as a value. Array storage decays to a pointer to its elements. -/
def globalValue (address : Nat) : Infer Ty := do
  let t ← deeper.inferVariable (.global address)
  if t.isUnknown then
    return .unknown
  match TypeStore.declared? (← get).db (.global address), t with
  | some (.array _ _), .array element _ => return .pointer element
  | some (.array _ _), t => return .pointer t
  | _, t => return t

def globalAddress (address : Nat) : Infer Ty := do
  let t ← deeper.inferVariable (.global address)
  return if t.isUnknown then .unknown else .pointer t

/-- The type of a value without the casts around it; `none` if it has none that can be inferred. -/
def bareType (function : Nat) : Expr → Option (Infer Ty)
  | .slot index => some (deeper.inferVariable (.local function index))
  | .call callee _ =>
    match callee.stripCasts with
    | .global address =>
      if c.program.isFunctionStart address then some (deeper.inferReturn address) else none
    | _ => none
  | .num _ size => some (pure (.uint size))
  | .global address =>
    if c.program.isFunctionStart address then none else some (globalValue deeper address)
  | .addressOf inner =>
    match inner.stripCasts with
    | .global address =>
      if c.program.isFunctionStart address then none else some (globalAddress deeper address)
    | _ => none
  | _ => none

/-- The type that a cast to a struct gives. Any other cast is no evidence. -/
def castEvidence? : Expr → Option Ty
  | .cast _ t => if t.bearsStruct then some t else none
  | _ => none

/-- The type of an expression evaluated in a function. -/
def exprType (function : Nat) (e : Expr) : Infer Ty :=
  match castEvidence? e with
  | some t => pure t
  | none => (bareType c deeper function e.stripCasts).getD (untypedValue function e)

/-! ## Uses -/

/-- The type of the parameter that a use is passed as. -/
def argType (cast : Cast) : Infer Ty := do
  match ← Infer.callee? c cast.call with
  | none => return .unknown
  | some callee =>
    let param := Variable.local callee cast.argIndex
    if c.program.isImport callee then
      return (TypeStore.declared? (← get).db param).getD .unknown
    match c.program.function? callee with
    | none => return .unknown
    | some body =>
      if cast.argIndex < body.locals.length then deeper.inferVariable param
      else return .unknown

def resolveWrite (function : Nat) (w : Write) : Infer Write := do
  return { w with valueType := ← exprType c deeper function w.value }

def resolveCast (cast : Cast) : Infer Cast := do
  return { cast with argType := ← argType c deeper cast }

/-- Fills in the types of written values and of parameters. -/
def resolveUses (function : Nat) (uses : Uses) : Infer Uses := do
  let writes ← uses.writes.mapM (resolveWrite c deeper function)
  let casts ← uses.casts.mapM (resolveCast c deeper)
  return { uses with writes, casts }

def collectFrom (var : Variable) : List Nat → Infer UseGroups
  | [] => pure []
  | function :: rest =>
    match c.program.function? function with
    | none => collectFrom var rest
    | some body => do
      let uses := body.usesOf var
      if uses.isEmpty then
        collectFrom var rest
      else
        let resolved ← resolveUses c deeper function uses
        return (function, resolved) :: (← collectFrom var rest)

/-- The writes and casts of a group whose types are known only now. -/
def deferredUses (function : Nat) (uses : Uses) : Infer Uses := do
  let writes ← (uses.writes.filter fun w => !w.isAssign && w.valueType.isUnknown).mapM
    (resolveWrite c deeper function)
  let casts ← (uses.casts.filter fun k => !k.isWhole && k.argType.isUnknown).mapM
    (resolveCast c deeper)
  return {
    writes := writes.filter (·.valueType.isKnown)
    casts := casts.filter (·.argType.isKnown) }

def mergeDeferred (type : Ty) (group : Nat × Uses) : Infer Unit := do
  let uses ← deferredUses c deeper group.1 group.2
  if !uses.isEmpty then
    Infer.addUses uses type

/-! ## Variables -/

/-- Whether a local slot can be inferred. Stack variables are skipped unless their pass is on. -/
def inferable (var : Variable) : Infer (Except InferenceError Bool) :=
  match var with
  | .global _ => pure (.ok true)
  | .local function slot =>
    match c.program.function? function with
    | none => pure (.error (.unknownFunction function))
    | some body =>
      match body.locals[slot]? with
      | none => pure (.error (.unknownLocal function slot))
      | some l =>
        if l.isStackLocal && !c.settings.isEnabled .stackVariables then do
          Infer.report (.note .variableTypes var.text (l.name ++ " is a stack variable; skipped"))
          return .ok false
        else pure (.ok true)

def isImported (var : Variable) : Bool := (var.function?.map c.program.isImport).getD false

/-- The type of a variable and the uses it follows from. A declaration that reaches a struct is
trusted; parameters of imports have the type they are declared with. -/
def inferFresh (var : Variable) : Infer (Except InferenceError (Ty × UseGroups)) := do
  let declared := TypeStore.declared? (← get).db var
  if isImported c var then
    return .ok (declared.getD .unknown, [])
  match ← inferable c var with
  | .error e => return .error e
  | .ok false => return .ok (.unknown, [])
  | .ok true =>
    match declared.filter Ty.bearsStruct with
    | some t => return .ok (t, [])
    | none =>
      let groups ← collectFrom c deeper var (c.program.usersOf var)
      let t ← Infer.typeByUses c.settings var (UseGroups.merged groups)
      return .ok (t, groups)

/-- Records the type of a variable. If the type reaches a struct of the run, the uses that it
follows from are merged into that. -/
def settleVariable (var : Variable) (t : Ty) (groups : UseGroups) : Infer Ty := do
  Infer.resolve var (.resolved t)
  if (← get).isProvisional t then
    groups.forM fun g => Infer.addUses g.2 t
    groups.forM (mergeDeferred c deeper t)
  return t

def variableType (var : Variable) : Infer Ty := do
  match (← get).vars.get? var with
  | some r => return r.type
  | none =>
    if !(← Infer.enter c.settings var.text) then
      return .unknown
    Infer.resolve var .inProgress
    let outcome ← inferFresh c deeper var
    Infer.leave
    match outcome with
    | .ok (t, groups) => settleVariable c deeper var t groups
    | .error e =>
      Infer.report (.contractViolation .variableTypes var.text e.message)
      settleVariable c deeper var .unknown []

/-! ## Return values -/

def returnedType (function : Nat) (ret : Return) : Infer Ty := do
  let t ← deeper.inferVariable ret.var
  if t.isUnknown || ret.chain.isEmpty then
    return t
  match ← (ret.chain.walk (← get).db t).run with
  | some target => return target.type
  | none =>
    Infer.report (.unknownEvidence .returnValues (functionSubject function)
      ("cannot walk " ++ ret.chain.text ++ " from " ++ ret.var.text))
    return .unknown

/-- The one type among those returned. -/
def commonType (function : Nat) (types : List Ty) : Infer Ty :=
  match distinctTypes types with
  | [] => do
    Infer.report (.note .returnValues (functionSubject function) "no return values")
    return .unknown
  | [t] => pure t
  | distinct => do
    Infer.report (.unknownEvidence .returnValues (functionSubject function)
      (Numeral.decimal distinct.length ++ " different return types"))
    return .unknown

def returnType (function : Nat) : Infer Ty := do
  match (← get).returns.get? function with
  | some r => return r.type
  | none =>
    match c.program.function? function with
    | none => return .unknown
    | some body =>
      if !(← Infer.enter c.settings (functionSubject function)) then
        return .unknown
      Infer.resolveReturn function .inProgress
      let types ← body.returns.mapM (returnedType deeper function)
      Infer.leave
      let t ← commonType function types
      Infer.resolveReturn function (.resolved t)
      return t

/-! ## Propagation -/

/-- Pushes a type into the parameter that a variable is passed as. A parameter of another type is
reported and never overwritten. -/
def propagateInto (type : Ty) (cast : Cast) : Infer Unit := do
  match ← Infer.callee? c cast.call with
  | none => return
  | some callee =>
    if c.program.isImport callee then
      return
    match c.program.function? callee with
    | none => return
    | some body =>
      if body.locals.length ≤ cast.argIndex then
        return
      let param := Variable.local callee cast.argIndex
      if (← get).vars.get? param = some .inProgress then
        return
      let current ← deeper.inferVariable param
      if current.isKnown then
        if current ≠ type then
          let db := (← get).db
          Infer.report (.conflict param.text
            ("cannot propagate " ++ (← TypeStore.render db type) ++
              ": parameter already has type " ++ (← TypeStore.render db current)))
        return
      let uses := body.usesOf param
      if !uses.assigns.isEmpty then
        return
      modify fun s => { s with
        diagnostics := Diagnostic.retractUnknown param.text s.diagnostics }
      Infer.resolve param (.resolved type)
      deeper.propagate param
      Infer.addUses (← resolveUses c deeper callee uses) type

/-- The uses of a variable as a whole argument. -/
def wholeCasts (var : Variable) : List Cast :=
  ((c.program.usersOf var).filterMap c.program.function?).flatMap fun body =>
    (body.castsOf var).filter Cast.isWhole

/-- Pushes the type of a variable into the parameters it is passed as, once for each variable. -/
def propagateVariable (var : Variable) : Infer Unit := do
  if !c.settings.isEnabled .crossCallPropagation then
    return
  let s ← get
  let type := s.varType var
  if !s.isProvisional type || s.propagated.contains var then
    return
  set { s with propagated := s.propagated.add var }
  (wholeCasts c var).forM (propagateInto c deeper type)

/-! ## Functions -/

/-- Visits callees, then locals, then the return value, and propagates the locals. A function
reached past the depth limit is put off. -/
def visit (function : Nat) : Infer Unit := do
  match c.program.function? function with
  | none => return
  | some body =>
    let s ← get
    if s.analyzed.contains function then
      return
    if 0 < s.depth ∧ c.settings.maxDepth ≤ s.depth then
      set { s with deferred := s.deferred.add function }
      return
    set { s with analyzed := s.analyzed.add function }
    if ← Infer.enter c.settings (functionSubject function) then
      (c.program.callsFrom function).forM deeper.visitFunction
      Infer.leave
    let slots := (List.range body.locals.length).map (Variable.local function)
    slots.forM fun var => discard (deeper.inferVariable var)
    let _ ← deeper.inferReturn function
    slots.forM deeper.propagate

/-! ## Levels -/

def exhausted : Inference where
  inferVariable _ := Infer.stop .exhausted
  inferReturn _ := Infer.stop .exhausted
  visitFunction _ := Infer.stop .exhausted
  propagate _ := Infer.stop .exhausted

def step : Inference where
  inferVariable := variableType c deeper
  inferReturn := returnType c deeper
  visitFunction := visit c deeper
  propagate := propagateVariable c deeper

def upTo : Nat → Inference
  | 0 => exhausted
  | n + 1 => step c (upTo n)

end Inference

/-- The number of slots, written values and return sites of a program, with one more for each
function: as many things as inference can start to work on. -/
def Program.weight (p : Program) : Nat :=
  p.functions.sumBy fun f => f.locals.length + f.writes.length + f.returns.length + 1

/-- Nested activations work on different variables, functions or return values of the program,
apart from the one that was asked for. -/
def Inference.ofContext (c : Context) : Inference := upTo c (2 * (c.program.weight + 2))

end TypeRecovery
