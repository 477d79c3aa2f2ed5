import TypeRecovery.Inference.Infer

/-!
# Classifying a variable by its uses

The type of a variable follows from its resolved uses by the first rule that applies:

1. without uses it is unknown;
2. one assignment fixes the type; of several, the one struct type among them does;
3. a use that no pointer can have makes it unknown;
4. passed whole as different struct types, it is unknown;
5. one write at offset 0 and nothing else makes it a pointer to what is written;
6. passed whole to one call, it has the type of the parameter, or points to the parameter's object
   if every write fits into that;
7. otherwise it points to a new struct.
-/
namespace TypeRecovery

inductive Verdict where
  | type (t : Ty)
  | unknown (reason : String)
  | newStruct
deriving DecidableEq

namespace Verdict

/-- The start and size of the first write that ends after `limit`. -/
def writeOutside (db : Overlay) (limit : Nat) : List Write → Checked (Option (Nat × Nat))
  | [] => pure none
  | w :: rest =>
    match w.chain.pointerOffset? with
    | none => writeOutside db limit rest
    | some start => do
      let size := max ((← TypeStore.sizeOf db w.valueType).getD 1) 1
      let stop ← Word.add start size
      if limit < stop then
        return some (start, size)
      writeOutside db limit rest

/-- A pointer to the object that a call expects, if every write fits into it. -/
def ofCastAndWrites (db : Overlay) (argType : Ty) (writes : List Write) : Checked Verdict := do
  let target := argType.pointee?.getD argType
  match ← TypeStore.sizeOf db target with
  | none => return unknown ("cast target " ++ (← TypeStore.render db target) ++ " has no size")
  | some limit =>
    match ← writeOutside db limit writes with
    | some (start, size) =>
      return unknown ("write at " ++ Numeral.marked start ++ " of size " ++ Numeral.decimal size ++
        " is outside of " ++ (← TypeStore.render db target))
    | none => return type (.pointer target)

def ofAssigns (assigns : List Write) : Verdict :=
  match assigns with
  | [w] => type w.valueType
  | _ =>
    let structTypes := distinctTypes ((assigns.map (·.valueType)).filter Ty.bearsStruct)
    match structTypes with
    | [t] => type t
    | _ => unknown (Numeral.decimal assigns.length ++ " assigns with " ++
        Numeral.decimal structTypes.length ++ " distinct struct types")

/-- The first use that rules a pointer out. -/
def nonPointer? (u : Uses) : Option String :=
  match u.writes.find? (!·.isPossiblePointer) with
  | some w => some ("non-pointer write " ++ w.chain.text)
  | none =>
    match u.casts.find? (!·.isPossiblePointer) with
    | some c => some ("non-pointer argument " ++ c.chain.text)
    | none =>
      (u.reads.find? (!·.chain.isPossiblePointer)).map fun r =>
        "non-pointer read " ++ r.chain.text

/-- The struct types that a variable is passed whole as. -/
def passedAs (u : Uses) : List Ty :=
  distinctTypes (((u.casts.filter Cast.isWhole).map (·.argType)).filter Ty.bearsStruct)

/-- The rules for a variable that can be a pointer. -/
def ofPointer (db : Overlay) (u : Uses) : Checked Verdict :=
  match u.reads, u.writes, u.casts with
  | [], [w], [] =>
    if w.chain.shape = .member 0 then
      pure (if w.valueType.isUnknown then unknown "single write of unknown value"
        else type (.pointer w.valueType))
    else pure newStruct
  | _, writes, [c] =>
    if c.isWhole then
      if writes.isEmpty then pure (type c.argType)
      else if c.argType.isKnown then ofCastAndWrites db c.argType writes
      else pure newStruct
    else pure newStruct
  | _, _, _ => pure newStruct

def ofUses (db : Overlay) (u : Uses) : Checked Verdict := do
  if u.isEmpty then
    return unknown "found no uses"
  if !u.assigns.isEmpty then
    return ofAssigns u.assigns
  if let some reason := nonPointer? u then
    return unknown reason
  let types := passedAs u
  if 1 < types.length then
    let names ← types.mapM (TypeStore.render db)
    return unknown ("passed as conflicting types " ++ ", ".intercalate names)
  ofPointer db u

end Verdict

/-- The type of a variable by its resolved uses. -/
def Infer.typeByUses (settings : Settings) (var : Variable) (uses : Uses) : Infer Ty := do
  match ← Verdict.ofUses (← get).db uses with
  | .type t => return t
  | .unknown reason =>
    report (.unknownEvidence .variableTypes var.text reason)
    return .unknown
  | .newStruct => return .structPointer (← createStruct settings)

end TypeRecovery
