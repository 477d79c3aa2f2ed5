import Mathlib.Data.List.Sections
import TypeRecovery.Proofs.Trust

/-!
# Databases that agree with a program

A database agrees with a program if typing any variable by its uses, with the types of all others
read off the database, finds nothing that the database does not say. Since inference may not get
at a type that is declared, where a variable is still in progress, left alone or past the limit,
every use is considered with and without the type it can have. A session over such a database is
steady if all that it holds can be read off the database.
-/
namespace TypeRecovery

/-- The one type among those returned, if there is one. -/
def commonOf (types : List Ty) : Ty :=
  match distinctTypes types with
  | [t] => t
  | _ => .unknown

/-- The type of a global used as a value, by its declaration and its type. -/
def Ty.asValue (declared : Option Ty) (t : Ty) : Ty :=
  if t.isUnknown then .unknown
  else match declared, t with
    | some (.array _ _), .array element _ => .pointer element
    | some (.array _ _), t => .pointer t
    | _, t => t

namespace Context

variable (c : Context) (db : Database)

/-- Inference is never nested deeper than there are variables, return values and functions. -/
def nestingBound : Nat := c.program.mentioned.length + 2 * c.program.functions.size

/-- Whether the limit on nested inference can be reached. -/
def mayCut : Bool := decide (c.settings.maxDepth ≤ c.nestingBound)

/-- Whether the declaration of a variable is its type, whatever it is used for. -/
def trusts (var : Variable) : Bool :=
  Inference.isImported c var || !c.withholds var && (db.declared.get? var).any Ty.bearsStruct

/-- What inference may answer for a variable that has its declared type. -/
def answers (var : Variable) : List Ty :=
  if c.withholds var then [.unknown]
  else if c.trusts db var && !c.mayCut then [(db.declared.get? var).getD .unknown]
  else [(db.declared.get? var).getD .unknown, .unknown]

def returnedTypes (ret : Return) : List Ty :=
  (c.answers db ret.var).map fun t =>
    if t.isUnknown || ret.chain.isEmpty then t
    else match (ret.chain.walk (Overlay.ofDatabase db) t).run with
      | .ok (some target) => target.type
      | _ => .unknown

def returnTypes (function : Nat) : List Ty :=
  .unknown :: (c.program.function? function).toList.flatMap fun body =>
    (body.returns.map (c.returnedTypes db)).sections.map commonOf

/-- The types of a value without the casts around it; `none` if it has none that can be
inferred. -/
def bareTypes (function : Nat) : Expr → Option (List Ty)
  | .slot index => some (c.answers db (.local function index))
  | .call callee _ =>
    match callee.stripCasts with
    | .global address =>
      if c.program.isFunctionStart address then some (c.returnTypes db address) else none
    | _ => none
  | .num _ size => some [.uint size]
  | .global address =>
    if c.program.isFunctionStart address then none
    else some ((c.answers db (.global address)).map
      (Ty.asValue (db.declared.get? (.global address))))
  | .addressOf inner =>
    match inner.stripCasts with
    | .global address =>
      if c.program.isFunctionStart address then none
      else some ((c.answers db (.global address)).map fun t =>
        if t.isUnknown then .unknown else .pointer t)
    | _ => none
  | _ => none

def valueTypes (function : Nat) (e : Expr) : List Ty :=
  match Inference.castEvidence? e with
  | some t => [t]
  | none => (c.bareTypes db function e.stripCasts).getD [.unknown]

/-- A run in which only one variable has a type. -/
def typing (var : Variable) (t : Ty) : Run :=
  { db := .ofDatabase db, vars := Table.empty.insert var (.resolved t) }

/-- The target of an indirect call whose pointer comes from a variable of type `t`. -/
def targetFor (origin : PointerOrigin) (t : Ty) : Option Nat :=
  match targetOfOrigin c (typing db origin.var t) (some origin) with
  | .ok (.ok target) => some target
  | _ => none

def callees (call : Call) : List (Option Nat) :=
  match call.target with
  | .explicit target => [if c.program.isHelper target then none else some target]
  | .helper _ => [none]
  | .implicit origin =>
    if c.settings.isEnabled .implicitCalls then
      none :: origin.toList.flatMap fun origin =>
        (c.answers db origin.var).map (c.targetFor db origin)
    else [none]

def paramTypes (callee slot : Nat) : List Ty :=
  if c.program.isImport callee then [(db.declared.get? (.local callee slot)).getD .unknown]
  else match c.program.function? callee with
    | none => [.unknown]
    | some body =>
      if slot < body.locals.length then c.answers db (.local callee slot) else [.unknown]

def argTypes (k : Cast) : List Ty :=
  (c.callees db k.call).flatMap fun callee =>
    match callee with
    | none => [.unknown]
    | some callee => c.paramTypes db callee k.argIndex

def writeOptions (function : Nat) (w : Write) : List Write :=
  (c.valueTypes db function w.value).map fun valueType => { w with valueType }

def castOptions (k : Cast) : List Cast :=
  (c.argTypes db k).map fun argType => { k with argType }

/-- The uses of a variable in a function, with all the types that they may have. -/
def useOptions (function : Nat) (uses : Uses) : List Uses :=
  (uses.writes.map (c.writeOptions db function)).sections.flatMap fun writes =>
    (uses.casts.map (c.castOptions db)).sections.map fun casts => { uses with writes, casts }

/-- The functions among `functions` that use a variable, with its uses. -/
def groupOptions (var : Variable) (functions : List Nat) : List UseGroups :=
  (functions.filterMap fun function => (c.program.function? function).bind fun body =>
    if (body.usesOf var).isEmpty then none
    else some ((c.useOptions db function (body.usesOf var)).map fun uses =>
      (function, uses))).sections

/-- Whether a verdict adds nothing to what is declared. -/
def confirms (var : Variable) : Checked Verdict → Bool
  | .ok (.type t) => t.isUnknown || db.declared.get? var == some t
  | .ok (.unknown _) => true
  | _ => false

def agreesOn (var : Variable) : Bool :=
  c.withholds var || c.trusts db var ||
    (c.groupOptions db var (c.program.usersOf var)).all fun groups =>
      confirms db var (Verdict.ofUses (.ofDatabase db) (UseGroups.merged groups))

/-- Whether a value has a type, or can be written out where it is reported to have none. -/
def hasTypeOrText (function : Nat) (e : Expr) : Bool :=
  (Inference.castEvidence? e).isSome || (c.bareTypes db function e.stripCasts).isSome || e.text.isOk

/-- Whether the walk to what is returned stops at no fault. -/
def walks (ret : Return) : Bool :=
  (c.answers db ret.var).all fun t =>
    t.isUnknown || ret.chain.isEmpty || (ret.chain.walk (Overlay.ofDatabase db) t).run.isOk

/-- Whether the target of a call is found, or can be reported not to be. -/
def resolves (call : Call) : Bool :=
  match call.target with
  | .implicit (some origin) => (c.answers db origin.var).all fun t =>
    match targetOfOrigin c (typing db origin.var t) (some origin) with
    | .ok (.ok _) => true
    | .ok (.error failure) => (failure.message (.ofDatabase db)).isOk
    | .error _ => false
  | _ => true

/-- Whether inference stops at no fault in a function. -/
def computes (function : Nat) (body : FunctionBody) : Bool :=
  body.writes.all (fun w => c.hasTypeOrText db function w.value) && body.returns.all (c.walks db) &&
    (body.casts.map (·.call) ++ body.calls).all (c.resolves db)

/-- No variable of the program gets a type by its uses that is not its declared one, and nothing
that is evaluated to find that out stops at a fault. -/
structure Agrees : Prop where
  vars : ∀ var ∈ c.program.mentioned, c.agreesOn db var = true
  bodies : ∀ e ∈ c.program.functions.entries, c.computes db e.1 e.2 = true

instance : Decidable (c.Agrees db) :=
  decidable_of_iff ((∀ var ∈ c.program.mentioned, c.agreesOn db var = true) ∧
    ∀ e ∈ c.program.functions.entries, c.computes db e.1 e.2 = true)
    ⟨fun h => ⟨h.1, h.2⟩, fun h => ⟨h.1, h.2⟩⟩

variable {c db} {var : Variable}

theorem unknown_mem_answers (h : c.trusts db var = true → c.mayCut = true) :
    .unknown ∈ c.answers db var := by
  unfold answers
  split
  · simp
  · split
    case isTrue htrusts =>
      rw [Bool.and_eq_true, Bool.not_eq_true'] at htrusts
      rw [h htrusts.1] at htrusts
      cases htrusts.2
    case isFalse => simp

theorem unknown_mem_of_not_trusts (h : c.trusts db var = false) : .unknown ∈ c.answers db var :=
  unknown_mem_answers fun htrusts => by
    rw [h] at htrusts
    cases htrusts

theorem recorded_mem_answers (db : Database) (h : c.withholds var = false) :
    (db.declared.get? var).getD .unknown ∈ c.answers db var := by
  unfold answers
  rw [h]
  split
  · contradiction
  · split <;> simp

theorem declared_of_mem_answers {t : Ty} (ht : t ∈ c.answers db var)
    (hknown : t.isUnknown = false) : db.declared.get? var = some t := by
  have hrecorded : t = (db.declared.get? var).getD .unknown := by
    have hne : t ≠ .unknown := by
      rintro rfl
      cases hknown
    unfold answers at ht
    split at ht
    · exact absurd (List.mem_singleton.1 ht) hne
    · split at ht
      · exact List.mem_singleton.1 ht
      · simpa [hne] using ht
  cases hdeclared : db.declared.get? var with
  | some type =>
    rw [hrecorded, hdeclared]
    rfl
  | none =>
    rw [hrecorded, hdeclared] at hknown
    cases hknown

theorem withholds_of_trusts (h : c.trusts db var = true) : c.withholds var = false := by
  by_contra hwithholds
  rw [Bool.not_eq_false] at hwithholds
  have himport : Inference.isImported c var = false := by
    simp only [withholds, Bool.and_eq_true, Bool.not_eq_true'] at hwithholds
    exact hwithholds.1.1
  simp [trusts, hwithholds, himport] at h

namespace Agrees

variable {function : Nat} {body : FunctionBody} (h : c.Agrees db)
  (hbody : c.program.function? function = some body)
include h hbody

theorem computes : c.computes db function body = true :=
  h.bodies (function, body) (Table.get?_eq_some_iff.1 hbody)

theorem hasTypeOrText {w : Write} (hw : w ∈ body.writes) :
    c.hasTypeOrText db function w.value = true := by
  have hcomputes := h.computes hbody
  simp only [Context.computes, Bool.and_eq_true, List.all_eq_true] at hcomputes
  exact hcomputes.1.1 w hw

theorem walks {ret : Return} (hret : ret ∈ body.returns) : c.walks db ret = true := by
  have hcomputes := h.computes hbody
  simp only [Context.computes, Bool.and_eq_true, List.all_eq_true] at hcomputes
  exact hcomputes.1.2 ret hret

theorem resolves {call : Call} (hcall : call ∈ body.casts.map (·.call) ++ body.calls) :
    c.resolves db call = true := by
  have hcomputes := h.computes hbody
  simp only [Context.computes, Bool.and_eq_true, List.all_eq_true] at hcomputes
  exact hcomputes.2 call hcall

end Agrees
end Context

theorem Run.isProvisional_eq_false {r : Run} (h : r.newTypes = .empty) (type : Ty) :
    r.isProvisional type = false := by
  unfold isProvisional isNewType
  rw [h]
  cases type.finalStruct? with
  | none => rfl
  | some id => rfl

namespace Session

open Context

/-- Over `db` the session has found what is declared or nothing, and no struct. -/
structure Steady (c : Context) (db : Database) (s : Session) : Prop where
  overlay : s.db = .ofDatabase db
  newTypes : s.newTypes = .empty
  entry : ∀ {var t}, s.vars.get? var = some (.resolved t) → t ∈ c.answers db var
  closed : ∀ {var}, c.trusts db var = true → s.vars.get? var ≠ some .inProgress
  returned : ∀ {function t}, s.returns.get? function = some (.resolved t) →
    t ∈ c.returnTypes db function
  nested : s.depth + s.unmarked c + s.unvisited c ≤ c.nestingBound

variable {c : Context} {db : Database} {s t : Session}

theorem steady_start (c : Context) (db : Database) : (start db).Steady c db where
  overlay := rfl
  newTypes := rfl
  entry h := nomatch h
  closed _ h := nomatch h
  returned h := nomatch h
  nested := by
    have hvars := (start db).vars.missing_le_length c.program.mentioned
    have hreturns := (start db).returns.missing_le_length c.program.functionAddresses
    have hanalyzed := (start db).analyzed.missing_le_length c.program.functionAddresses
    have hsize : c.program.functionAddresses.length = c.program.functions.size :=
      (Table.size_eq_length_keys _).symm
    have hdepth : (start db).depth = 0 := rfl
    unfold unmarked unvisited nestingBound
    omega

namespace Steady

theorem frame (h : s.Steady c db) (hdb : t.db = s.db) (hnew : t.newTypes = s.newTypes)
    (hvars : t.vars = s.vars) (hreturns : t.returns = s.returns)
    (hanalyzed : t.analyzed = s.analyzed) (hdepth : t.depth ≤ s.depth) : t.Steady c db := by
  have hnested := h.nested
  constructor
  · exact hdb.trans h.overlay
  · exact hnew.trans h.newTypes
  · rw [hvars]
    exact h.entry
  · rw [hvars]
    exact h.closed
  · rw [hreturns]
    exact h.returned
  · unfold unmarked unvisited at hnested ⊢
    rw [hvars, hreturns, hanalyzed]
    omega

theorem report (h : s.Steady c db) (d : Diagnostic) :
    Steady c db { s with toRun := s.toRun.report d } :=
  h.frame rfl rfl rfl rfl rfl (Nat.le_refl _)

theorem leave (h : s.Steady c db) : Steady c db { s with depth := s.depth - 1 } :=
  h.frame rfl rfl rfl rfl rfl (Nat.sub_le _ _)

theorem declared?_eq (h : s.Steady c db) (var : Variable) :
    TypeStore.declared? s.db var = db.declared.get? var := by
  rw [h.overlay]
  rfl

theorem depth_lt (h : s.Steady c db) (hcut : c.mayCut = false) : s.depth < c.settings.maxDepth := by
  have hnested := h.nested
  simp only [mayCut, decide_eq_false_iff_not] at hcut
  omega

theorem mayCut_of_le (h : s.Steady c db) (hmax : c.settings.maxDepth ≤ s.depth) :
    c.mayCut = true := by
  by_contra hcut
  have hlt := h.depth_lt (Bool.eq_false_iff.2 hcut)
  omega

theorem mark (h : s.Steady c db) {var : Variable} (hnone : s.vars.get? var = none)
    (hvar : var ∈ c.program.mentioned) (htrusts : c.trusts db var = false) : Steady c db
      { s with vars := s.vars.insert var .inProgress, depth := s.depth + 1 } where
  overlay := h.overlay
  newTypes := h.newTypes
  entry := by
    intro other t ht
    rw [Table.get?_insert] at ht
    split at ht
    · cases ht
    · exact h.entry ht
  closed := by
    intro other hother ht
    rw [Table.get?_insert] at ht
    split at ht
    case isTrue heq =>
      rw [heq, htrusts] at hother
      cases hother
    case isFalse => exact h.closed hother ht
  returned := h.returned
  nested := by
    have hnested := h.nested
    have hmarked := unmarked_insert_lt (n := s.unmarked c) hnone
      (by rw [Program.surplus_of_mem hvar]; omega) .inProgress
    have hsame : unmarked c { s with vars := s.vars.insert var .inProgress, depth := s.depth + 1 } =
        unmarked c { s with vars := s.vars.insert var .inProgress } := rfl
    have hvisited : unvisited c
        { s with vars := s.vars.insert var .inProgress, depth := s.depth + 1 } = s.unvisited c :=
      rfl
    rw [hsame, hvisited]
    simp only
    omega

theorem settle (h : s.Steady c db) {var : Variable} {type : Ty} (htype : type ∈ c.answers db var) :
    Steady c db { s with vars := s.vars.insert var (.resolved type) } where
  overlay := h.overlay
  newTypes := h.newTypes
  entry := by
    intro other t ht
    rw [Table.get?_insert] at ht
    split at ht
    case isTrue heq =>
      cases ht
      rw [heq]
      exact htype
    case isFalse => exact h.entry ht
  closed := by
    intro other hother ht
    rw [Table.get?_insert] at ht
    split at ht
    · cases ht
    · exact h.closed hother ht
  returned := h.returned
  nested := by
    have hnested := h.nested
    have hmarked := unmarked_insert_le (c := c) (s := s) var (.resolved type)
    have hvisited : unvisited c { s with vars := s.vars.insert var (.resolved type) } =
        s.unvisited c := rfl
    rw [hvisited]
    simp only
    omega

theorem varType_eq_or_mem (h : s.Steady c db) (var : Variable) :
    s.varType var = .unknown ∨ s.varType var ∈ c.answers db var := by
  unfold Run.varType
  cases hentry : s.vars.get? var with
  | none => exact .inl rfl
  | some r =>
    cases r with
    | inProgress => exact .inl rfl
    | resolved type => exact .inr (h.entry hentry)

theorem targetOfOrigin_eq_ok (h : s.Steady c db) {call : Call} {origin : Option PointerOrigin}
    (hcall : call.target = .implicit origin) (hresolves : c.resolves db call = true) :
    ∃ found, targetOfOrigin c s.toRun origin = .ok found ∧
      (∀ {target}, found = .ok target →
        ∃ o, origin = some o ∧ some target ∈ (c.answers db o.var).map (c.targetFor db o)) ∧
      ∀ {failure}, found = .error failure → (failure.message s.db).isOk = true := by
  cases origin with
  | none =>
    refine ⟨_, rfl, nofun, ?_⟩
    rintro _ ⟨⟩
    rfl
  | some origin =>
    rcases h.varType_eq_or_mem origin.var with hunknown | hmem
    · -- a pointer from a variable without a type has no target
      have huntyped : targetOfOrigin c s.toRun (some origin) = .ok (.error (.untyped origin.var)) := by
        simp only [targetOfOrigin, hunknown, Ty.isUnknown, if_true]
        rfl
      refine ⟨_, huntyped, ?_, ?_⟩
      · rintro _ ⟨⟩
      · rintro _ ⟨⟩
        rfl
    · have hcongr : targetOfOrigin c s.toRun (some origin) =
          targetOfOrigin c (typing db origin.var (s.varType origin.var)) (some origin) := by
        have htype : (typing db origin.var (s.varType origin.var)).varType origin.var =
            s.varType origin.var := by simp [typing, Run.varType, Resolution.type]
        simp only [targetOfOrigin, htype, h.overlay]
        rfl
      simp only [Context.resolves, hcall, List.all_eq_true] at hresolves
      have hcase := hresolves _ hmem
      rw [hcongr, h.overlay]
      cases hfound : targetOfOrigin c (typing db origin.var (s.varType origin.var))
          (some origin) with
      | error fault => simp [hfound] at hcase
      | ok found =>
        rw [hfound] at hcase
        refine ⟨found, rfl, ?_, ?_⟩
        · rintro target rfl
          exact ⟨origin, rfl, List.mem_map.2 ⟨_, hmem, by simp [targetFor, hfound]⟩⟩
        · rintro failure rfl
          exact hcase

theorem markReturn (h : s.Steady c db) {function : Nat} (hnone : s.returns.get? function = none)
    (hbody : c.program.hasBody function) : Steady c db
      { s with returns := s.returns.insert function .inProgress, depth := s.depth + 1 } where
  overlay := h.overlay
  newTypes := h.newTypes
  entry := h.entry
  closed := h.closed
  returned := by
    intro other t ht
    rw [Table.get?_insert] at ht
    split at ht
    · cases ht
    · exact h.returned ht
  nested := by
    have hnested := h.nested
    have hmarked := unmarked_insertReturn_lt (n := s.unmarked c) hnone hbody (by omega) .inProgress
    have hsame : unmarked c
        { s with returns := s.returns.insert function .inProgress, depth := s.depth + 1 } =
        unmarked c { s with returns := s.returns.insert function .inProgress } := rfl
    have hvisited : unvisited c
        { s with returns := s.returns.insert function .inProgress, depth := s.depth + 1 } =
        s.unvisited c := rfl
    rw [hsame, hvisited]
    simp only
    omega

theorem settleReturn (h : s.Steady c db) {function : Nat} {type : Ty}
    (htype : type ∈ c.returnTypes db function) :
    Steady c db { s with returns := s.returns.insert function (.resolved type) } where
  overlay := h.overlay
  newTypes := h.newTypes
  entry := h.entry
  closed := h.closed
  returned := by
    intro other t ht
    rw [Table.get?_insert] at ht
    split at ht
    case isTrue heq =>
      cases ht
      rw [heq]
      exact htype
    case isFalse => exact h.returned ht
  nested := by
    have hnested := h.nested
    have hmarked : unmarked c { s with returns := s.returns.insert function (.resolved type) } ≤
        s.unmarked c := by
      refine Nat.add_le_add_left (Table.missing_le_of_contains _ fun other hother => ?_) _
      exact Table.contains_insert_of_contains hother function _
    have hvisited : unvisited c { s with returns := s.returns.insert function (.resolved type) } =
        s.unvisited c := rfl
    rw [hvisited]
    simp only
    omega

theorem analyse (h : s.Steady c db) {function : Nat} (hbody : c.program.hasBody function)
    (hfresh : s.analyzed.contains function = false) : Steady c db
      { s with analyzed := s.analyzed.add function, depth := s.depth + 1 } where
  overlay := h.overlay
  newTypes := h.newTypes
  entry := h.entry
  closed := h.closed
  returned := h.returned
  nested := by
    have hnested := h.nested
    have hlt : unvisited c { s with analyzed := s.analyzed.add function, depth := s.depth + 1 } <
        s.unvisited c :=
      Table.missing_lt_of_contains
        (fun _ hother => KeySet.contains_add_of_contains hother function)
        (Table.mem_keys_iff.2 hbody) hfresh (KeySet.contains_add_self s.analyzed function)
    have hmarked : unmarked c { s with
        analyzed := s.analyzed.add function, depth := s.depth + 1 } = s.unmarked c := rfl
    rw [hmarked]
    simp only
    omega

end Steady
end Session

end TypeRecovery
