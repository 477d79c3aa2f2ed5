import TypeRecovery.Inference.Analysis
import TypeRecovery.Proofs.Descents
import TypeRecovery.Proofs.Numerals
import TypeRecovery.Proofs.Trails

/-!
# What inference does to a session

Variables, functions, return values and propagation call one another without any order, but there
are only a few ways in which any of them changes the session. `Session.Step` lists these, and every
activity is shown to be a sequence of such steps, level by level. What each step keeps is then kept
by the whole engine.

Most of what is done does not touch the types of variables, nor the reports that one of them is
unknown or that a call is unresolved. `Session.Sketch` and `Session.Aside` list these changes, and
what consists of them alone, or of them and of deeper activities, is treated once for any relation
that they belong to.
-/
namespace TypeRecovery

namespace Diagnostic

/-- The report does not say of a variable that its type is unknown. -/
def Impersonal (d : Diagnostic) : Prop := ∀ var : Variable, d.isUnknownAbout var.text = false

variable {d : Diagnostic}

theorem Impersonal.of_kind (h : d.kind ≠ .unknownEvidence) : d.Impersonal := by
  intro var
  simp [isUnknownAbout, h]

theorem Impersonal.of_subject (h : ∀ var : Variable, d.subject ≠ var.text) : d.Impersonal := by
  intro var
  simp [isUnknownAbout, h var]

theorem isUnknownAbout_of_ne {var other : Variable} (hd : d.subject = var.text) (hne : other ≠ var) :
    d.isUnknownAbout other.text = false := by
  have htext : var.text ≠ other.text := fun h => hne (Variable.text_injective h).symm
  simp [isUnknownAbout, hd, htext]

end Diagnostic

theorem functionSubject_ne_text (function : Nat) (var : Variable) :
    functionSubject function ≠ var.text := by
  intro h
  have hlist := congrArg String.toList h
  cases var with
  | global address => simp [functionSubject, Variable.text] at hlist
  | «local» f slot =>
    have hcolon : ':' ∈ Nat.toDigits 16 function := by
      have hdigits : Nat.toDigits 16 function =
          Nat.toDigits 16 f ++ ':' :: 'v' :: Nat.toDigits 10 slot := by
        simpa [functionSubject, Variable.text, Numeral.hex, Numeral.decimal] using hlist
      simp [hdigits]
    exact Numeral.notMem_toDigits Numeral.value?_hex (by decide) function hcolon

theorem Merge.subject_ne_text (id : StructId) (offset : Nat) (var : Variable) :
    Merge.subject id.text offset ≠ var.text := by
  intro h
  have hlist := congrArg String.toList h
  cases var with
  | global address => simp [Merge.subject, StructId.text, Variable.text] at hlist
  | «local» f slot => simp [Merge.subject, StructId.text, Variable.text] at hlist

/-- A change that gives a member a type gives it the size of that type. -/
def LayoutEdit.Sized (o : Overlay) : LayoutEdit → Prop
  | .setMemberType _ type size => TypeStore.sizeOf o type = .ok (some size)
  | _ => True

/-- The changes that inference makes to the structs and the reports of a session. -/
inductive Session.Draft (settings : Settings) : Session → Session → Prop
  | report {s : Session} {d : Diagnostic} (hd : d.subsystem ≠ .writeBack) :
      Draft settings s { s with toRun := s.toRun.report d }
  | retract {s : Session} (subject : String) : Draft settings s { s with
      diagnostics := Diagnostic.retractUnknown subject s.diagnostics }
  | create {s : Session} {id : StructId} {run : Run}
      (h : s.toRun.createStruct settings = .ok (id, run)) :
      Draft settings s { s with toRun := run }
  /-- Only structs created in the overlay change. -/
  | reshape {s : Session} {id : StructId} {l l' : Layout} {answer : Except Refusal Answer}
      (e : LayoutEdit) (hid : s.db.isProvisional id = true) (hl : s.db.layout? id = some l)
      (he : e.perform.run.run l = .ok (answer, l')) (hsized : e.Sized s.db) :
      Draft settings s { s with db := TypeStore.setLayout s.db id l' }

/-- The single changes that inference makes to a session. -/
inductive Session.Step (settings : Settings) : Session → Session → Prop
  | draft {s t : Session} (h : Draft settings s t) : Step settings s t
  | resolve {s : Session} (var : Variable) (r : Resolution) :
      Step settings s { s with vars := s.vars.insert var r }
  | resolveReturn {s : Session} (function : Nat) (r : Resolution) :
      Step settings s { s with returns := s.returns.insert function r }
  | track {s : Session} (analyzed deferred : KeySet Nat) (propagated : KeySet Variable)
      (depth : Nat) : Step settings s { s with analyzed, deferred, propagated, depth }

/-- The changes to structs and reports that say of no variable that its type is unknown, and of no
call that it is unresolved. -/
inductive Session.Sketch (settings : Settings) : Session → Session → Prop
  | report {s : Session} {d : Diagnostic} (hd : d.subsystem ≠ .writeBack)
      (himpersonal : d.Impersonal) (hcall : d.kind ≠ .unresolvableCall) :
      Sketch settings s { s with toRun := s.toRun.report d }
  | create {s : Session} {id : StructId} {run : Run}
      (h : s.toRun.createStruct settings = .ok (id, run)) :
      Sketch settings s { s with toRun := run }
  | reshape {s : Session} {id : StructId} {l l' : Layout} {answer : Except Refusal Answer}
      (e : LayoutEdit) (hid : s.db.isProvisional id = true) (hl : s.db.layout? id = some l)
      (he : e.perform.run.run l = .ok (answer, l')) (hsized : e.Sized s.db) :
      Sketch settings s { s with db := TypeStore.setLayout s.db id l' }

/-- A sketch, or a report that may be about a variable. -/
inductive Session.Remark (settings : Settings) : Session → Session → Prop
  | sketch {s t : Session} (h : Sketch settings s t) : Remark settings s t
  | report {s : Session} {d : Diagnostic} (hd : d.subsystem ≠ .writeBack)
      (hcall : d.kind ≠ .unresolvableCall) :
      Remark settings s { s with toRun := s.toRun.report d }

/-- The changes that leave the types of variables alone, and the reports on them. -/
inductive Session.Aside (settings : Settings) : Session → Session → Prop
  | sketch {s t : Session} (h : Sketch settings s t) : Aside settings s t
  | resolveReturn {s : Session} (function : Nat) (r : Resolution) :
      Aside settings s { s with returns := s.returns.insert function r }
  | track {s : Session} (analyzed deferred : KeySet Nat) (propagated : KeySet Variable)
      (depth : Nat) : Aside settings s { s with analyzed, deferred, propagated, depth }

namespace Session

/-- The session with another type for a parameter, and without the reports that it has none. -/
def adopt (s : Session) (param : Variable) (type : Ty) : Session :=
  { s with
    diagnostics := Diagnostic.retractUnknown param.text s.diagnostics
    vars := s.vars.insert param (.resolved type) }

variable {settings : Settings} {s t : Session}

theorem Draft.sketch (h : Sketch settings s t) : Draft settings s t := by
  cases h with
  | report hd _ _ => exact .report hd
  | create hcreate => exact .create hcreate
  | reshape e hid hl he hsized => exact .reshape e hid hl he hsized

theorem Draft.remark (h : Remark settings s t) : Draft settings s t := by
  cases h with
  | sketch hsketch => exact .sketch hsketch
  | report hd _ => exact .report hd

theorem Step.sketch (h : Sketch settings s t) : Step settings s t := .draft (.sketch h)

theorem Step.aside (h : Aside settings s t) : Step settings s t := by
  cases h with
  | sketch hsketch => exact .sketch hsketch
  | resolveReturn function r => exact .resolveReturn function r
  | track analyzed deferred propagated depth => exact .track analyzed deferred propagated depth

end Session

namespace Infer

variable {c : Context} {s : Session}

theorem trails_exhausted {α : Type} {R : Session → Session → Prop} :
    Trails R s (stop .exhausted : Infer α) :=
  trails_lift (by rintro _ ⟨⟩; trivial)

/-- A parameter of unknown type takes over the type of a variable that is passed as it. -/
def adopt (param : Variable) (type : Ty) : Infer Unit := do
  modify fun s => { s with diagnostics := Diagnostic.retractUnknown param.text s.diagnostics }
  resolve param (.resolved type)

theorem moves_adopt {R : Session → Session → Prop} {param : Variable} {type : Ty}
    (h : R s (s.adopt param type)) : Moves R s (adopt param type) := by
  rintro _ _ ⟨⟩
  exact .single h

theorem moves_adopt_bind {α : Type} {M : Manner} {param : Variable} {type : Ty}
    {f : PUnit → Infer α} (hadopt : M.Moves s (adopt param type)) (hf : ∀ a t, M.Moves t (f a)) :
    M.Moves s (do
      modify fun s => { s with
        diagnostics := Diagnostic.retractUnknown param.text s.diagnostics }
      let a ← resolve param (.resolved type)
      f a) := by
  rw [← bind_assoc]
  exact moves_bind hadopt hf

theorem trails_report {d : Diagnostic} (hd : d.subsystem ≠ .writeBack) (himpersonal : d.Impersonal)
    (hcall : d.kind ≠ .unresolvableCall := by nofun) :
    Trails (Session.Sketch c.settings) s (report d) :=
  trails_modify (.report hd himpersonal hcall)

theorem trails_report_pure {α : Type} {d : Diagnostic} (hd : d.subsystem ≠ .writeBack)
    (himpersonal : d.Impersonal) (a : α) (hcall : d.kind ≠ .unresolvableCall := by nofun) :
    Trails (Session.Sketch c.settings) s (report d >>= fun _ => pure a) :=
  moves_bind (trails_report hd himpersonal hcall) fun _ _ => moves_pure a

theorem trails_remark_pure {α : Type} {d : Diagnostic} (hd : d.subsystem ≠ .writeBack)
    (hcall : d.kind ≠ .unresolvableCall) (a : α) :
    Trails (Session.Remark c.settings) s (report d >>= fun _ => pure a) :=
  moves_bind (trails_modify (.report hd hcall)) fun _ _ => moves_pure a

theorem trails_resolveReturn (function : Nat) (r : Resolution) :
    Trails (Session.Aside c.settings) s (resolveReturn function r) :=
  trails_modify (.resolveReturn function r)

theorem trails_leave : Trails (Session.Aside c.settings) s leave :=
  trails_modify (.track s.analyzed s.deferred s.propagated (s.depth - 1))

theorem trails_enter (subject : String) :
    Trails (Session.Aside c.settings) s (enter c.settings subject) := by
  unfold enter
  apply moves_get_bind
  split
  · exact (trails_report_pure (by nofun) (.of_kind (by nofun)) _).mono .sketch
  · refine moves_bind (trails_modify ?_) fun _ t => moves_pure _
    exact .track s.analyzed s.deferred s.propagated (s.depth + 1)

theorem trails_createStruct : Trails (Session.Sketch c.settings) s (createStruct c.settings) := by
  apply moves_get_bind
  refine trails_lift_bind (Run.stops_createStruct _ _) fun p hcreate => ?_
  exact moves_bind (trails_set (.single (.create hcreate))) fun _ t => moves_pure _

/-- The layout of a struct is as it was, or differs by one change. -/
def Reshaped (id : StructId) (o o' : Overlay) : Prop :=
  o' = o ∨ ∃ (e : LayoutEdit) (l l' : Layout) (answer : Except Refusal Answer), e.Sized o ∧
    o.layout? id = some l ∧ e.perform.run.run l = .ok (answer, l') ∧
    o' = TypeStore.setLayout o id l'

def Reshapes {α : Type} (id : StructId) (change : Edit Overlay α) : Prop :=
  ∀ {o r o'}, change.run.run o = .ok (r, o') → Reshaped id o o'

theorem reshaped_of_editLayout {α : Type} {id : StructId} {change : Edit Layout α}
    (e : LayoutEdit) (f : α → Answer) (he : e.perform = f <$> change) {o o' : Overlay}
    {r : Except Refusal α} (hsized : e.Sized o)
    (h : (TypeStore.editLayout id change : Edit Overlay α).run.run o = .ok (r, o')) :
    Reshaped id o o' := by
  rcases TypeStore.editLayout_eq_ok h with ⟨_, _, rfl⟩ | ⟨l, l', hl, hchange, rfl⟩
  · exact .inl rfl
  · refine .inr ⟨e, l, l', r.map f, hsized, hl, ?_, rfl⟩
    rw [he, Edit.map_eq_ok]
    exact ⟨r, hchange, rfl⟩

theorem reshapes_addMember (id : StructId) (offset : Nat) :
    Reshapes id (TypeStore.addMember id offset) :=
  reshaped_of_editLayout (.addMember offset) _ rfl trivial

theorem reshapes_maximizeSize (id : StructId) (size : Nat) :
    Reshapes id (TypeStore.maximizeSize id size) :=
  reshaped_of_editLayout (.maximizeSize size) _ rfl trivial

theorem reshapes_setMemberType (id : StructId) (offset : Nat) (t : Ty) :
    Reshapes id (TypeStore.setMemberType id offset t) := by
  intro o r o' h
  rcases TypeStore.setMemberType_eq_ok h with ⟨cause, _, rfl⟩ | ⟨size, hsize, hedit⟩
  · exact .inl rfl
  · exact reshaped_of_editLayout (.setMemberType offset t size) _ rfl hsize hedit

theorem trails_edit {α : Type} {id : StructId} {change : Edit Overlay α}
    (hchange : Reshapes id change) (hstops : change.Stops (Fault.NestedIn s.db)) :
    Trails (Session.Sketch c.settings) s (edit (Overlay.provisional id change)) := by
  apply moves_get_bind
  refine trails_lift_bind (Overlay.stops_provisional id hstops s.db) ?_
  rintro ⟨r, o⟩ h
  refine moves_bind ?_ fun _ t => moves_pure _
  simp only [Overlay.provisional, Edit.run_get_bind] at h
  split at h
  case isFalse =>
    cases h
    exact trails_set .refl
  case isTrue hid =>
    rcases hchange h with rfl | ⟨e, l, l', answer, hsized, hl, he, rfl⟩
    · exact trails_set .refl
    · exact trails_set (.single (.reshape e hid hl he hsized))

theorem trails_addMember (id : StructId) (offset : Nat) :
    Trails (Session.Sketch c.settings) s
      (edit (Overlay.provisional id (TypeStore.addMember id offset))) :=
  trails_edit (reshapes_addMember id offset)
    (TypeStore.stops_editLayout id (Layout.stops_addMember offset))

section Members

variable {M : Manner} (hM : M.Admits (Session.Sketch c.settings))
include hM

theorem moves_mergeMember {nesting : List (Nat × Nat)} {fuel : Nat} {type : Ty}
    (hdescend : ∀ {s} nested relative,
      M.Moves s (addMemberTypeWithin nesting fuel nested relative type))
    (id : StructId) (offset : Nat) (added : Except Refusal Bool) :
    M.Moves s (match added with
      | .error cause => report (.contractViolation .memberMerge id.text cause.message)
      | .ok _ => do
        match ← Merge.plan (← get).db id offset type with
        | .nothing => return
        | .refuse subject message => report (.refused .memberMerge subject message)
        | .descend nested relative => addMemberTypeWithin nesting fuel nested relative type
        | .place name =>
          match ← edit (Overlay.provisional id (TypeStore.setMemberType id offset type)) with
          | .ok _ => return
          | .error cause =>
            report (.refused .memberMerge (Merge.subject name offset) cause.message)) := by
  cases added with
  | error cause => exact hM (trails_report nofun (.of_kind (by nofun)))
  | ok added =>
    apply moves_get_bind
    refine hM.lift_bind (Merge.stops_plan _ _ _ _) fun merge _ => ?_
    cases merge with
    | nothing => exact moves_pure _
    | refuse subject message => exact hM (trails_report nofun (.of_kind (by nofun)))
    | descend nested relative => exact hdescend nested relative
    | place name =>
      refine moves_bind (hM (trails_edit (reshapes_setMemberType id offset type)
        (TypeStore.stops_setMemberType id offset type))) fun r t => ?_
      cases r with
      | ok _ => exact moves_pure _
      | error cause => exact hM (trails_report nofun (.of_kind (by nofun)))

theorem moves_addMemberTypeWithin {nesting : List (Nat × Nat)}
    (hstop : ∀ s, M.Moves s (stop (.endless nesting) : Infer Unit)) (fuel : Nat) (id : StructId)
    (offset : Nat) (type : Ty) :
    M.Moves s (addMemberTypeWithin nesting fuel id offset type) := by
  induction fuel generalizing s id offset with
  | zero => exact hstop s
  | succ fuel ih =>
    apply moves_get_bind
    split
    · exact hM (trails_report_pure (by nofun) (.of_subject (Merge.subject_ne_text id offset)) _)
    · refine moves_bind (hM (trails_addMember id offset)) fun r t => ?_
      exact moves_mergeMember hM ih id offset r

end Members

theorem trails_addMemberType (id : StructId) (offset : Nat) (type : Ty) :
    Trails (Session.Sketch c.settings) s (addMemberType id offset type) := by
  have hchain : (Manner.chaining (Session.Sketch c.settings)).Moves s
      (addMemberType id offset type) :=
    moves_get_bind (moves_addMemberTypeWithin Manner.admits_chaining .singleton _ id offset type)
  -- the nesting that a descent gives up on is that of the session in which it began
  have hnested := endsAt_addMemberType (fun _ => Fault.nestedIn_endless s.db) id offset type
  exact ⟨hchain, fun fault hfault => ⟨s, List.mem_cons_self, hnested.stops fault hfault⟩⟩

theorem trails_sizeFromCast (id : StructId) (argType : Ty) :
    Trails (Session.Sketch c.settings) s (sizeFromCast id argType) := by
  apply moves_get_bind
  split
  · exact moves_pure _
  · split
    · exact moves_pure _
    · split
      · exact moves_pure _
      · split
        · exact moves_pure _
        · refine moves_bind (trails_edit (reshapes_maximizeSize id _) ?_) fun _ t => moves_pure _
          exact TypeStore.stops_editLayout id (Layout.stops_maximizeSize _)

theorem trails_addWrite (id : StructId) (w : Write) :
    Trails (Session.Sketch c.settings) s (addWrite id w) := by
  unfold addWrite
  split
  · exact trails_addMemberType id _ _
  · exact trails_addMemberType id _ _
  · exact moves_pure _

theorem trails_addRead (id : StructId) (r : Read) :
    Trails (Session.Sketch c.settings) s (addRead id r) := by
  unfold addRead
  split
  · exact trails_addMemberType id _ _
  · exact trails_addMemberType id _ _
  · exact trails_addMemberType id _ _
  · exact moves_pure _
  · exact moves_pure _

theorem trails_addCast (id : StructId) (k : Cast) :
    Trails (Session.Sketch c.settings) s (addCast id k) := by
  unfold addCast
  split
  · exact trails_sizeFromCast id _
  · exact trails_addMemberType id _ _
  · exact trails_addMemberType id _ _
  · exact trails_addMemberType id _ _
  · exact moves_pure _

theorem trails_addUses (uses : Uses) (type : Ty) :
    Trails (Session.Sketch c.settings) s (addUses uses type) := by
  unfold addUses
  split
  · exact moves_pure _
  case h_2 id _ =>
    refine moves_bind (moves_forM fun w _ t => trails_addWrite id w) fun _ t => ?_
    refine moves_bind (moves_forM fun r _ t => trails_addRead id r) fun _ t => ?_
    exact moves_forM fun k _ t => trails_addCast id k

theorem remarks_typeByUses (var : Variable) (uses : Uses) :
    Trails (Session.Remark c.settings) s (typeByUses c.settings var uses) := by
  apply moves_get_bind
  refine trails_lift_bind (Verdict.stops_ofUses _ _) fun verdict _ => ?_
  cases verdict with
  | type t => exact moves_pure _
  | unknown reason => exact trails_remark_pure (by nofun) (by nofun) _
  | newStruct => exact moves_bind (trails_createStruct.mono .sketch) fun _ t => moves_pure _

theorem trails_typeByUses (var : Variable) (uses : Uses) :
    Trails (Session.Draft c.settings) s (typeByUses c.settings var uses) :=
  (remarks_typeByUses var uses).mono .remark

theorem trails_callee? (call : Call) : Trails (Session.Sketch c.settings) s (callee? c call) := by
  unfold callee?
  split
  · exact moves_pure _
  · exact moves_pure _
  · split
    · exact moves_pure _
    · apply moves_get_bind
      refine trails_lift_bind (stops_targetOfOrigin (fun _ => Fault.nestedIn_endless _) _ _)
        fun found _ => ?_
      cases found with
      | ok target => exact moves_pure _
      | error failure => exact moves_pure _

end Infer

namespace Inference

open Infer

variable {c : Context} {deeper : Inference} {s : Session}

/-- Whatever is done to find a type moves in a manner that sketches belong to. -/
structure Types (c : Context) (M : Manner) (i : Inference) : Prop where
  sketches : M.Admits (Session.Sketch c.settings)
  inferVariable : ∀ var s, M.Moves s (i.inferVariable var)
  inferReturn : ∀ function s, M.Moves s (i.inferReturn function)

/-- All four activities move in a manner that the changes beside the types of variables belong to. -/
structure Along (c : Context) (M : Manner) (i : Inference) : Prop extends Types c M i where
  asides : M.Admits (Session.Aside c.settings)
  visitFunction : ∀ function s, M.Moves s (i.visitFunction function)
  propagate : ∀ var s, M.Moves s (i.propagate var)

/-- All four activities move by steps. -/
abbrev Moves (c : Context) (i : Inference) : Prop :=
  Along c (Manner.stepping (Session.Step c.settings)) i

theorem remarks_inferable (var : Variable) :
    Trails (Session.Remark c.settings) s (inferable c var) := by
  unfold inferable
  split
  · exact moves_pure _
  · split
    · exact moves_pure _
    · split
      · exact moves_pure _
      · split
        · exact trails_remark_pure (by nofun) (by nofun) _
        · exact moves_pure _

theorem trails_inferable (var : Variable) :
    Trails (Session.Draft c.settings) s (inferable c var) :=
  (remarks_inferable var).mono .remark

theorem trails_commonType (function : Nat) (types : List Ty) :
    Trails (Session.Sketch c.settings) s (commonType function types) := by
  unfold commonType
  split
  · exact trails_report_pure (by nofun) (.of_subject (functionSubject_ne_text function)) _
  · exact moves_pure _
  · exact trails_report_pure (by nofun) (.of_subject (functionSubject_ne_text function)) _

section Values

variable {M : Manner} (hdeeper : deeper.Types c M)
include hdeeper

theorem moves_globalValue (address : Nat) :
    M.Moves s (globalValue deeper address) := by
  refine moves_bind (hdeeper.inferVariable _ s) fun t s' => ?_
  split
  · exact moves_pure _
  · apply moves_get_bind
    split <;> exact moves_pure _

theorem moves_bareType {function : Nat} {e : Expr} {x : Infer Ty}
    (h : bareType c deeper function e = some x) : M.Moves s x := by
  unfold bareType at h
  split at h
  case h_1 index =>
    cases h
    exact hdeeper.inferVariable _ s
  case h_2 callee _ =>
    split at h
    · split at h
      · cases h
        exact hdeeper.inferReturn _ s
      · cases h
    · cases h
  case h_3 =>
    cases h
    exact moves_pure _
  case h_4 address =>
    split at h
    · cases h
    · cases h
      exact moves_globalValue hdeeper address
  case h_5 inner =>
    split at h
    · split at h
      · cases h
      · cases h
        exact moves_bind (hdeeper.inferVariable _ s) fun t s' => moves_pure _
    · cases h
  case h_6 => cases h

theorem moves_exprType (function : Nat) (e : Expr) :
    M.Moves s (exprType c deeper function e) := by
  unfold exprType
  split
  · exact moves_pure _
  · cases hbare : bareType c deeper function e.stripCasts with
    | some x => exact moves_bareType hdeeper hbare
    | none =>
      refine hdeeper.sketches.lift_bind e.stops_text fun text _ => hdeeper.sketches ?_
      exact trails_report_pure (by nofun) (.of_subject (functionSubject_ne_text function)) _

theorem moves_argType (k : Cast) :
    M.Moves s (argType c deeper k) := by
  refine moves_bind (hdeeper.sketches (trails_callee? k.call)) fun callee t => ?_
  cases callee with
  | none => exact moves_pure _
  | some callee =>
    dsimp only
    split
    · exact moves_get_bind (moves_pure _)
    · split
      · exact moves_pure _
      · split
        · exact hdeeper.inferVariable _ _
        · exact moves_pure _

theorem moves_resolveWrite (function : Nat) (w : Write) :
    M.Moves s (resolveWrite c deeper function w) :=
  moves_bind (moves_exprType hdeeper function w.value) fun _ _ => moves_pure _

theorem moves_resolveCast (k : Cast) :
    M.Moves s (resolveCast c deeper k) :=
  moves_bind (moves_argType hdeeper k) fun _ _ => moves_pure _

theorem moves_resolveUses (function : Nat) (uses : Uses) :
    M.Moves s (resolveUses c deeper function uses) := by
  refine moves_bind (moves_mapM fun w _ t => moves_resolveWrite hdeeper function w) fun _ t => ?_
  refine moves_bind (moves_mapM fun k _ t => moves_resolveCast hdeeper k) fun _ t => ?_
  exact moves_pure _

theorem moves_collectFrom (var : Variable) (functions : List Nat) :
    M.Moves s (collectFrom c deeper var functions) := by
  induction functions generalizing s with
  | nil => exact moves_pure _
  | cons function rest ih =>
    unfold collectFrom
    split
    · exact ih
    · dsimp only
      split
      · exact ih
      · refine moves_bind (moves_resolveUses hdeeper function _) fun _ t => ?_
        exact moves_bind ih fun _ t => moves_pure _

theorem moves_mergeDeferred (type : Ty) (group : Nat × Uses) :
    M.Moves s (mergeDeferred c deeper type group) := by
  have hdeferred : M.Moves s
      (deferredUses c deeper group.1 group.2) := by
    refine moves_bind (moves_mapM fun w _ t => moves_resolveWrite hdeeper _ w) fun _ t => ?_
    refine moves_bind (moves_mapM fun k _ t => moves_resolveCast hdeeper k) fun _ t => ?_
    exact moves_pure _
  refine moves_bind hdeferred fun uses t => ?_
  split
  · exact hdeeper.sketches (trails_addUses uses type)
  · exact moves_pure _

theorem remarks_inferFresh (hremark : M.Admits (Session.Remark c.settings)) (var : Variable) :
    M.Moves s (inferFresh c deeper var) := by
  apply moves_get_bind
  dsimp only
  split
  · exact moves_pure _
  · refine moves_bind (hremark (remarks_inferable var)) fun ready t => ?_
    split
    · exact moves_pure _
    · exact moves_pure _
    · split
      · exact moves_pure _
      · refine moves_bind (moves_collectFrom hdeeper var _) fun groups t => ?_
        exact moves_bind (hremark (remarks_typeByUses var _)) fun _ t => moves_pure _

theorem moves_inferFresh (hdraft : M.Admits (Session.Draft c.settings)) (var : Variable) :
    M.Moves s (inferFresh c deeper var) :=
  remarks_inferFresh hdeeper (fun _ _ _ h => hdraft (h.mono .remark)) var

theorem moves_mergeGroups (type : Ty) (groups : UseGroups) :
    M.Moves s (do
      if (← get).isProvisional type then
        groups.forM fun g => Infer.addUses g.2 type
        groups.forM (mergeDeferred c deeper type)
      return type) := by
  apply moves_get_bind
  dsimp only
  split
  · refine moves_bind (moves_forM fun g _ t => hdeeper.sketches (trails_addUses g.2 type))
      fun _ t => ?_
    refine moves_bind (moves_forM fun g _ t => moves_mergeDeferred hdeeper type g) fun _ t => ?_
    exact moves_pure _
  · exact moves_pure _

theorem moves_returnedType (function : Nat) (ret : Return) :
    M.Moves s (returnedType deeper function ret) := by
  refine moves_bind (hdeeper.inferVariable _ s) fun t s' => ?_
  split
  · exact moves_pure _
  · apply moves_get_bind
    refine hdeeper.sketches.lift_bind
      (Chain.stops_walk s'.db.lists (fun _ => Fault.nestedIn_endless _) _ _) fun target _ => ?_
    cases target with
    | some target => exact moves_pure _
    | none =>
      exact hdeeper.sketches
        (trails_report_pure (by nofun) (.of_subject (functionSubject_ne_text function)) _)

theorem moves_returnType (haside : M.Admits (Session.Aside c.settings)) (function : Nat) :
    M.Moves s (returnType c deeper function) := by
  apply moves_get_bind
  split
  · exact moves_pure _
  · split
    · exact moves_pure _
    · refine moves_bind (haside (trails_enter _)) fun entered t => ?_
      cases entered with
      | false => exact moves_pure _
      | true =>
        refine moves_bind (haside (trails_resolveReturn function _)) fun _ t => ?_
        refine moves_bind (moves_mapM fun ret _ t => ?_) fun types t => ?_
        · exact moves_returnedType hdeeper function ret
        refine moves_bind (haside trails_leave) fun _ t => ?_
        refine moves_bind (hdeeper.sketches (trails_commonType function types)) fun common t => ?_
        exact moves_bind (haside (trails_resolveReturn function _)) fun _ t => moves_pure _

end Values

section Activities

variable {M : Manner} (hdeeper : deeper.Along c M)
include hdeeper

theorem moves_propagateInto (hadopt : ∀ s param type, M.Moves s (adopt param type)) (type : Ty)
    (k : Cast) : M.Moves s (propagateInto c deeper type k) := by
  refine moves_bind (hdeeper.sketches (trails_callee? k.call)) fun callee t => ?_
  cases callee with
  | none => exact moves_pure _
  | some callee =>
    dsimp only
    split
    · exact moves_pure _
    · split
      · exact moves_pure _
      · split
        · exact moves_pure _
        · apply moves_get_bind
          split
          · exact moves_pure _
          · refine moves_bind (hdeeper.inferVariable _ _) fun current t => ?_
            split
            · split
              · apply moves_get_bind
                refine hdeeper.sketches.lift_bind (TypeStore.stops_render _ _) fun text _ => ?_
                refine hdeeper.sketches.lift_bind (TypeStore.stops_render _ _) fun text' _ => ?_
                exact hdeeper.sketches (trails_report_pure (by nofun) (.of_kind (by nofun)) _)
              · exact moves_pure _
            · split
              · exact moves_pure _
              · refine moves_adopt_bind (hadopt t _ type) fun _ t => ?_
                refine moves_bind (hdeeper.propagate _ _) fun _ t => ?_
                refine moves_bind (moves_resolveUses hdeeper.toTypes callee _) fun uses t => ?_
                exact hdeeper.sketches (trails_addUses uses type)

theorem moves_propagateVariable (hadopt : ∀ s param type, M.Moves s (adopt param type))
    (var : Variable) : M.Moves s (propagateVariable c deeper var) := by
  unfold propagateVariable
  split
  · exact moves_pure _
  · apply moves_get_bind
    dsimp only
    split
    · exact moves_pure _
    · refine moves_bind (hdeeper.asides (trails_set (.single ?_))) fun _ t => ?_
      · exact .track s.analyzed s.deferred (s.propagated.add var) s.depth
      · exact moves_forM fun k _ t => moves_propagateInto hdeeper hadopt _ k

theorem moves_visit (function : Nat) : M.Moves s (visit c deeper function) := by
  unfold visit
  split
  · exact moves_pure _
  · apply moves_get_bind
    split
    · exact moves_pure _
    · split
      · refine moves_bind (hdeeper.asides (trails_set (.single ?_))) fun _ t => moves_pure _
        exact .track s.analyzed (s.deferred.add function) s.propagated s.depth
      · refine moves_bind (hdeeper.asides (trails_set (.single ?_))) fun _ t => ?_
        · exact .track (s.analyzed.add function) s.deferred s.propagated s.depth
        · have hslots : ∀ (slots : List Variable) t, M.Moves t (do
              slots.forM fun var => discard (deeper.inferVariable var)
              let _ ← deeper.inferReturn function
              slots.forM deeper.propagate) := by
            intro slots t
            refine moves_bind (moves_forM fun var _ t => ?_) fun _ t => ?_
            · exact moves_map _ (hdeeper.inferVariable var t)
            · refine moves_bind (hdeeper.inferReturn function t) fun _ t => ?_
              exact moves_forM fun var _ t => hdeeper.propagate var t
          refine moves_bind (hdeeper.asides (trails_enter _)) fun entered t => ?_
          dsimp only
          split
          · refine moves_bind (moves_forM fun f _ t => hdeeper.visitFunction f t) fun _ t => ?_
            exact moves_bind (hdeeper.asides trails_leave) fun _ t => hslots _ t
          · exact hslots _ t

theorem moves_settleVariable (hresolve : ∀ s var r, M.Moves s (resolve var r))
    (var : Variable) (type : Ty) (groups : UseGroups) :
    M.Moves s (settleVariable c deeper var type groups) :=
  moves_bind (hresolve s var _) fun _ _ => moves_mergeGroups hdeeper.toTypes type groups

theorem moves_variableType (hremark : M.Admits (Session.Remark c.settings))
    (hresolve : ∀ s var r, M.Moves s (resolve var r)) (var : Variable) :
    M.Moves s (variableType c deeper var) := by
  apply moves_get_bind
  split
  · exact moves_pure _
  · refine moves_bind (hdeeper.asides (trails_enter _)) fun entered t => ?_
    cases entered with
    | false => exact moves_pure _
    | true =>
      refine moves_bind (hresolve t var _) fun _ t => ?_
      refine moves_bind (remarks_inferFresh hdeeper.toTypes hremark var) fun outcome t => ?_
      refine moves_bind (hdeeper.asides trails_leave) fun _ t => ?_
      cases outcome with
      | ok found => exact moves_settleVariable hdeeper hresolve var found.1 found.2
      | error e =>
        refine moves_bind (hdeeper.sketches (trails_report nofun (.of_kind (by nofun))))
          fun _ t => ?_
        exact moves_settleVariable hdeeper hresolve var _ _

end Activities

theorem along_exhausted {M : Manner} (hasides : M.Admits (Session.Aside c.settings)) :
    exhausted.Along c M where
  sketches _ _ _ h := hasides (h.mono .sketch)
  asides := hasides
  inferVariable _ _ := hasides trails_exhausted
  inferReturn _ _ := hasides trails_exhausted
  visitFunction _ _ := hasides trails_exhausted
  propagate _ _ := hasides trails_exhausted

/-- Every level of the engine moves by steps. -/
theorem moves_upTo (n : Nat) : (upTo c n).Moves c := by
  induction n with
  | zero => exact along_exhausted (Manner.admits_stepping .aside)
  | succ n ih =>
    have hremark : (Manner.stepping (Session.Step c.settings)).Admits (Session.Remark c.settings) :=
      Manner.admits_stepping fun h => .draft (.remark h)
    exact {
      sketches := ih.sketches
      asides := ih.asides
      inferVariable var _ :=
        moves_variableType ih hremark (fun _ var r => trails_modify (.resolve var r)) var
      inferReturn function _ := moves_returnType ih.toTypes ih.asides function
      visitFunction function _ := moves_visit ih function
      propagate var _ := moves_propagateVariable ih (fun _ param type =>
        moves_bind (trails_modify (.draft (.retract param.text)))
          fun _ _ => trails_modify (.resolve param (.resolved type))) var }

end Inference

namespace Infer

variable {c : Context} {s : Session}

theorem moves_ofContext : (Inference.ofContext c).Moves c :=
  Inference.moves_upTo _

section Drivers

variable {M : Manner} (hengine : (Inference.ofContext c).Along c M)
include hengine

theorem along_drainDeferred (fuel : Nat) : M.Moves s (drainDeferred c fuel) := by
  induction fuel generalizing s with
  | zero => exact hengine.asides trails_exhausted
  | succ fuel ih =>
    apply moves_get_bind
    split
    · exact moves_pure _
    case h_2 function rest _ =>
      refine moves_bind (hengine.asides (trails_modify ?_)) fun _ t => ?_
      · exact .track s.analyzed rest s.propagated s.depth
      · exact moves_bind (hengine.visitFunction function t) fun _ t => ih

theorem along_analyzeFunction (function : Nat) : M.Moves s (analyzeFunction c function) := by
  refine moves_bind (hengine.visitFunction function s) fun _ t => ?_
  apply moves_get_bind
  split
  · exact along_drainDeferred hengine _
  · exact moves_pure _

theorem along_analyzeEverything : M.Moves s (analyzeEverything c) :=
  moves_forM fun function _ _ => along_analyzeFunction hengine function

theorem along_propagateTracked : M.Moves s (propagateTracked c) :=
  moves_get_bind (moves_forM fun var _ t => hengine.propagate var t)

end Drivers

theorem trails_analyzeFunction (function : Nat) :
    Trails (Session.Step c.settings) s (analyzeFunction c function) :=
  along_analyzeFunction moves_ofContext function

theorem trails_propagateTracked : Trails (Session.Step c.settings) s (propagateTracked c) :=
  along_propagateTracked moves_ofContext

/-- Resolving calls only reports, so what it works on does not change under it. -/
def Noted (s s' : Session) : Prop :=
  ∃ d : Diagnostic, d.subsystem ≠ .writeBack ∧ d.Impersonal ∧
    s' = { s with toRun := s.toRun.report d }

theorem Noted.draft {settings : Settings} {t : Session} (h : Noted s t) :
    Session.Draft settings s t := by
  obtain ⟨d, hd, _, rfl⟩ := h
  exact .report hd

theorem Noted.step {settings : Settings} {t : Session} (h : Noted s t) :
    Session.Step settings s t :=
  .draft h.draft

theorem trails_indirectTarget (call : Call) : Trails Noted s (indirectTarget c call) := by
  unfold indirectTarget
  split
  · apply moves_get_bind
    refine trails_lift_bind (stops_targetOfOrigin (fun _ => Fault.nestedIn_endless _) _ _) ?_
    intro found _
    cases found with
    | ok target => exact moves_pure _
    | error failure =>
      refine trails_lift_bind (failure.stops_message s.db) fun message _ => ?_
      refine moves_bind (trails_modify ?_) fun _ t => moves_pure _
      exact ⟨.unresolvableCall _ message, nofun, .of_kind nofun, rfl⟩
  · exact moves_pure _

theorem trails_resolveCalls : Trails Noted s (resolveCalls c) := by
  unfold resolveCalls
  split
  · apply moves_get_bind
    refine moves_bind (moves_mapM fun function _ t => ?_) fun _ t => moves_pure _
    unfold indirectEdges
    split
    · exact moves_pure _
    · refine moves_bind (moves_mapM fun call _ t => ?_) fun _ t => moves_pure _
      exact moves_bind (trails_indirectTarget call) fun _ t => moves_pure _
  · exact moves_pure _

theorem stops_commit {F : Fault → Prop} [Fault.Overflows F] (edges : List CallEdge) :
    (commit edges).Stops F := by
  refine Edit.stops_get_bind fun s => ?_
  refine Edit.stops_lift_bind (Run.stops_commit _) fun p => ?_
  obtain ⟨answer, run⟩ := p
  cases answer with
  | error cause => exact Edit.stops_bind (Edit.stops_set _) fun _ => Edit.stops_throw _
  | ok written => exact Edit.stops_bind (Edit.stops_set _) fun _ => Edit.stops_pure _

theorem resolveCalls_eq_ok {edges : List CallEdge} {s' : Session}
    (h : (resolveCalls c).run s = .ok (edges, s')) :
    ∃ ds : List Diagnostic, (∀ d ∈ ds, d.subsystem ≠ .writeBack) ∧
      s' = { s with diagnostics := s.diagnostics ++ ds } := by
  have hnotes := trails_resolveCalls.reaches h
  clear h
  induction hnotes with
  | refl => exact ⟨[], by simp, by simp⟩
  | tail _ hnote ih =>
    obtain ⟨ds, hds, rfl⟩ := ih
    obtain ⟨d, hd, _, rfl⟩ := hnote
    refine ⟨ds ++ [d], ?_, by simp [Run.report]⟩
    intro d' hd'
    rcases List.mem_append.1 hd' with hd' | hd'
    · exact hds d' hd'
    · rw [List.mem_singleton.1 hd']
      exact hd

end Infer

end TypeRecovery
