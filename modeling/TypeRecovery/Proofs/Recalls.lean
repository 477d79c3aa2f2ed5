import TypeRecovery.Proofs.Agreement

/-!
# Inference over a database that agrees

Over a database that agrees with the program, inference finds for each variable its declared type or
nothing. It creates no struct, has nothing to propagate, and its sessions stay steady.
-/
namespace TypeRecovery

namespace Inference

open Infer Session Context

/-- The four activities find what is declared or nothing. -/
structure Recalls (c : Context) (db : Database) (i : Inference) : Prop where
  inferVariable : ∀ {var : Variable}, var ∈ c.program.mentioned → ∀ {s : Session},
    s.Steady c db → Returns s (i.inferVariable var) fun type t =>
      Keeps (Steady c db) s t ∧ type ∈ c.answers db var
  inferReturn : ∀ (function : Nat) {s : Session}, s.Steady c db →
    Returns s (i.inferReturn function) fun type t =>
      Keeps (Steady c db) s t ∧ type ∈ c.returnTypes db function
  propagate : ∀ (var : Variable) {s : Session}, s.Steady c db →
    Returns s (i.propagate var) fun _ t => t = s
  visitFunction : ∀ (function : Nat) {s : Session}, s.Steady c db →
    Returns s (i.visitFunction function) fun _ t => Keeps (Steady c db) s t

variable {c : Context} {db : Database} {deeper : Inference} {s : Session} {var : Variable}

theorem recalls_callee (hs : s.Steady c db) {call : Call} (hresolves : c.resolves db call = true) :
    Returns s (callee? c call) fun callee t => t = s ∧ callee ∈ c.callees db call := by
  unfold callee? callees
  cases htarget : call.target with
  | explicit target => exact ends_pure ⟨rfl, List.mem_singleton_self _⟩
  | helper name => exact ends_pure ⟨rfl, List.mem_singleton_self _⟩
  | implicit origin =>
    cases henabled : c.settings.isEnabled .implicitCalls with
    | false => exact ends_pure ⟨rfl, List.mem_singleton_self _⟩
    | true =>
      obtain ⟨found, hfound, hok, _⟩ := hs.targetOfOrigin_eq_ok htarget hresolves
      refine ends_get_bind (ends_lift_bind (by rw [hfound]; nofun) fun found' hfound' => ?_)
      rw [hfound] at hfound'
      cases hfound'
      cases found with
      | error failure => exact ends_pure ⟨rfl, List.mem_cons_self⟩
      | ok target =>
        obtain ⟨o, rfl, hmem⟩ := hok rfl
        refine ends_pure ⟨rfl, List.mem_cons_of_mem _ ?_⟩
        exact List.mem_flatMap.2 ⟨o, List.mem_singleton_self _, hmem⟩

variable (hdeeper : deeper.Recalls c db)
include hdeeper

theorem recalls_globalValue (hs : s.Steady c db) {address : Nat}
    (hvar : Variable.global address ∈ c.program.mentioned) :
    Returns s (globalValue deeper address) fun type t => Keeps (Steady c db) s t ∧
      type ∈ (c.answers db (.global address)).map
        (Ty.asValue (db.declared.get? (.global address))) := by
  refine ends_bind (hdeeper.inferVariable hvar hs) ?_
  rintro type t ⟨hst, htype⟩
  split
  case isTrue hunknown =>
    refine ends_pure ⟨hst, List.mem_map.2 ⟨type, htype, ?_⟩⟩
    simp [Ty.asValue, hunknown]
  case isFalse hknown =>
    apply ends_get_bind
    rw [(hst hs).1.declared?_eq]
    split
    all_goals
      refine ends_pure ⟨hst, List.mem_map.2 ⟨_, htype, ?_⟩⟩
      simp_all [Ty.asValue]

theorem recalls_bareType (hs : s.Steady c db) {function : Nat} {e : Expr}
    (hsource : ∀ {var}, e.source? function = some var → var ∈ c.program.mentioned) :
    (bareType c deeper function e.stripCasts = none ∧
      c.bareTypes db function e.stripCasts = none) ∨
    ∃ x types, bareType c deeper function e.stripCasts = some x ∧
      c.bareTypes db function e.stripCasts = some types ∧
      Returns s x fun type t => Keeps (Steady c db) s t ∧ type ∈ types := by
  unfold Expr.source? at hsource
  cases hbare : e.stripCasts with
  | slot index =>
    rw [hbare] at hsource
    exact .inr ⟨_, _, rfl, rfl, hdeeper.inferVariable (hsource rfl) hs⟩
  | num value size =>
    exact .inr ⟨_, _, rfl, rfl, ends_pure ⟨refl s, List.mem_singleton_self _⟩⟩
  | call callee args =>
    dsimp only [bareType, bareTypes]
    cases callee.stripCasts with
    | global address =>
      dsimp only
      by_cases hstart : c.program.isFunctionStart address = true
      · simp only [hstart, if_true]
        exact .inr ⟨_, _, rfl, rfl, hdeeper.inferReturn address hs⟩
      · simp only [hstart]
        exact .inl ⟨rfl, rfl⟩
    | _ => exact .inl ⟨rfl, rfl⟩
  | global address =>
    rw [hbare] at hsource
    dsimp only [bareType, bareTypes]
    by_cases hstart : c.program.isFunctionStart address = true
    · exact .inl ⟨if_pos hstart, if_pos hstart⟩
    · simp only [hstart]
      exact .inr ⟨_, _, rfl, rfl, recalls_globalValue hdeeper hs (hsource rfl)⟩
  | addressOf inner =>
    rw [hbare] at hsource
    dsimp only [bareType, bareTypes]
    cases hinner : inner.stripCasts with
    | global address =>
      simp only [hinner] at hsource
      by_cases hstart : c.program.isFunctionStart address = true
      · exact .inl ⟨if_pos hstart, if_pos hstart⟩
      · simp only [hstart]
        refine .inr ⟨_, _, rfl, rfl, ends_bind (hdeeper.inferVariable (hsource rfl) hs) ?_⟩
        rintro type t ⟨hst, htype⟩
        exact ends_pure ⟨hst, List.mem_map_of_mem htype⟩
    | _ => exact .inl ⟨rfl, rfl⟩
  | _ => exact .inl ⟨rfl, rfl⟩

theorem recalls_exprType (hs : s.Steady c db) {function : Nat} {e : Expr}
    (hsource : ∀ {var}, e.source? function = some var → var ∈ c.program.mentioned)
    (htext : c.hasTypeOrText db function e = true) :
    Returns s (exprType c deeper function e) fun type t => Keeps (Steady c db) s t ∧
      type ∈ c.valueTypes db function e := by
  unfold hasTypeOrText at htext
  unfold exprType valueTypes
  cases hcast : castEvidence? e with
  | some t => exact ends_pure ⟨refl s, List.mem_singleton_self _⟩
  | none =>
    dsimp only
    rcases recalls_bareType hdeeper hs hsource with ⟨hbare, htypes⟩ | ⟨x, types, hbare, htypes, hx⟩
    · have hok : e.text.isOk = true := by simpa [hcast, htypes] using htext
      rw [hbare, htypes]
      refine ends_lift_bind (Checked.stops_of_isOk hok) fun text _ => ?_
      refine ends_modify_bind (ends_pure ?_)
      exact ⟨fun hs => ⟨hs.report _, rfl⟩, List.mem_singleton_self _⟩
    · rw [hbare, htypes]
      exact hx

theorem recalls_argType (hs : s.Steady c db) {k : Cast} (hresolves : c.resolves db k.call = true) :
    Returns s (argType c deeper k) fun type t => Keeps (Steady c db) s t ∧
      type ∈ c.argTypes db k := by
  refine ends_bind (recalls_callee hs hresolves) ?_
  rintro callee _ ⟨rfl, hcallee⟩
  cases callee with
  | none =>
    exact ends_pure ⟨refl _, List.mem_flatMap.2 ⟨none, hcallee, List.mem_singleton_self _⟩⟩
  | some callee =>
    have hmem : ∀ {type : Ty}, type ∈ c.paramTypes db callee k.argIndex → type ∈ c.argTypes db k :=
      fun h => List.mem_flatMap.2 ⟨some callee, hcallee, h⟩
    unfold paramTypes at hmem
    dsimp only at hmem ⊢
    split
    case isTrue himport =>
      refine ends_get_bind (ends_pure ⟨refl _, hmem ?_⟩)
      rw [if_pos himport, hs.declared?_eq]
      exact List.mem_singleton_self _
    case isFalse himport =>
      rw [if_neg himport] at hmem
      cases hbody : c.program.function? callee with
      | none =>
        simp only [hbody] at hmem
        exact ends_pure ⟨refl _, hmem (List.mem_singleton_self _)⟩
      | some body =>
        simp only [hbody] at hmem
        dsimp only
        split
        case isTrue hslot =>
          rw [if_pos hslot] at hmem
          have hvar := Program.mem_mentioned_of_mem_slots (Program.mem_slots hbody hslot)
          exact (hdeeper.inferVariable hvar hs).imp fun _ _ h => ⟨h.1, hmem h.2⟩
        case isFalse hslot =>
          rw [if_neg hslot] at hmem
          exact ends_pure ⟨refl _, hmem (List.mem_singleton_self _)⟩

omit hdeeper in
theorem mem_sections_of_forall₂ {α β : Type} {options : α → List β} {xs : List α} {ys : List β}
    (h : List.Forall₂ (fun x y => y ∈ options x) xs ys) : ys ∈ (xs.map options).sections :=
  List.mem_sections.2 (List.forall₂_map_right_iff.2 h.flip)

theorem recalls_resolveUses (hagrees : c.Agrees db) (hs : s.Steady c db) {function : Nat}
    {body : FunctionBody} (hbody : c.program.function? function = some body) (var : Variable) :
    Returns s (resolveUses c deeper function (body.usesOf var)) fun uses t =>
      Keeps (Steady c db) s t ∧ uses ∈ c.useOptions db function (body.usesOf var) := by
  have hwrites := ends_mapM_forall₂ (R := Keeps (Steady c db)) (F := (· = .exhausted)) (s := s)
    (f := resolveWrite c deeper function) (P := fun w w' => w' ∈ c.writeOptions db function w)
    fun w (hw : w ∈ (body.usesOf var).writes) t hst => by
      have htext := hagrees.hasTypeOrText hbody (List.mem_filter.1 hw).1
      have hnamed : Named c function (body.usesOf var).writes := named_of_usesOf hbody var
      refine ends_bind (recalls_exprType hdeeper (hst hs).1 (fun h => hnamed w hw h) htext) ?_
      rintro type u ⟨htu, htype⟩
      exact ends_pure ⟨htu, List.mem_map_of_mem htype⟩
  refine ends_bind hwrites ?_
  rintro writes t ⟨hst, hwrites⟩
  have hcasts := ends_mapM_forall₂ (R := Keeps (Steady c db)) (F := (· = .exhausted)) (s := t)
    (f := resolveCast c deeper) (P := fun k k' => k' ∈ c.castOptions db k)
    fun k (hk : k ∈ (body.usesOf var).casts) u htu => by
      have hcall : k.call ∈ body.casts.map (·.call) :=
        List.mem_map_of_mem (List.mem_filter.1 hk).1
      have hresolves := hagrees.resolves hbody (List.mem_append_left _ hcall)
      refine ends_bind (recalls_argType hdeeper (htu (hst hs).1).1 hresolves) ?_
      rintro type w ⟨huw, htype⟩
      exact ends_pure ⟨huw, List.mem_map_of_mem htype⟩
  refine ends_bind hcasts ?_
  rintro casts u ⟨htu, hcasts⟩
  refine ends_pure ⟨IsTrans.trans _ _ _ hst htu, ?_⟩
  refine List.mem_flatMap.2 ⟨writes, mem_sections_of_forall₂ hwrites, ?_⟩
  exact List.mem_map.2 ⟨casts, mem_sections_of_forall₂ hcasts, rfl⟩

theorem recalls_collectFrom (hagrees : c.Agrees db) (hs : s.Steady c db) (var : Variable)
    (functions : List Nat) :
    Returns s (collectFrom c deeper var functions) fun groups t => Keeps (Steady c db) s t ∧
      groups ∈ c.groupOptions db var functions := by
  induction functions generalizing s with
  | nil => exact ends_pure ⟨refl s, List.mem_sections.2 .nil⟩
  | cons function rest ih =>
    unfold collectFrom
    cases hbody : c.program.function? function with
    | none =>
      refine (ih hs).imp ?_
      rintro groups t ⟨hst, hgroups⟩
      exact ⟨hst, by simpa [groupOptions, hbody] using hgroups⟩
    | some body =>
      dsimp only
      split
      case isTrue hempty =>
        refine (ih hs).imp ?_
        rintro groups t ⟨hst, hgroups⟩
        exact ⟨hst, by simpa [groupOptions, hbody, hempty] using hgroups⟩
      case isFalse hused =>
        refine ends_bind (recalls_resolveUses hdeeper hagrees hs hbody var) ?_
        rintro uses t ⟨hst, huses⟩
        refine ends_bind (ih (hst hs).1) ?_
        rintro groups u ⟨htu, hgroups⟩
        refine ends_pure ⟨IsTrans.trans _ _ _ hst htu, ?_⟩
        unfold groupOptions at hgroups ⊢
        simp only [List.filterMap_cons, hbody, Option.bind_some, hused, Bool.false_eq_true,
          if_false]
        refine List.mem_sections.2 (.cons ?_ (List.mem_sections.1 hgroups))
        exact List.mem_map_of_mem huses

omit hdeeper in
theorem recalls_inferTrusted (hdeclared : TypeStore.declared? s.db var = db.declared.get? var)
    (htrusts : c.trusts db var = true) :
    Returns s (inferFresh c deeper var) fun outcome t =>
      t = s ∧ outcome = .ok ((db.declared.get? var).getD .unknown, []) := by
  apply ends_get_bind
  rw [hdeclared]
  split
  case isTrue => exact ends_pure ⟨rfl, rfl⟩
  case isFalse himport =>
    rw [Bool.not_eq_true] at himport
    refine ends_bind (ends_inferable_iff himport) ?_
    rintro ready t ⟨hready, hstate⟩
    have hwithholds := withholds_of_trusts htrusts
    cases hready.2 hwithholds
    obtain rfl | ⟨h, _⟩ := hstate
    · have hany : (db.declared.get? var).any Ty.bearsStruct = true := by
        simpa [trusts, himport, hwithholds] using htrusts
      obtain ⟨type, htype, hbears⟩ := (Option.any_eq_true _ _).1 hany
      simp only [htype, Option.filter_some, hbears, if_true]
      exact ends_pure ⟨rfl, rfl⟩
    · rw [hwithholds] at h
      cases h

omit hdeeper in
theorem recalls_typeByUses (hs : s.Steady c db) (htrusts : c.trusts db var = false)
    (hwithholds : c.withholds var = false) {uses : Uses}
    (hconfirms : confirms db var (Verdict.ofUses (.ofDatabase db) uses) = true) :
    Returns s (typeByUses c.settings var uses) fun type t => Keeps (Steady c db) s t ∧
      type ∈ c.answers db var := by
  have hunknown := unknown_mem_of_not_trusts htrusts
  apply ends_get_bind
  rw [hs.overlay]
  have hstops : Checked.Stops (· = .exhausted) (Verdict.ofUses (.ofDatabase db) uses) := by
    intro fault hfault
    rw [hfault] at hconfirms
    cases hconfirms
  refine ends_lift_bind hstops fun verdict hverdict => ?_
  rw [hverdict] at hconfirms
  cases verdict with
  | newStruct => cases hconfirms
  | unknown reason => exact ends_modify_bind (ends_pure ⟨fun hs => ⟨hs.report _, rfl⟩, hunknown⟩)
  | type t =>
    refine ends_pure ⟨refl s, ?_⟩
    simp only [confirms, Bool.or_eq_true, beq_iff_eq] at hconfirms
    rcases hconfirms with h | h
    · have hnone : t = .unknown := Ty.eq_unknown_of_not_isKnown (by simpa [Ty.isKnown] using h)
      rw [hnone]
      exact hunknown
    · have hrecorded := recorded_mem_answers db hwithholds
      rwa [h] at hrecorded

theorem recalls_inferFresh (hagrees : c.Agrees db) (hvar : var ∈ c.program.mentioned)
    (hs : s.Steady c db) (htrusts : c.trusts db var = false) :
    Returns s (inferFresh c deeper var) fun outcome t => Keeps (Steady c db) s t ∧
      ∀ {type groups}, outcome = .ok (type, groups) → type ∈ c.answers db var := by
  have hunknown := unknown_mem_of_not_trusts htrusts
  have himport : isImported c var = false := by
    simp only [trusts, Bool.or_eq_false_iff] at htrusts
    exact htrusts.1
  apply ends_get_bind
  simp only [himport, Bool.false_eq_true, if_false]
  refine ends_bind (ends_inferable_iff himport) ?_
  rintro ready t ⟨hready, hstate⟩
  have hst : Keeps (Steady c db) s t := by
    intro hs
    obtain rfl | ⟨_, d, rfl⟩ := hstate
    · exact ⟨hs, rfl⟩
    · exact ⟨hs.report d, rfl⟩
  split
  · exact ends_pure ⟨hst, nofun⟩
  · refine ends_pure ⟨hst, ?_⟩
    rintro _ _ ⟨⟩
    exact hunknown
  · have hwithholds := hready.1 rfl
    have hplain : (db.declared.get? var).filter Ty.bearsStruct = none := by
      simp only [trusts, himport, hwithholds, Bool.false_or, Bool.not_false, Bool.true_and]
        at htrusts
      cases hdeclared : db.declared.get? var with
      | none => rfl
      | some type =>
        rw [hdeclared] at htrusts
        simpa using htrusts
    rw [hs.declared?_eq, hplain]
    refine ends_bind (recalls_collectFrom hdeeper hagrees (hst hs).1 var _) ?_
    rintro groups u ⟨htu, hgroups⟩
    have hconfirms : confirms db var
        (Verdict.ofUses (.ofDatabase db) (UseGroups.merged groups)) = true := by
      have hall := hagrees.vars var hvar
      simp only [agreesOn, hwithholds, htrusts, Bool.false_or, List.all_eq_true] at hall
      exact hall groups hgroups
    refine ends_bind (recalls_typeByUses (htu (hst hs).1).1 htrusts hwithholds hconfirms) ?_
    rintro type w ⟨huw, htype⟩
    refine ends_pure ⟨IsTrans.trans _ _ _ hst (IsTrans.trans _ _ _ htu huw), ?_⟩
    rintro _ _ ⟨⟩
    exact htype

omit hdeeper in
/-- Where there is no struct of the run, recording a type is all that is done. -/
theorem recalls_settleVariable {type : Ty} {groups : UseGroups} {Q : Ty → Session → Prop}
    (hnew : s.newTypes = .empty)
    (hQ : Q type { s with vars := s.vars.insert var (.resolved type) }) :
    Returns s (settleVariable c deeper var type groups) Q := by
  refine ends_modify_bind (ends_get_bind ?_)
  have hplain : Run.isProvisional { s.toRun with
      vars := s.vars.insert var (.resolved type) } type = false :=
    Run.isProvisional_eq_false hnew type
  rw [hplain]
  exact ends_pure hQ

theorem recalls_variableType (hagrees : c.Agrees db) (hvar : var ∈ c.program.mentioned)
    (hs : s.Steady c db) :
    Returns s (variableType c deeper var) fun type t => Keeps (Steady c db) s t ∧
      type ∈ c.answers db var := by
  apply ends_get_bind
  split
  case h_1 r hr =>
    refine ends_pure ⟨refl s, ?_⟩
    cases r with
    | inProgress => exact unknown_mem_answers fun htrusts => absurd hr (hs.closed htrusts)
    | resolved type => exact hs.entry hr
  case h_2 hnone =>
    refine ends_bind (ends_enter _) ?_
    rintro entered t (⟨rfl, hmax, d, rfl⟩ | ⟨rfl, _, rfl⟩)
    · refine ends_pure ⟨fun hs => ⟨hs.report d, rfl⟩, ?_⟩
      exact unknown_mem_answers fun _ => hs.mayCut_of_le hmax
    · refine ends_modify_bind ?_
      cases htrusts : c.trusts db var with
      | true =>
        -- the variable is in progress only for as long as nothing else is looked at
        have hrecorded := recorded_mem_answers db (withholds_of_trusts htrusts)
        refine ends_bind (recalls_inferTrusted (hs.declared?_eq var) htrusts) ?_
        rintro _ _ ⟨rfl, rfl⟩
        refine ends_modify_bind (recalls_settleVariable hs.newTypes ⟨fun hs => ?_, hrecorded⟩)
        refine ⟨?_, rfl⟩
        simp only [Table.insert_insert]
        exact hs.settle hrecorded
      | false =>
        have hmarked := hs.mark hnone hvar htrusts
        refine ends_bind (recalls_inferFresh hdeeper hagrees hvar hmarked htrusts) ?_
        rintro outcome t ⟨hmt, houtcome⟩
        obtain ⟨ht, hdepth⟩ := hmt hmarked
        refine ends_modify_bind ?_
        cases outcome with
        | ok found =>
          refine recalls_settleVariable ht.newTypes ⟨fun _ => ?_, houtcome rfl⟩
          exact ⟨ht.leave.settle (houtcome rfl), by simp [hdepth]⟩
        | error e =>
          have hunknown := unknown_mem_of_not_trusts htrusts
          refine ends_modify_bind (recalls_settleVariable ht.newTypes ⟨fun _ => ?_, hunknown⟩)
          exact ⟨(ht.leave.report _).settle hunknown, by simp [hdepth]⟩

theorem recalls_returnedType (hs : s.Steady c db) (function : Nat) {ret : Return}
    (hvar : ret.var ∈ c.program.mentioned) (hwalks : c.walks db ret = true) :
    Returns s (returnedType deeper function ret) fun type t => Keeps (Steady c db) s t ∧
      type ∈ c.returnedTypes db ret := by
  refine ends_bind (hdeeper.inferVariable hvar hs) ?_
  rintro type t ⟨hst, htype⟩
  split
  case isTrue hwhole =>
    refine ends_pure ⟨hst, List.mem_map.2 ⟨type, htype, ?_⟩⟩
    rw [if_pos hwhole]
  case isFalse hpart =>
    have hok : (ret.chain.walk (Overlay.ofDatabase db) type).run.isOk = true := by
      have hcase := List.all_eq_true.1 hwalks type htype
      rwa [Bool.or_eq_true, or_iff_right hpart] at hcase
    apply ends_get_bind
    rw [(hst hs).1.overlay]
    refine ends_lift_bind (Checked.stops_of_isOk hok) fun found hfound => ?_
    cases found with
    | some target =>
      refine ends_pure ⟨hst, List.mem_map.2 ⟨type, htype, ?_⟩⟩
      rw [if_neg hpart, hfound]
    | none =>
      refine ends_modify_bind (ends_pure ⟨?_, List.mem_map.2 ⟨type, htype, ?_⟩⟩)
      · exact IsTrans.trans _ _ _ hst fun ht => ⟨ht.report _, rfl⟩
      · rw [if_neg hpart, hfound]

omit hdeeper in
variable (c db) in
theorem recalls_commonType (function : Nat) (types : List Ty) :
    Returns s (commonType function types) fun type t => Keeps (Steady c db) s t ∧
      type = commonOf types := by
  have hreport : ∀ d, Keeps (Steady c db) s { s with toRun := s.toRun.report d } :=
    fun d hs => ⟨hs.report d, rfl⟩
  unfold commonType commonOf
  match distinctTypes types with
  | [] => exact ends_modify_bind (ends_pure ⟨hreport _, rfl⟩)
  | [t] => exact ends_pure ⟨refl s, rfl⟩
  | _ :: _ :: _ => exact ends_modify_bind (ends_pure ⟨hreport _, rfl⟩)

theorem recalls_returnType (hagrees : c.Agrees db) (function : Nat) (hs : s.Steady c db) :
    Returns s (returnType c deeper function) fun type t => Keeps (Steady c db) s t ∧
      type ∈ c.returnTypes db function := by
  have hunknown : .unknown ∈ c.returnTypes db function := List.mem_cons_self
  apply ends_get_bind
  split
  case h_1 r hr =>
    refine ends_pure ⟨refl s, ?_⟩
    cases r with
    | inProgress => exact hunknown
    | resolved type => exact hs.returned hr
  case h_2 hnone =>
    cases hbody : c.program.function? function with
    | none => exact ends_pure ⟨refl s, hunknown⟩
    | some body =>
      refine ends_bind (ends_enter _) ?_
      rintro entered t (⟨rfl, _, d, rfl⟩ | ⟨rfl, _, rfl⟩)
      · exact ends_pure ⟨fun hs => ⟨hs.report d, rfl⟩, hunknown⟩
      · have hmarked := hs.markReturn hnone (Table.contains_of_get? hbody)
        refine ends_modify_bind ?_
        have hloop := fun m hm => ends_mapM_forall₂ (R := Keeps (Steady c db))
          (F := (· = .exhausted)) (s := m) (f := returnedType deeper function)
          (P := fun ret type => type ∈ c.returnedTypes db ret)
          fun ret (hret : ret ∈ body.returns) t hmt =>
            recalls_returnedType hdeeper (hmt hm).1 function
              (Program.mem_mentioned hbody (List.mem_append_right _ (List.mem_map_of_mem hret)))
              (hagrees.walks hbody hret)
        refine ends_bind (hloop _ hmarked) ?_
        rintro types t ⟨hmt, htypes⟩
        obtain ⟨ht, hdepth⟩ := hmt hmarked
        refine ends_modify_bind (ends_bind (recalls_commonType c db function types) ?_)
        rintro _ u ⟨htu, rfl⟩
        obtain ⟨hu, hdepth'⟩ := htu ht.leave
        have hcommon : commonOf types ∈ c.returnTypes db function := by
          refine List.mem_cons_of_mem _ (List.mem_flatMap.2 ⟨body, ?_, ?_⟩)
          · rw [hbody]
            exact List.mem_singleton_self _
          · exact List.mem_map_of_mem (mem_sections_of_forall₂ htypes)
        refine ends_modify_bind (ends_pure ⟨fun _ => ⟨hu.settleReturn hcommon, ?_⟩, hcommon⟩)
        show u.depth = s.depth
        rw [hdepth']
        simp [hdepth]

omit hdeeper in
theorem recalls_propagateVariable (var : Variable) (hs : s.Steady c db) :
    Returns s (propagateVariable c deeper var) fun _ t => t = s := by
  unfold propagateVariable
  split
  · exact ends_pure rfl
  · apply ends_get_bind
    simp only [Run.isProvisional_eq_false hs.newTypes, Bool.not_false, Bool.true_or, if_true]
    exact ends_pure rfl

theorem recalls_typeFunction (function : Nat) {slots : List Variable}
    (hslots : ∀ var ∈ slots, var ∈ c.program.mentioned) (hs : s.Steady c db) :
    Returns s (do
      slots.forM fun var => discard (deeper.inferVariable var)
      let _ ← deeper.inferReturn function
      slots.forM deeper.propagate) fun _ t => Keeps (Steady c db) s t := by
  have hvars := ends_forM_move (R := Keeps (Steady c db)) (F := (· = .exhausted)) (s := s)
    (f := fun var => discard (deeper.inferVariable var)) fun var (hvar : var ∈ slots) t hst =>
      ends_map (fun _ => ()) ((hdeeper.inferVariable (hslots var hvar) (hst hs).1).imp
        fun _ _ h => h.1)
  refine ends_bind hvars fun _ t hst => ?_
  refine ends_bind (hdeeper.inferReturn function (hst hs).1) ?_
  rintro _ u ⟨htu, _⟩
  have hpush := ends_forM_move (R := Keeps (Steady c db)) (F := (· = .exhausted)) (s := u)
    (f := deeper.propagate) fun var (_ : var ∈ slots) w huw => by
      refine (hdeeper.propagate var (huw (htu (hst hs).1).1).1).imp ?_
      rintro _ _ rfl
      exact refl _
  exact hpush.imp fun _ w huw => IsTrans.trans _ _ _ hst (IsTrans.trans _ _ _ htu huw)

theorem recalls_visit (function : Nat) (hs : s.Steady c db) :
    Returns s (visit c deeper function) fun _ t => Keeps (Steady c db) s t := by
  unfold visit
  cases hbody : c.program.function? function with
  | none => exact ends_pure (refl s)
  | some body =>
    have hslots : ∀ var ∈ Program.slotsOf function body, var ∈ c.program.mentioned :=
      fun var hvar => Program.mem_mentioned hbody
        (List.mem_append_left _ (List.mem_append_left _ hvar))
    apply ends_get_bind
    split
    · exact ends_pure (refl s)
    case isFalse hfresh =>
      rw [Bool.not_eq_true] at hfresh
      split
      · exact ends_set_bind (ends_pure fun hs =>
          ⟨hs.frame rfl rfl rfl rfl rfl (Nat.le_refl _), rfl⟩)
      · have hdeep := hs.analyse (Table.contains_of_get? hbody) hfresh
        refine ends_set_bind (ends_bind (ends_enter _) ?_)
        rintro entered t (⟨rfl, _, d, rfl⟩ | ⟨rfl, _, rfl⟩)
        · have hvisited : Steady c db
              { s with toRun := s.toRun.report d, analyzed := s.analyzed.add function } :=
            hdeep.frame rfl rfl rfl rfl rfl (Nat.le_succ _)
          have htyped := recalls_typeFunction hdeeper function hslots hvisited
          exact htyped.imp fun _ u htu _ => htu hvisited
        · have hcallees := ends_forM_move (R := Keeps (Steady c db)) (F := (· = .exhausted))
            (s := { s with analyzed := s.analyzed.add function, depth := s.depth + 1 })
            (f := deeper.visitFunction)
            fun callee (_ : callee ∈ c.program.callsFrom function) t hmt =>
              hdeeper.visitFunction callee (hmt hdeep).1
          refine ends_bind hcallees fun _ t hmt => ends_modify_bind ?_
          obtain ⟨ht, hdepth⟩ := hmt hdeep
          have htyped := recalls_typeFunction hdeeper function hslots ht.leave
          refine htyped.imp fun _ u htu _ => ?_
          obtain ⟨hu, hdepth'⟩ := htu ht.leave
          exact ⟨hu, by simp [hdepth', hdepth]⟩

omit hdeeper in
theorem recalls_upTo (hagrees : c.Agrees db) (n : Nat) : (upTo c n).Recalls c db := by
  induction n with
  | zero => exact ⟨fun _ _ _ => rfl, fun _ _ _ => rfl, fun _ _ _ => rfl, fun _ _ _ => rfl⟩
  | succ n ih =>
    exact ⟨fun hvar _ hs => recalls_variableType ih hagrees hvar hs,
      fun function _ hs => recalls_returnType ih hagrees function hs,
      fun var _ hs => recalls_propagateVariable var hs,
      fun function _ hs => recalls_visit ih function hs⟩

end Inference
end TypeRecovery
