import TypeRecovery.Proofs.Progress
import TypeRecovery.Proofs.Turns

/-!
# Trusted declarations

A declaration that reaches a struct is taken for the type of its variable. Inference answers with
it, or with no type at all where the variable is left alone, and propagation never replaces a known
type. So the declaration survives every commit. The one variable that this does not hold for is a
stack slot that is left alone and that something is passed as: it counts as one of unknown type, and
takes over what is passed.
-/
namespace TypeRecovery

namespace Context

variable (c : Context)

/-- A slot on the stack that is no argument, while the pass for those is off. -/
def isSkipped (l : LocalSlot) : Bool := l.isStackLocal && !c.settings.isEnabled .stackVariables

def skips (var : Variable) : Bool := (c.slot? var).any c.isSkipped

/-- Inference gives no type to a slot that is skipped or that its function does not have. -/
def withholds (var : Variable) : Bool :=
  !Inference.isImported c var && !var.isGlobal && (c.slot? var).all c.isSkipped

/-- The type that inference gives a variable whose declaration it trusts. -/
def given (var : Variable) (declared : Ty) : Ty :=
  if c.withholds var then .unknown else declared

variable {c} {var source : Variable}

theorem skips_of_withholds (h : c.withholds var = true) (hadopts : c.Adopts source var) :
    c.skips var = true := by
  obtain ⟨_, _, l, _, _, _, hslot⟩ := hadopts.slot
  simp only [withholds, Bool.and_eq_true, hslot, Option.all_some] at h
  simp only [skips, hslot, Option.any_some]
  exact h.2

end Context

namespace Inference

open Infer

variable {c : Context} {deeper : Inference} {s : Session} {var : Variable} {declared : Ty}

/-- Whether a variable is left alone does not depend on the session, which at most notes it. -/
theorem ends_inferable_iff {F : Fault → Prop} (himport : isImported c var = false) :
    EndsAt F s (inferable c var) fun ready t =>
      (ready = .ok true ↔ c.withholds var = false) ∧
      (t = s ∨ c.withholds var = true ∧ ∃ d, t = { s with toRun := s.toRun.report d }) := by
  unfold inferable
  cases var with
  | global address => exact ends_pure ⟨by simp [Context.withholds, Variable.isGlobal], .inl rfl⟩
  | «local» function slot =>
    dsimp only
    split
    case h_1 hbody =>
      refine ends_pure ⟨?_, .inl rfl⟩
      simp [Context.withholds, Context.slot?, himport, hbody, Variable.isGlobal]
    case h_2 body hbody =>
      split
      case h_1 hslot =>
        refine ends_pure ⟨?_, .inl rfl⟩
        simp [Context.withholds, Context.slot?, himport, hbody, hslot, Variable.isGlobal]
      case h_2 l hslot =>
        have hwithholds : c.withholds (.local function slot) = c.isSkipped l := by
          simp [Context.withholds, Context.slot?, himport, hbody, hslot, Variable.isGlobal]
        rw [hwithholds]
        split
        case isTrue hskip =>
          refine ends_modify_bind (ends_pure ⟨?_, .inr ⟨hskip, _, rfl⟩⟩)
          simp only [Except.ok.injEq, Bool.false_eq_true, false_iff, Bool.not_eq_false]
          exact hskip
        case isFalse hskip =>
          exact ends_pure ⟨by simpa [Context.isSkipped] using hskip, .inl rfl⟩

theorem yields_inferTrusted (hdeclared : TypeStore.declared? s.db var = some declared)
    (hbears : declared.bearsStruct = true) :
    Yields s (inferFresh c deeper var) fun outcome _ =>
      (∀ {type groups}, outcome = .ok (type, groups) → type = c.given var declared) ∧
      ∀ {e}, outcome = .error e → c.given var declared = .unknown := by
  apply ends_get_bind
  simp only [hdeclared, Option.getD_some, Option.filter_some, hbears, if_true]
  split
  case isTrue himport =>
    have hgiven : c.given var declared = declared := by
      simp [Context.given, Context.withholds, himport]
    refine ends_pure ⟨?_, nofun⟩
    rintro _ _ ⟨⟩
    exact hgiven.symm
  case isFalse himport =>
    refine ends_bind (ends_inferable_iff (by simpa using himport)) ?_
    rintro ready t ⟨hready, _⟩
    have hwithheld : ready ≠ .ok true → c.given var declared = .unknown := by
      intro hne
      have hwithholds : c.withholds var = true := by
        cases hw : c.withholds var with
        | true => rfl
        | false => exact absurd (hready.2 hw) hne
      simp [Context.given, hwithholds]
    split
    · exact ends_pure ⟨nofun, fun _ => hwithheld (by nofun)⟩
    · refine ends_pure ⟨?_, nofun⟩
      rintro _ _ ⟨⟩
      exact (hwithheld (by nofun)).symm
    · have hgiven : c.given var declared = declared := by
        simp [Context.given, hready.1 rfl]
      refine ends_pure ⟨?_, nofun⟩
      rintro _ _ ⟨⟩
      exact hgiven.symm

end Inference

namespace Session

/-- The declaration is in force, and no other type was found for the variable. Under a limit of
zero nothing is found at all. -/
structure Faithful (c : Context) (var : Variable) (trusted : Ty) (s : Session) : Prop where
  declared : TypeStore.declared? s.db var = some trusted
  entry : ∀ {t}, s.vars.get? var = some (.resolved t) → t = c.given var trusted
  limit : c.settings.maxDepth = 0 → s.vars = .empty

/-- A session of a kind leads to one of that kind, as deep nested. -/
def Keeps (P : Session → Prop) (s t : Session) : Prop := P s → P t ∧ t.depth = s.depth

abbrev Trusting (c : Context) (var : Variable) (trusted : Ty) : Session → Session → Prop :=
  Keeps (Faithful c var trusted)

variable {c : Context} {var : Variable} {trusted : Ty} {s t : Session} {P : Session → Prop}

instance : Std.Refl (Keeps P) where
  refl _ h := ⟨h, rfl⟩

instance : IsTrans Session (Keeps P) where
  trans := by
    intro s t u hst htu hs
    obtain ⟨ht, hdepth⟩ := hst hs
    obtain ⟨hu, hdepth'⟩ := htu ht
    exact ⟨hu, hdepth'.trans hdepth⟩

theorem keeps_of_moves (h : Relation.ReflTransGen (Keeps P) s t) : Keeps P s t := by
  induction h with
  | refl => exact refl s
  | tail _ hlast ih => exact IsTrans.trans _ _ _ ih hlast

theorem moves_of_yields {α : Type} {x : Infer α} {Q : α → Session → Prop}
    (h : P s → Infer.Yields s x Q) (hQ : ∀ a t, Q a t → Keeps P s t) :
    Infer.Moves (Keeps P) s x := by
  refine Infer.moves_iff.2 fun a t hx => .single fun hs => ?_
  exact hQ a t ((h hs).of_ok hx) hs

theorem yields_of_moves {α : Type} {x : Infer α} (h : Infer.Moves (Keeps P) s x) :
    Infer.Yields s x fun _ t => Keeps P s t :=
  Infer.yields_iff.2 fun _ _ hx => keeps_of_moves (h.reaches hx)

theorem Faithful.frame (h : s.Faithful c var trusted)
    (hdeclared : TypeStore.declared? t.db var = TypeStore.declared? s.db var)
    (hvars : t.vars = s.vars) : t.Faithful c var trusted := by
  constructor
  · rw [hdeclared]
    exact h.declared
  · rw [hvars]
    exact h.entry
  · rw [hvars]
    exact h.limit

theorem Draft.trusting (h : Draft c.settings s t) : Trusting c var trusted s t := by
  intro hs
  cases h with
  | create hcreate =>
    obtain ⟨_, rfl⟩ := Run.createStruct_eq_ok hcreate
    exact ⟨hs.frame rfl rfl, rfl⟩
  | _ => exact ⟨hs.frame rfl rfl, rfl⟩

theorem Faithful.insert (h : s.Faithful c var trusted) (hmax : 0 < c.settings.maxDepth)
    (asked : Variable) {r : Resolution}
    (hr : asked = var → ∀ {t}, r = .resolved t → t = c.given var trusted) :
    Faithful c var trusted { s with vars := s.vars.insert asked r } where
  declared := h.declared
  entry := by
    intro t ht
    rcases Table.eq_or_of_get?_insert ht with ⟨heq, hentry⟩ | ht
    · exact hr heq.symm hentry
    · exact h.entry ht
  limit hzero := absurd hzero (Nat.ne_of_gt hmax)

end Session

namespace Inference

open Infer Session

/-- The four activities keep to the declaration, and the variable itself gets the type given. Types
are propagated only where there is room for inference. -/
structure Trusts (c : Context) (var : Variable) (trusted : Ty) (i : Inference) : Prop where
  inferVariable : ∀ (asked : Variable) {s : Session}, s.Faithful c var trusted →
    Yields s (i.inferVariable asked) fun answer t => Trusting c var trusted s t ∧
      (asked = var → s.vars.get? var ≠ some .inProgress → s.depth < c.settings.maxDepth →
        answer = c.given var trusted)
  inferReturn : ∀ (function : Nat) {s : Session}, s.Faithful c var trusted →
    Yields s (i.inferReturn function) fun _ t => Trusting c var trusted s t
  propagate : ∀ (source : Variable) {s : Session}, s.Faithful c var trusted →
    (0 < c.settings.maxDepth → s.depth < c.settings.maxDepth) →
    Yields s (i.propagate source) fun _ t => Trusting c var trusted s t
  visitFunction : ∀ (function : Nat) {s : Session}, s.Faithful c var trusted →
    Yields s (i.visitFunction function) fun _ t => Trusting c var trusted s t

variable {c : Context} {var : Variable} {trusted : Ty} {deeper : Inference} {s : Session}

variable (hdeeper : deeper.Trusts c var trusted)
include hdeeper

theorem Trusts.types : deeper.Types c (.reaching (Trusting c var trusted)) where
  sketches := Manner.admits_reaching fun h => (Draft.sketch h).trusting
  inferVariable asked _ := moves_of_yields (hdeeper.inferVariable asked) fun _ _ h => h.1
  inferReturn function _ := moves_of_yields (hdeeper.inferReturn function) fun _ _ h => h

theorem Trusts.sketches {α : Type} {x : Infer α} (h : Trails (Session.Sketch c.settings) s x) :
    Yields s x fun _ t => Trusting c var trusted s t :=
  yields_of_moves (hdeeper.types.sketches h)

theorem yields_settleVariable {asked : Variable} {type : Ty} {groups : UseGroups}
    (hmax : 0 < c.settings.maxDepth) (htype : asked = var → type = c.given var trusted) :
    Yields s (settleVariable c deeper asked type groups) fun answer t =>
      Trusting c var trusted s t ∧ answer = type := by
  refine Yields.and (ends_modify_bind ?_) (ends_modify_bind (ends_get_bind ?_))
  · refine (yields_of_moves (moves_mergeGroups hdeeper.types type groups)).imp fun _ t ht hs => ?_
    refine ht (hs.insert hmax asked ?_)
    rintro hasked _ ⟨⟩
    exact htype hasked
  · dsimp only
    split
    · exact ends_bind yields_true fun _ _ _ => ends_bind yields_true fun _ _ _ => ends_pure rfl
    · exact ends_pure rfl

theorem yields_inferFresh (hbears : trusted.bearsStruct = true) (asked : Variable)
    (hs : s.Faithful c var trusted) :
    Yields s (inferFresh c deeper asked) fun outcome t => Trusting c var trusted s t ∧
      (∀ {type groups}, outcome = .ok (type, groups) → asked = var →
        type = c.given var trusted) ∧
      ∀ {e}, outcome = .error e → asked = var → c.given var trusted = .unknown := by
  refine Yields.and (yields_of_moves
    (moves_inferFresh hdeeper.types (Manner.admits_reaching Draft.trusting) asked)) ?_
  by_cases hasked : asked = var
  · subst hasked
    refine (yields_inferTrusted hs.declared hbears).imp ?_
    rintro _ _ ⟨hok, herror⟩
    exact ⟨fun h _ => hok h, fun h _ => herror h⟩
  · exact yields_iff.2 fun _ _ _ => ⟨fun _ h => absurd h hasked, fun _ h => absurd h hasked⟩

theorem yields_variableType (hbears : trusted.bearsStruct = true) (asked : Variable)
    (hs : s.Faithful c var trusted) :
    Yields s (variableType c deeper asked) fun answer t => Trusting c var trusted s t ∧
      (asked = var → s.vars.get? var ≠ some .inProgress → s.depth < c.settings.maxDepth →
        answer = c.given var trusted) := by
  apply ends_get_bind
  split
  case h_1 r hr =>
    refine ends_pure ⟨refl s, ?_⟩
    rintro rfl hopen _
    cases r with
    | inProgress => exact absurd hr hopen
    | resolved t => exact hs.entry hr
  case h_2 hnone =>
    refine ends_bind (ends_enter _) ?_
    rintro entered t (⟨rfl, hmax, d, rfl⟩ | ⟨rfl, hmax, rfl⟩)
    · exact ends_pure ⟨fun hs => ⟨hs.frame rfl rfl, rfl⟩, fun _ _ h => absurd h (by omega)⟩
    · have hpos : 0 < c.settings.maxDepth := by omega
      have hdeep : Faithful c var trusted { s with depth := s.depth + 1 } := hs.frame rfl rfl
      have hmarked := hdeep.insert hpos asked (r := .inProgress) (by rintro _ _ ⟨⟩)
      refine ends_modify_bind (ends_bind (yields_inferFresh hdeeper hbears asked hmarked) ?_)
      rintro outcome t ⟨hmt, hok, herror⟩
      obtain ⟨ht, hdepth⟩ := hmt hmarked
      have hdepth' : t.depth = s.depth + 1 := hdepth
      have hback : Trusting c var trusted s { t with depth := t.depth - 1 } :=
        fun _ => ⟨ht.frame rfl rfl, by simp [hdepth']⟩
      refine ends_modify_bind ?_
      cases outcome with
      | ok found =>
        refine (yields_settleVariable hdeeper hpos (hok rfl)).imp ?_
        rintro _ u ⟨htu, rfl⟩
        exact ⟨IsTrans.trans _ _ _ hback htu, fun hasked _ _ => hok rfl hasked⟩
      | error e =>
        refine ends_modify_bind ?_
        refine (yields_settleVariable hdeeper hpos fun h => (herror rfl h).symm).imp ?_
        rintro _ u ⟨htu, rfl⟩
        refine ⟨?_, fun hasked _ _ => (herror rfl hasked).symm⟩
        intro hs
        obtain ⟨hback, hdepth⟩ := hback hs
        obtain ⟨hu, hdepth'⟩ := htu (hback.frame rfl rfl)
        exact ⟨hu, hdepth'.trans hdepth⟩

theorem yields_returnType (function : Nat) (hs : s.Faithful c var trusted) :
    Yields s (returnType c deeper function) fun _ t => Trusting c var trusted s t := by
  apply ends_get_bind
  split
  · exact ends_pure (refl s)
  · split
    · exact ends_pure (refl s)
    case h_2 body _ =>
      refine ends_bind (ends_enter _) ?_
      rintro entered t (⟨rfl, hmax, d, rfl⟩ | ⟨rfl, hmax, rfl⟩)
      · exact ends_pure fun hs => ⟨hs.frame rfl rfl, rfl⟩
      · refine ends_modify_bind ?_
        have hloop := fun t => moves_mapM (M := .reaching (Trusting c var trusted)) (s := t)
          fun ret (_ : ret ∈ body.returns) u =>
            moves_returnedType (s := u) hdeeper.types function ret
        refine ends_bind (yields_of_moves (hloop _)) fun types t hmt => ends_modify_bind ?_
        obtain ⟨ht, hdepth⟩ := hmt (hs.frame rfl rfl)
        have hdepth' : t.depth = s.depth + 1 := hdepth
        refine ends_bind (hdeeper.sketches (trails_commonType function types)) fun type u htu => ?_
        refine ends_modify_bind (ends_pure fun _ => ?_)
        obtain ⟨hu, hdepth''⟩ := htu (ht.frame rfl rfl)
        refine ⟨hu.frame rfl rfl, ?_⟩
        show u.depth = s.depth
        rw [hdepth'']
        simp [hdepth']

theorem yields_adopting {param : Variable} (hparam : param ≠ var) (type : Ty) (function : Nat)
    (uses : Uses) (hs : s.Faithful c var trusted) (hdepth : s.depth < c.settings.maxDepth) :
    Yields s (do
      modify fun s => { s with diagnostics :=
        Diagnostic.retractUnknown param.text s.diagnostics }
      Infer.resolve param (.resolved type)
      deeper.propagate param
      Infer.addUses (← resolveUses c deeper function uses) type)
      fun _ t => Trusting c var trusted s t := by
  have hretracted : Faithful c var trusted { s with
      diagnostics := Diagnostic.retractUnknown param.text s.diagnostics } := hs.frame rfl rfl
  have hadopted := hretracted.insert (by omega) param (r := .resolved type)
    fun heq => absurd heq hparam
  refine ends_modify_bind (ends_modify_bind ?_)
  refine ends_bind (hdeeper.propagate param hadopted fun _ => hdepth) fun _ t hst => ?_
  obtain ⟨ht, htdepth⟩ := hst hadopted
  have hmove : Trusting c var trusted s t := fun _ => ⟨ht, htdepth⟩
  have huses := moves_resolveUses hdeeper.types (s := t) function uses
  refine ends_bind (yields_of_moves huses) fun resolved u htu => ?_
  refine (hdeeper.sketches (trails_addUses resolved type)).imp fun _ w huw => ?_
  exact IsTrans.trans _ _ _ hmove (IsTrans.trans _ _ _ htu huw)

omit hdeeper in
/-- A variable that is passed something and gets no type is skipped. -/
theorem not_unknown_of_adopts (hbears : trusted.bearsStruct = true)
    (hkept : ∀ source, c.Adopts source var → c.skips var = false) {source : Variable}
    (hadopts : c.Adopts source var) : c.given var trusted ≠ .unknown := by
  intro hunknown
  have hwithholds : c.withholds var = true := by
    by_contra hgiven
    rw [Context.given, if_neg hgiven] at hunknown
    rw [hunknown] at hbears
    cases hbears
  have hskips := Context.skips_of_withholds hwithholds hadopts
  rw [hkept source hadopts] at hskips
  cases hskips

theorem yields_propagateInto (hbears : trusted.bearsStruct = true)
    (hkept : ∀ source, c.Adopts source var → c.skips var = false) {source : Variable} {type : Ty}
    {k : Cast} (henabled : c.settings.isEnabled .crossCallPropagation = true)
    (hk : k ∈ wholeCasts c source) (hs : s.Faithful c var trusted)
    (hdepth : s.depth < c.settings.maxDepth) :
    Yields s (propagateInto c deeper type k) fun _ t => Trusting c var trusted s t := by
  refine ends_bind ((ends_callee? c k.call).yields.and (yields_callee? k.call)) ?_
  rintro callee _ ⟨rfl, hcallee⟩
  cases callee with
  | none => exact ends_pure (refl _)
  | some callee =>
    dsimp only
    split
    · exact ends_pure (refl _)
    case isFalse himport =>
      split
      · exact ends_pure (refl _)
      case h_2 body hbody =>
        split
        · exact ends_pure (refl _)
        case isFalse hslot =>
          apply ends_get_bind
          split
          · exact ends_pure (refl _)
          case isFalse hopen =>
            refine ends_bind (hdeeper.inferVariable _ hs) ?_
            rintro current t ⟨hst, hanswer⟩
            obtain ⟨ht, htdepth⟩ := hst hs
            split
            · refine (hdeeper.sketches (s := t) ?_).imp fun _ u htu => IsTrans.trans _ _ _ hst htu
              split
              · apply moves_get_bind
                refine trails_lift_bind (TypeStore.stops_render _ _) fun text _ => ?_
                refine trails_lift_bind (TypeStore.stops_render _ _) fun text' _ => ?_
                exact trails_report_pure (by nofun) (.of_kind (by nofun)) _
              · exact moves_pure _
            case isFalse hcurrent =>
              split
              · exact ends_pure hst
              case isFalse hassigns =>
                have hadopts : c.Adopts source (.local callee k.argIndex) :=
                  ⟨henabled, ⟨k, hk, rfl, hcallee _ rfl⟩, by simpa using himport, body, hbody,
                    Nat.lt_of_not_le hslot, by simpa using hassigns⟩
                have hother : Variable.local callee k.argIndex ≠ var := by
                  intro heq
                  have hanswer := hanswer heq (heq ▸ hopen) hdepth
                  rw [Ty.eq_unknown_of_not_isKnown hcurrent] at hanswer
                  exact not_unknown_of_adopts hbears hkept (heq ▸ hadopts) hanswer.symm
                refine (yields_adopting hdeeper hother type callee _ ht (htdepth ▸ hdepth)).imp ?_
                intro _ u htu
                exact IsTrans.trans _ _ _ hst htu

theorem yields_propagateVariable (hbears : trusted.bearsStruct = true)
    (hkept : ∀ source, c.Adopts source var → c.skips var = false) (source : Variable)
    (hs : s.Faithful c var trusted)
    (hdepth : 0 < c.settings.maxDepth → s.depth < c.settings.maxDepth) :
    Yields s (propagateVariable c deeper source) fun _ t => Trusting c var trusted s t := by
  unfold propagateVariable
  split
  · exact ends_pure (refl s)
  case isFalse henabled =>
    apply ends_get_bind
    dsimp only
    split
    · exact ends_pure (refl s)
    case isFalse hfresh =>
      simp only [Bool.or_eq_true, Bool.not_eq_true', not_or, Bool.not_eq_false] at hfresh
      have hentry := entry_of_isProvisional hfresh.1
      have hpos : 0 < c.settings.maxDepth := by
        by_contra hzero
        rw [hs.limit (by omega)] at hentry
        cases hentry
      refine ends_set_bind ?_
      have hmark : Trusting c var trusted s { s with propagated := s.propagated.add source } :=
        fun hs => ⟨hs.frame rfl rfl, rfl⟩
      have hloop := ends_forM_move (R := Trusting c var trusted) (F := fun _ => True)
        (s := { s with propagated := s.propagated.add source })
        (f := propagateInto c deeper (s.varType source))
        fun k (hk : k ∈ wholeCasts c source) t hmt => by
          obtain ⟨ht, htdepth⟩ := hmt (hs.frame rfl rfl)
          exact yields_propagateInto hdeeper hbears hkept (by simpa using henabled) hk ht
            (htdepth ▸ hdepth hpos)
      exact hloop.imp fun _ t hmt => IsTrans.trans _ _ _ hmark hmt

theorem yields_typeFunction (function : Nat) (slots : List Variable)
    (hs : s.Faithful c var trusted)
    (hdepth : 0 < c.settings.maxDepth → s.depth < c.settings.maxDepth) :
    Yields s (do
      slots.forM fun var => discard (deeper.inferVariable var)
      let _ ← deeper.inferReturn function
      slots.forM deeper.propagate) fun _ t => Trusting c var trusted s t := by
  have hvars := yields_of_moves (moves_forM (s := s) fun asked (_ : asked ∈ slots) t =>
    moves_map (s := t) (fun _ => ()) (hdeeper.types.inferVariable asked t))
  refine ends_bind hvars fun _ t hst => ?_
  obtain ⟨ht, htdepth⟩ := hst hs
  refine ends_bind (hdeeper.inferReturn function ht) fun _ u htu => ?_
  obtain ⟨hu, hudepth⟩ := htu ht
  have hpush := ends_forM_move (R := Trusting c var trusted) (F := fun _ => True) (s := u)
    (f := deeper.propagate) fun source (_ : source ∈ slots) w huw => by
      obtain ⟨hw, hwdepth⟩ := huw hu
      refine hdeeper.propagate source hw ?_
      rw [hwdepth, hudepth, htdepth]
      exact hdepth
  exact hpush.imp fun _ w huw => IsTrans.trans _ _ _ hst (IsTrans.trans _ _ _ htu huw)

theorem yields_visit (function : Nat) (hs : s.Faithful c var trusted) :
    Yields s (visit c deeper function) fun _ t => Trusting c var trusted s t := by
  unfold visit
  split
  · exact ends_pure (refl s)
  case h_2 body _ =>
    apply ends_get_bind
    split
    · exact ends_pure (refl s)
    · split
      · exact ends_set_bind (ends_pure fun hs => ⟨hs.frame rfl rfl, rfl⟩)
      case isFalse hshallow =>
        have hdepth : 0 < c.settings.maxDepth → s.depth < c.settings.maxDepth := by
          intro hpos
          by_contra hdeep
          exact hshallow ⟨by omega, by omega⟩
        refine ends_set_bind (ends_bind (ends_enter _) ?_)
        rintro entered t (⟨rfl, _, d, rfl⟩ | ⟨rfl, _, rfl⟩)
        · have htyped := yields_typeFunction hdeeper function (Program.slotsOf function body)
            (s := { s with toRun := s.toRun.report d, analyzed := s.analyzed.add function })
            (hs.frame rfl rfl) hdepth
          exact htyped.imp fun _ u htu hs => htu (hs.frame rfl rfl)
        · have hcallees := ends_forM_move (R := Trusting c var trusted) (F := fun _ => True)
            (s := { s with analyzed := s.analyzed.add function, depth := s.depth + 1 })
            (f := deeper.visitFunction)
            fun callee (_ : callee ∈ c.program.callsFrom function) t hmt =>
              hdeeper.visitFunction callee (hmt (hs.frame rfl rfl)).1
          refine ends_bind hcallees fun _ t hmt => ends_modify_bind ?_
          obtain ⟨ht, htdepth⟩ := hmt (hs.frame rfl rfl)
          have htdepth' : t.depth - 1 = s.depth := by simp [htdepth]
          have htyped := yields_typeFunction hdeeper function (Program.slotsOf function body)
            (s := { t with depth := t.depth - 1 }) (ht.frame rfl rfl)
            (by rw [htdepth']; exact hdepth)
          refine htyped.imp fun _ u htu _ => ?_
          obtain ⟨hu, hudepth⟩ := htu (ht.frame rfl rfl)
          exact ⟨hu, hudepth.trans htdepth'⟩

omit hdeeper in
theorem trusts_upTo (hbears : trusted.bearsStruct = true)
    (hkept : ∀ source, c.Adopts source var → c.skips var = false) (n : Nat) :
    (upTo c n).Trusts c var trusted := by
  induction n with
  | zero => exact ⟨fun _ _ _ => trivial, fun _ _ _ => trivial, fun _ _ _ _ => trivial,
      fun _ _ _ => trivial⟩
  | succ n ih =>
    exact ⟨fun asked _ hs => yields_variableType ih hbears asked hs,
      fun function _ hs => yields_returnType ih function hs,
      fun source _ hs hdepth => yields_propagateVariable ih hbears hkept source hs hdepth,
      fun function _ hs => yields_visit ih function hs⟩

end Inference

namespace Infer

open Session

section Keeping

/-! A kind of sessions that does not depend on what was put off lasts through an analysis if it
lasts through the visit to a function. -/

variable {c : Context} {P : Session → Prop} {F : Fault → Prop} {s : Session} (hF : F .exhausted)
  (hpop : ∀ {s : Session} {rest : KeySet Nat}, P s → P { s with deferred := rest })
  (hvisit : ∀ (function : Nat) {s : Session}, P s →
    EndsAt F s ((Inference.ofContext c).visitFunction function) fun _ t => Keeps P s t)
include hF hpop hvisit

theorem drainDeferred_keeps (fuel : Nat) (hs : P s) :
    EndsAt F s (drainDeferred c fuel) fun _ t => Keeps P s t := by
  induction fuel generalizing s with
  | zero => exact hF
  | succ fuel ih =>
    apply ends_get_bind
    split
    · exact ends_pure (refl s)
    case h_2 function rest _ =>
      refine ends_modify_bind (ends_bind (hvisit function (hpop hs)) ?_)
      intro _ t hpt
      obtain ⟨ht, hdepth⟩ := hpt (hpop hs)
      refine (ih ht).imp fun _ u htu _ => ?_
      obtain ⟨hu, hdepth'⟩ := htu ht
      exact ⟨hu, hdepth'.trans hdepth⟩

theorem analyzeFunction_keeps (function : Nat) (hs : P s) :
    EndsAt F s (analyzeFunction c function) fun _ t => Keeps P s t := by
  refine ends_bind (hvisit function hs) fun _ t hst => ends_get_bind ?_
  split
  · refine (drainDeferred_keeps hF hpop hvisit _ (hst hs).1).imp fun _ u htu => ?_
    exact IsTrans.trans _ _ _ hst htu
  · exact ends_pure hst

end Keeping

variable {c : Context} {var : Variable} {trusted : Ty} {s : Session}
  (hengine : (Inference.ofContext c).Trusts c var trusted)
include hengine

theorem yields_analyzeFunction (function : Nat) (hs : s.Faithful c var trusted) :
    Yields s (analyzeFunction c function) fun _ t => Trusting c var trusted s t :=
  analyzeFunction_keeps trivial (fun hs => hs.frame rfl rfl) hengine.visitFunction function hs

theorem yields_propagateTracked (hs : s.Faithful c var trusted) (hdepth : s.depth = 0) :
    Yields s (propagateTracked c) fun _ t => Trusting c var trusted s t := by
  refine ends_get_bind (ends_forM_move fun source _ t hst => ?_)
  obtain ⟨ht, htdepth⟩ := hst hs
  refine hengine.propagate source ht fun hpos => ?_
  rw [htdepth, hdepth]
  exact hpos

end Infer

namespace Session

variable {c : Context} {var : Variable} {trusted : Ty} {s t : Session}

theorem Unwritten.declared?_eq (h : s.Unwritten) (var : Variable) :
    TypeStore.declared? s.db var = s.db.inner.declared.get? var := by
  simp only [TypeStore.declared?, h.declared]
  rfl

theorem faithful_start {db : Database} (h : db.declared.get? var = some trusted) :
    (start db).Faithful c var trusted where
  declared := h
  entry := nofun
  limit _ := rfl

theorem Faithful.commit (h : s.Faithful c var trusted) (hs : s.Unwritten)
    {edges : List CallEdge} {answer : Except Refusal Summary}
    (hcommit : (Infer.commit edges).run.run s = .ok (answer, t)) : t.Faithful c var trusted := by
  obtain ⟨rfl, _⟩ := hs.of_commit_eq_ok hcommit
  apply faithful_start
  have hinner : s.db.inner.declared.get? var = some trusted :=
    (hs.declared?_eq var).symm.trans h.declared
  rw [committed_declared, hinner]
  cases hnew : s.declarations.get? var with
  | none => rfl
  | some type =>
    rw [get?_declarations, Option.filter_eq_some_iff] at hnew
    obtain ⟨hentry, hknown⟩ := known_of_knownTypes hnew.1
    have hgiven := h.entry hentry
    unfold Context.given at hgiven
    split at hgiven
    · rw [hgiven] at hknown
      cases hknown
    · rw [hgiven]
      rfl

end Session

namespace Operation

open Infer Session

variable {c : Context} {var : Variable} {trusted : Ty} {s t : Session}

theorem yields_replying {α : Type} {x : Infer α} (f : α → Reply)
    (hx : Yields s x fun _ t => Trusting c var trusted s t) :
    Yields s (x >>= fun a => pure (f a) : Infer Reply) fun _ t => Trusting c var trusted s t :=
  ends_bind hx fun _ _ ht => ends_pure ht

section Engine

variable (hengine : (Inference.ofContext c).Trusts c var trusted)
include hengine

theorem yields_perform {op : Operation} (happly : op ≠ .apply) (hclear : op ≠ .clear)
    (hs : s.Faithful c var trusted) (hdepth : s.depth = 0) :
    Yields s (op.perform c) fun _ t => Trusting c var trusted s t := by
  cases op with
  | visit function => exact yields_replying _ (yields_analyzeFunction hengine function hs)
  | visitAll =>
    refine yields_replying _ (ends_forM_move fun function _ t hst => ?_)
    exact yields_analyzeFunction hengine function (hst hs).1
  | typeVariable var =>
    exact yields_replying .type ((hengine.inferVariable var hs).imp fun _ _ h => h.1)
  | typeExpr function e =>
    exact yields_replying .type
      (yields_of_moves (Inference.moves_exprType hengine.types function e))
  | typeReturn function => exact yields_replying .type (hengine.inferReturn function hs)
  | propagate source =>
    refine yields_replying _ (hengine.propagate source hs fun hpos => ?_)
    rw [hdepth]
    exact hpos
  | typeByUses var uses =>
    exact yields_replying .type
      (yields_of_moves ((trails_typeByUses var uses).mono Draft.trusting).moves)
  | addMemberType id offset type =>
    exact yields_replying _ (hengine.sketches (trails_addMemberType id offset type))
  | createStruct => exact yields_replying .struct (hengine.sketches trails_createStruct)
  | indirectTarget call =>
    exact yields_replying .target
      (yields_of_moves ((trails_indirectTarget call).mono fun h => h.draft.trusting).moves)
  | takeDiagnostics =>
    refine yields_replying .diagnostics (ends_get_bind (ends_set_bind (ends_pure ?_)))
    exact fun hs => ⟨hs.frame rfl rfl, rfl⟩
  | apply => exact absurd rfl happly
  | clear => exact absurd rfl hclear

theorem faithful_of_apply (hs : s.Faithful c var trusted) (hunwritten : s.Unwritten)
    (hdepth : s.depth = 0) {answer : Except Refusal Summary}
    (h : (Infer.apply c).run.run s = .ok (answer, t)) :
    t.Faithful c var trusted ∧ t.depth = 0 := by
  rw [run_apply] at h
  obtain ⟨⟨_, found⟩, hfound, h⟩ := Checked.bind_eq_ok.1 h
  obtain ⟨⟨edges, later⟩, hlater, hcommit⟩ := Checked.bind_eq_ok.1 h
  have hpushed := leads_of_moves (trails_propagateTracked.reaches hfound)
  obtain ⟨hfaithful, _⟩ := (yields_propagateTracked hengine hs hdepth).of_ok hfound hs
  obtain ⟨ds, _, hnotes⟩ := resolveCalls_eq_ok hlater
  have hlast : later.Unwritten := by
    rw [hnotes]
    exact (hunwritten.leads hpushed).frame rfl rfl
  have hfaithful' : later.Faithful c var trusted := by
    rw [hnotes]
    exact hfaithful.frame rfl rfl
  obtain ⟨hstart, _⟩ := hlast.of_commit_eq_ok hcommit
  exact ⟨hfaithful'.commit hlast hcommit, by rw [hstart]; rfl⟩

theorem faithful_of_perform {op : Operation} {reply : Reply} (hs : s.Faithful c var trusted)
    (hunwritten : s.Unwritten) (hdepth : s.depth = 0)
    (h : (op.perform c).run s = .ok (reply, t)) : t.Faithful c var trusted ∧ t.depth = 0 := by
  by_cases happly : op = .apply
  · subst happly
    obtain ⟨⟨answer, u⟩, hrun, hreply⟩ := Checked.bind_eq_ok.1 h
    cases hreply
    exact faithful_of_apply hengine hs hunwritten hdepth hrun
  by_cases hclear : op = .clear
  · subst hclear
    cases h
    exact ⟨faithful_start ((hunwritten.declared?_eq var).symm.trans hs.declared), rfl⟩
  · obtain ⟨ht, htdepth⟩ := (yields_perform hengine happly hclear hs hdepth).of_ok h hs
    exact ⟨ht, htdepth.trans hdepth⟩

theorem faithful_of_performAll {ops : List Operation} {replies : List Reply}
    (hs : s.Faithful c var trusted) (hunwritten : s.Unwritten) (hdepth : s.depth = 0)
    (h : (performAll c ops).run s = .ok (replies, t)) : t.Faithful c var trusted := by
  induction ops generalizing s replies with
  | nil =>
    cases h
    exact hs
  | cons op rest ih =>
    obtain ⟨reply, u, _, hop, hrest, _⟩ := performAll_cons_eq_ok.1 h
    obtain ⟨hu, hudepth⟩ := faithful_of_perform hengine hs hunwritten hdepth hop
    exact ih hu (hunwritten.leads ((trails_turns _).reaches hop)) hudepth hrest

end Engine

/-- A declared type that reaches a struct stays the declared type of its variable, whatever is
done with a session, unless the variable is a stack slot that is skipped and that something is
passed as. -/
theorem trusted_declarations_last (c : Context) (db : Database) (ops : List Operation)
    (replies : List Reply) (s : Session)
    (hs : (performAll c ops).run (Session.start db) = .ok (replies, s))
    (var : Variable) (type : Ty) (hdeclared : db.declared.get? var = some type)
    (hbears : type.bearsStruct = true)
    (hkept : ∀ source, c.Adopts source var → c.skips var = false) :
    s.db.inner.declared.get? var = some type := by
  have hengine := Inference.trusts_upTo hbears hkept (2 * (c.program.weight + 2))
  have hstart := unwritten_start db
  have hfaithful := faithful_of_performAll hengine (faithful_start hdeclared) hstart rfl hs
  have hunwritten := hstart.leads (leads_of_performAll hs)
  exact (hunwritten.declared?_eq var).symm.trans hfaithful.declared

/-- A pointer to a struct of the run is passed, twice, as a parameter that is declared as a pointer
to another. -/
theorem trusted_declarations_last_passed :
    let p : Variable := .local 4096 0
    let q : Variable := .local 8192 0
    let call : Call := { address := 4112, target := .explicit 8192 }
    let again : Call := { address := 4128, target := .explicit 8192 }
    let c : Context := {
      program := ((Program.addFunction {} {
        address := 4096
        locals := [{ name := "p", isArg := true }]
        writes := [
          { var := p, chain := [.deref], value := .num 1 4 },
          { var := p, chain := [.add 8, .deref], value := .num 2 4 }]
        casts := [{ var := p, chain := [], argIndex := 0, call },
          { var := p, chain := [], argIndex := 0, call := again }]
        calls := [call, again] }).addFunction {
        address := 8192
        locals := [{ name := "q", isArg := true }] })
      settings := {} }
    let db : Database := {
      structs := .ofList [(⟨0⟩, { id := ⟨0⟩, name := "node", size := 8 })]
      declared := .ofList [(q, .structPointer ⟨0⟩)]
      nextId := 1 }
    c.Adopts p q ∧ ∃ replies s,
      (performAll c [.visitAll, .apply]).run (Session.start db) = .ok (replies, s) ∧
      s.db.inner.declared.get? p = some (.structPointer ⟨1⟩) ∧
      s.db.inner.declared.get? q = some (.structPointer ⟨0⟩) := by
  intro p q call again c db
  have hadopts : c.Adopts p q :=
    ⟨rfl, ⟨{ var := p, chain := [], argIndex := 0, call }, .head _, rfl, by decide⟩, rfl, _, rfl,
      by decide, rfl⟩
  have heval : (do
      let found ← (performAll c [.visitAll, .apply]).run (Session.start db)
      pure (found.2.db.inner.declared.get? p)) = (.ok (some (.structPointer ⟨1⟩)) : Checked _) := by
    decide +kernel
  obtain ⟨⟨replies, s⟩, hs, heval⟩ := Checked.bind_eq_ok.1 heval
  rw [Checked.pure_eq_ok] at heval
  have hq := trusted_declarations_last c db _ replies s hs q _ rfl rfl fun _ _ => rfl
  exact ⟨hadopts, replies, s, hs, heval, hq⟩

/-- A stack slot that is skipped loses its declaration to what is passed as it: the call has one
argument more than the function has parameters, and it meets the slot after them. -/
theorem skipped_declaration_replaced :
    let p : Variable := .local 4096 0
    let buffer : Variable := .local 8192 1
    let call : Call := { address := 4112, target := .explicit 8192 }
    let c : Context := {
      program := ((Program.addFunction {} {
        address := 4096
        locals := [{ name := "p", isArg := true }]
        writes := [
          { var := p, chain := [.deref], value := .num 1 4 },
          { var := p, chain := [.add 8, .deref], value := .num 2 4 }]
        casts := [{ var := p, chain := [], argIndex := 1, call }]
        calls := [call] }).addFunction {
        address := 8192
        locals := [{ name := "n", isArg := true }, { name := "buf", isStack := true }] })
      settings := {} }
    let db : Database := {
      structs := .ofList [(⟨0⟩, { id := ⟨0⟩, name := "node", size := 8 })]
      declared := .ofList [(buffer, .structPointer ⟨0⟩)]
      nextId := 1 }
    ∃ replies s, (performAll c [.visit 4096, .apply]).run (Session.start db) = .ok (replies, s) ∧
      s.db.inner.declared.get? buffer = some (.structPointer ⟨1⟩) := by
  intro p buffer call c db
  have heval : (do
      let found ← (performAll c [.visit 4096, .apply]).run (Session.start db)
      pure (found.2.db.inner.declared.get? buffer)) =
      (.ok (some (.structPointer ⟨1⟩)) : Checked _) := by
    decide +kernel
  obtain ⟨⟨replies, s⟩, hs, heval⟩ := Checked.bind_eq_ok.1 heval
  rw [Checked.pure_eq_ok] at heval
  exact ⟨replies, s, hs, heval⟩

end Operation
end TypeRecovery
