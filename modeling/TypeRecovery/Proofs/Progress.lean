import TypeRecovery.Proofs.Budgets

/-!
# Enough levels for every program

An activity of the engine marks what it works on before it asks for anything else. What is left to
mark bounds the levels below that it can need: `Inference.Ends` states this for each of the four
activities, together with what the activity achieves.
-/
namespace TypeRecovery

namespace Inference

open Infer Session

/-- The type of a variable is inferred. Past the limit on nested inference there is no entry. -/
structure Typed (c : Context) (s : Session) (var : Variable) (type : Ty) (t : Session) : Prop where
  infers : Infers c s t
  answer : t.varType var = type
  entry : s.depth < c.settings.maxDepth → t.vars.contains var = true

/-- A variable is propagated. -/
structure Propagated (c : Context) (s : Session) (var : Variable) (t : Session) : Prop where
  propagates : Propagates c s t
  marked : c.settings.isEnabled .crossCallPropagation = true →
    s.isProvisional (s.varType var) = true → t.propagated.contains var = true

/-- A function is visited. -/
structure Visited (c : Context) (s : Session) (function : Nat) (t : Session) : Prop where
  visits : Visits c s t
  reached : c.program.hasBody function → t.Reached function
  outermost : s.depth = 0 → c.program.hasBody function → t.analyzed.contains function = true
  again : s.analyzed.contains function = true → t = s

/-- What the activities of a level achieve while less than `n` is left to work on. -/
structure Ends (c : Context) (n : Nat) (i : Inference) : Prop where
  inferVariable : ∀ (var : Variable) {s : Session}, s.unmarked c + c.program.surplus var < n →
    Infer.Ends s (i.inferVariable var) (Typed c s var)
  inferReturn : ∀ (function : Nat) {s : Session}, s.unmarked c < n →
    Infer.Ends s (i.inferReturn function) fun _ t => Infers c s t ∧
      (s.depth < c.settings.maxDepth → c.program.hasBody function →
        t.returns.contains function = true)
  propagate : ∀ (var : Variable) {s : Session},
    s.unpropagated c + s.unmarked c + (if var ∈ c.program.slots then 1 else 2) < n →
    Infer.Ends s (i.propagate var) fun _ t => Propagated c s var t
  visitFunction : ∀ (function : Nat) {s : Session},
    s.unvisited c + s.unpropagated c + s.unmarked c + 1 < n →
    Infer.Ends s (i.visitFunction function) fun _ t => Visited c s function t

/-- The values written are of types of variables that the program mentions, if of any. -/
def Named (c : Context) (function : Nat) (ws : List Write) : Prop :=
  ∀ w ∈ ws, ∀ {var}, w.value.source? function = some var → var ∈ c.program.mentioned

theorem named_of_usesOf {c : Context} {function : Nat} {body : FunctionBody}
    (hbody : c.program.function? function = some body) (var : Variable) :
    Named c function (body.usesOf var).writes := by
  intro w hw source hsource
  refine Program.mem_mentioned hbody ?_
  have hmem : source ∈ body.writes.filterMap (·.value.source? function) :=
    List.mem_filterMap.2 ⟨w, (List.mem_filter.1 hw).1, hsource⟩
  simp [Program.mentionedBy, hmem]

variable {c : Context} {n : Nat} {deeper : Inference} {s : Session} (hdeeper : deeper.Ends c n)
include hdeeper

theorem Ends.inferMentioned {var : Variable} (hvar : var ∈ c.program.mentioned)
    (hs : s.unmarked c < n) : Infer.Ends s (deeper.inferVariable var) (Typed c s var) :=
  hdeeper.inferVariable var (by rwa [Program.surplus_of_mem hvar])

theorem ends_globalValue {address : Nat}
    (hs : s.unmarked c + c.program.surplus (.global address) < n) :
    Infer.Ends s (globalValue deeper address) fun _ t => Infers c s t := by
  refine ends_bind (hdeeper.inferVariable _ hs) fun type t ht => ?_
  split
  · exact ends_pure ht.infers
  · apply ends_get_bind
    split <;> exact ends_pure ht.infers

theorem ends_bareType {function : Nat} {e : Expr} {x : Infer Ty} (hs : s.unmarked c < n)
    (hsource : ∀ {var}, e.source? function = some var →
      s.unmarked c + c.program.surplus var < n)
    (h : bareType c deeper function e.stripCasts = some x) :
    Infer.Ends s x fun _ t => Infers c s t := by
  unfold bareType at h
  split at h
  case h_1 index heq =>
    cases h
    have hslot : e.source? function = some (.local function index) := by simp [Expr.source?, heq]
    exact (hdeeper.inferVariable _ (hsource hslot)).imp fun _ _ ht => ht.infers
  case h_2 callee _ heq =>
    split at h
    · split at h
      · cases h
        exact (hdeeper.inferReturn _ hs).imp fun _ _ h => h.1
      · cases h
    · cases h
  case h_3 =>
    cases h
    exact ends_pure (refl s)
  case h_4 address heq =>
    split at h
    · cases h
    · cases h
      have hglobal : e.source? function = some (.global address) := by simp [Expr.source?, heq]
      exact ends_globalValue hdeeper (hsource hglobal)
  case h_5 inner heq =>
    split at h
    case h_1 address hinner =>
      split at h
      · cases h
      · cases h
        have hglobal : e.source? function = some (.global address) := by
          simp [Expr.source?, heq, hinner]
        exact ends_bind (hdeeper.inferVariable _ (hsource hglobal)) fun _ t ht =>
          ends_pure ht.infers
    · cases h
  case h_6 => cases h

theorem ends_exprType {function : Nat} {e : Expr} (hs : s.unmarked c < n)
    (hsource : ∀ {var}, e.source? function = some var →
      s.unmarked c + c.program.surplus var < n) :
    Infer.Ends s (exprType c deeper function e) fun _ t => Infers c s t := by
  unfold exprType
  split
  · exact ends_pure (refl s)
  · cases hbare : bareType c deeper function e.stripCasts with
    | some x => exact ends_bareType hdeeper hs hsource hbare
    | none =>
      refine ends_lift_bind e.stops_text fun text _ => ?_
      exact ends_bind (ends_report _) fun _ t ht => ends_pure ht.advance

theorem ends_argType (k : Cast) (hs : s.unmarked c < n) :
    Infer.Ends s (argType c deeper k) fun _ t => Infers c s t := by
  refine ends_bind (ends_callee? c k.call) ?_
  rintro callee s rfl
  cases callee with
  | none => exact ends_pure (refl _)
  | some callee =>
    dsimp only
    split
    · exact ends_get_bind (ends_pure (refl _))
    · split
      · exact ends_pure (refl _)
      case h_2 body hbody =>
        split
        case isTrue hslot =>
          have hmem := Program.mem_mentioned_of_mem_slots (Program.mem_slots hbody hslot)
          exact (hdeeper.inferMentioned hmem hs).imp fun _ _ ht => ht.infers
        case isFalse => exact ends_pure (refl _)

theorem ends_resolveWrites {function : Nat} {ws : List Write} (hws : Named c function ws)
    (hs : s.unmarked c < n) :
    Infer.Ends s (ws.mapM (resolveWrite c deeper function)) fun ws' t =>
      Infers c s t ∧ Named c function ws' := by
  refine ends_mapM fun w hw t hst => ?_
  have ht : t.unmarked c < n := hst.unmarked_lt hs
  refine ends_bind (ends_exprType hdeeper ht fun hsource => ?_) fun type u htu => ?_
  · rwa [Program.surplus_of_mem (hws w hw hsource)]
  · exact ends_pure ⟨htu, hws w hw⟩

theorem ends_resolveCasts (ks : List Cast) (hs : s.unmarked c < n) :
    Infer.Ends s (ks.mapM (resolveCast c deeper)) fun _ t => Infers c s t :=
  ends_mapM_move fun k _ _ hst =>
    ends_bind (ends_argType hdeeper k (hst.unmarked_lt hs)) fun _ _ htu => ends_pure htu

theorem ends_resolveUses {function : Nat} {uses : Uses} (huses : Named c function uses.writes)
    (hs : s.unmarked c < n) :
    Infer.Ends s (resolveUses c deeper function uses) fun uses' t =>
      Infers c s t ∧ Named c function uses'.writes := by
  refine ends_bind (ends_resolveWrites hdeeper huses hs) ?_
  rintro writes t ⟨hst, hwrites⟩
  refine ends_bind (ends_resolveCasts hdeeper _ (hst.unmarked_lt hs)) ?_
  intro casts u htu
  exact ends_pure ⟨hst.trans htu, hwrites⟩

theorem ends_collectFrom (var : Variable) (functions : List Nat) (hs : s.unmarked c < n) :
    Infer.Ends s (collectFrom c deeper var functions) fun groups t =>
      Infers c s t ∧ ∀ g ∈ groups, Named c g.1 g.2.writes := by
  induction functions generalizing s with
  | nil => exact ends_pure ⟨refl s, nofun⟩
  | cons function rest ih =>
    unfold collectFrom
    split
    · exact ih hs
    case h_2 body hbody =>
      dsimp only
      split
      · exact ih hs
      · refine ends_bind (ends_resolveUses hdeeper (named_of_usesOf hbody var) hs) ?_
        rintro uses t ⟨hst, huses⟩
        refine ends_bind (ih (hst.unmarked_lt hs)) ?_
        rintro groups u ⟨htu, hgroups⟩
        refine ends_pure ⟨hst.trans htu, ?_⟩
        intro g hg
        rcases List.mem_cons.1 hg with rfl | hg
        · exact huses
        · exact hgroups g hg

theorem ends_mergeDeferred (type : Ty) {group : Nat × Uses}
    (hgroup : Named c group.1 group.2.writes) (hs : s.unmarked c < n) :
    Infer.Ends s (mergeDeferred c deeper type group) fun _ t => Infers c s t := by
  have hdeferred : Infer.Ends s (deferredUses c deeper group.1 group.2) fun _ t =>
      Infers c s t := by
    refine ends_bind (ends_resolveWrites hdeeper ?_ hs) ?_
    · intro w hw
      exact hgroup w (List.mem_filter.1 hw).1
    rintro writes t ⟨hst, _⟩
    exact ends_bind (ends_resolveCasts hdeeper _ (hst.unmarked_lt hs)) fun _ u htu =>
      ends_pure (hst.trans htu)
  refine ends_bind hdeferred fun uses t hst => ?_
  split
  · exact (ends_addUses uses type).imp fun _ u htu => hst.trans htu.advance
  · exact ends_pure hst

omit hdeeper in
theorem ends_enter {F : Fault → Prop} (subject : String) :
    EndsAt F s (enter c.settings subject) fun entered t =>
      entered = false ∧ c.settings.maxDepth ≤ s.depth ∧
        (∃ d, t = { s with toRun := s.toRun.report d }) ∨
      entered = true ∧ s.depth < c.settings.maxDepth ∧ t = { s with depth := s.depth + 1 } := by
  apply ends_get_bind
  split
  case isTrue hmax =>
    exact ends_modify_bind (ends_pure (.inl ⟨rfl, hmax, _, rfl⟩))
  case isFalse hmax => exact ends_modify_bind (ends_pure (.inr ⟨rfl, by omega, rfl⟩))

omit hdeeper in
theorem ends_inferable (var : Variable) :
    Infer.Ends s (inferable c var) fun _ t => s.Kept t := by
  unfold inferable
  split
  · exact ends_pure (refl s)
  · split
    · exact ends_pure (refl s)
    · split
      · exact ends_pure (refl s)
      · split
        · exact ends_bind (ends_report _) fun _ t ht => ends_pure ht
        · exact ends_pure (refl s)

theorem ends_inferFresh (var : Variable) (hs : s.unmarked c < n) :
    Infer.Ends s (inferFresh c deeper var) fun outcome t => Infers c s t ∧
      ∀ {type groups}, outcome = .ok (type, groups) → ∀ g ∈ groups, Named c g.1 g.2.writes := by
  apply ends_get_bind
  dsimp only
  split
  · refine ends_pure ⟨refl s, ?_⟩
    rintro _ _ ⟨⟩
    exact nofun
  · refine ends_bind (ends_inferable var) fun ready t hst => ?_
    have hinfers : Infers c s t := hst.advance
    split
    · exact ends_pure ⟨hinfers, nofun⟩
    · refine ends_pure ⟨hinfers, ?_⟩
      rintro _ _ ⟨⟩
      exact nofun
    · split
      · refine ends_pure ⟨hinfers, ?_⟩
        rintro _ _ ⟨⟩
        exact nofun
      · refine ends_bind (ends_collectFrom hdeeper var _ (hinfers.unmarked_lt hs)) ?_
        rintro groups u ⟨htu, hgroups⟩
        refine ends_bind (ends_typeByUses c.settings var _) fun type w huw => ?_
        refine ends_pure ⟨hinfers.trans (htu.trans huw.advance), ?_⟩
        rintro _ _ ⟨⟩
        exact hgroups

theorem ends_settleVariable {var : Variable} {type : Ty} {groups : UseGroups}
    (hgroups : ∀ g ∈ groups, Named c g.1 g.2.writes) (hs : s.unmarked c < n) :
    Infer.Ends s (settleVariable c deeper var type groups) fun answer t => answer = type ∧
      Infers c { s with vars := s.vars.insert var (.resolved type) } t := by
  refine ends_modify_bind (ends_get_bind ?_)
  have hbudget := Nat.lt_of_le_of_lt (unmarked_insert_le var (.resolved type)) hs
  generalize ({ s with vars := s.vars.insert var (.resolved type) } : Session) = resolved at *
  dsimp only
  split
  · have hmerged := ends_forM_move (R := Infers c) (s := resolved) (f := fun g : Nat × Uses =>
      Infer.addUses g.2 type) fun g (_ : g ∈ groups) t _ =>
        (ends_addUses g.2 type).imp fun _ u htu => htu.advance
    refine ends_bind hmerged fun _ t hrt => ?_
    have ht : t.unmarked c < n := hrt.unmarked_lt hbudget
    have hdeferred := ends_forM_move (R := Infers c) fun g hg u htu =>
      ends_mergeDeferred hdeeper type (hgroups g hg) (htu.unmarked_lt ht)
    refine ends_bind hdeferred fun _ u htu => ?_
    exact ends_pure ⟨rfl, hrt.trans htu⟩
  · exact ends_pure ⟨rfl, refl _⟩

theorem ends_settleMarked {var : Variable} {type : Ty} {groups : UseGroups} {t : Session}
    (hgroups : ∀ g ∈ groups, Named c g.1 g.2.writes) (hnone : s.vars.get? var = none)
    (hst : Infers c { s with vars := s.vars.insert var .inProgress } t) (ht : t.unmarked c < n) :
    Infer.Ends t (settleVariable c deeper var type groups) fun answer u =>
      Infers c s u ∧ u.varType var = answer ∧ u.vars.contains var = true := by
  refine (ends_settleVariable hdeeper hgroups ht).imp ?_
  rintro answer u ⟨rfl, htu⟩
  have hresolved := Advance.settle hnone hst answer
  have hentry : u.vars.get? var = some (.resolved answer) := by
    rcases htu.change (Table.get?_insert_self _ var _) with hentry | ⟨hfalse, _⟩
    · exact hentry
    · exact hfalse.elim
  refine ⟨hresolved.trans htu, ?_, Table.contains_of_get? hentry⟩
  simp [Run.varType, hentry, Resolution.type]

theorem ends_variableType (var : Variable)
    (hs : s.unmarked c + c.program.surplus var < n + 1) :
    Infer.Ends s (variableType c deeper var) (Typed c s var) := by
  apply ends_get_bind
  split
  case h_1 r hr =>
    exact ends_pure ⟨refl s, by simp [Run.varType, hr], fun _ => Table.contains_of_get? hr⟩
  case h_2 hnone =>
    refine ends_bind (ends_enter _) ?_
    rintro entered t (⟨rfl, hmax, d, rfl⟩ | ⟨rfl, _, rfl⟩)
    · -- past the limit there is no entry, and the type reads as unknown
      refine ends_pure ⟨(s.kept_report d).advance, ?_, fun h => absurd h (by omega)⟩
      simp [Run.varType, Run.report, hnone]
    · refine ends_modify_bind ?_
      have hmarked := unmarked_insert_lt hnone hs .inProgress
      refine ends_bind (ends_inferFresh hdeeper var hmarked) ?_
      rintro outcome t ⟨hmt, hgroups⟩
      refine ends_modify_bind ?_
      have hback := Advance.leave (s := { s with vars := s.vars.insert var .inProgress }) hmt
      have hbudget := hback.unmarked_lt hmarked
      cases outcome with
      | ok found =>
        refine (ends_settleMarked hdeeper (hgroups rfl) hnone hback hbudget).imp ?_
        rintro _ u ⟨hsu, htype, hentry⟩
        exact ⟨hsu, htype, fun _ => hentry⟩
      | error e =>
        refine ends_bind (ends_report _) fun _ u hkept => ?_
        have hreported := hback.trans hkept.advance
        have hbudget' := hreported.unmarked_lt hmarked
        refine (ends_settleMarked hdeeper (by simp) hnone hreported hbudget').imp ?_
        rintro _ w ⟨hsw, htype, hentry⟩
        exact ⟨hsw, htype, fun _ => hentry⟩

theorem ends_returnedType (function : Nat) {ret : Return} (hret : ret.var ∈ c.program.mentioned)
    (hs : s.unmarked c < n) :
    Infer.Ends s (returnedType deeper function ret) fun _ t => Infers c s t := by
  refine ends_bind (hdeeper.inferMentioned hret hs) fun type t ht => ?_
  have hst := ht.infers
  split
  · exact ends_pure hst
  · refine ends_get_bind (ends_lift_bind (Chain.genuine_walk t.db.lists _ _) fun target _ => ?_)
    cases target with
    | some target => exact ends_pure hst
    | none => exact ends_bind (ends_report _) fun _ u htu => ends_pure (hst.trans htu.advance)

omit hdeeper in
theorem ends_commonType (function : Nat) (types : List Ty) :
    Infer.Ends s (commonType function types) fun _ t => s.Kept t := by
  unfold commonType
  split
  · exact ends_bind (ends_report _) fun _ t ht => ends_pure ht
  · exact ends_pure (refl s)
  · exact ends_bind (ends_report _) fun _ t ht => ends_pure ht

theorem ends_returnType (function : Nat) (hs : s.unmarked c < n + 1) :
    Infer.Ends s (returnType c deeper function) fun _ t => Infers c s t ∧
      (s.depth < c.settings.maxDepth → c.program.hasBody function →
        t.returns.contains function = true) := by
  apply ends_get_bind
  split
  case h_1 r hr => exact ends_pure ⟨refl s, fun _ _ => Table.contains_of_get? hr⟩
  case h_2 hnone =>
    split
    case h_1 hbody =>
      refine ends_pure ⟨refl s, fun _ hcontains => ?_⟩
      have hfalse := Table.contains_eq_false_iff.2 hbody
      exact absurd hcontains (by simp [Program.hasBody, hfalse])
    case h_2 body hbody =>
      refine ends_bind (ends_enter _) ?_
      rintro entered t (⟨rfl, hmax, d, rfl⟩ | ⟨rfl, _, rfl⟩)
      · exact ends_pure ⟨(s.kept_report d).advance, fun h => absurd h (by omega)⟩
      · refine ends_modify_bind ?_
        have hmarked := unmarked_insertReturn_lt hnone (Table.contains_of_get? hbody) hs .inProgress
        have hloop := ends_mapM_move (R := Infers c)
          (s := { s with returns := s.returns.insert function .inProgress, depth := s.depth + 1 })
          fun ret hret t hst => ends_returnedType hdeeper function
            (Program.mem_mentioned hbody (List.mem_append_right _ (List.mem_map_of_mem hret)))
            (hst.unmarked_lt hmarked)
        refine ends_bind hloop fun types t hmt => ends_modify_bind ?_
        have hback := Advance.leave
          (s := { s with returns := s.returns.insert function .inProgress }) hmt
        refine ends_bind (ends_commonType function types) fun type u htu => ends_modify_bind ?_
        have hresolved := Advance.settleReturn hnone (hback.trans htu.advance) type
        refine ends_pure ⟨hresolved, fun _ _ => ?_⟩
        exact Table.contains_of_get? (Table.get?_insert_self _ _ _)

/-- A variable whose type is being pushed into the parameters that it is passed as. -/
structure Pushed (c : Context) (source : Variable) (type : Ty) (s : Session) : Prop where
  enabled : c.settings.isEnabled .crossCallPropagation = true
  propagated : s.propagated.contains source = true
  entry : s.vars.get? source = some (.resolved type)
  provisional : s.isProvisional type = true

omit hdeeper in
theorem Pushed.advance {source : Variable} {type : Ty} {p v : Prop} {t : Session}
    (h : Pushed c source type s) (hst : Advance c p v s t) : Pushed c source type t where
  enabled := h.enabled
  propagated := hst.propagated h.propagated
  entry := hst.entry_of_known h.entry (ne_unknown_of_isProvisional h.provisional)
  provisional := isProvisional_mono hst.newTypes h.provisional

omit hdeeper in
theorem Pushed.adopt {source : Variable} {type : Ty} (h : Pushed c source type s)
    {param : Variable} (hadopts : c.Adopts source param)
    (hclosed : s.vars.get? param ≠ some .inProgress) (hunknown : s.varType param = .unknown)
    {t : Session} (hst : Propagates c { s with vars := s.vars.insert param (.resolved type) } t)
    (hmarked : t.propagated.contains param = true) : Propagates c s t := by
  have hknown : type ≠ .unknown := ne_unknown_of_isProvisional h.provisional
  have hparam := hst.entry_of_known (Table.get?_insert_self _ param _) hknown
  have hsource : t.vars.get? source = some (.resolved type) := by
    refine hst.entry_of_known ?_ hknown
    show (s.vars.insert param (.resolved type)).get? source = some (.resolved type)
    rw [Table.get?_insert]
    split
    · rfl
    · exact h.entry
  refine Advance.adopt ?_ hst ⟨hparam, isProvisional_mono hst.newTypes h.provisional, hmarked,
    source, hadopts, hst.propagated h.propagated, hsource⟩
  intro r hr
  cases r with
  | inProgress => exact absurd hr hclosed
  | resolved u =>
    simp only [Run.varType, hr, Option.map_some, Option.getD_some, Resolution.type] at hunknown
    rw [hunknown]

theorem ends_adopting {source : Variable} {type : Ty} {function slot : Nat} {body : FunctionBody}
    (hpushed : Pushed c source type s) (hadopts : c.Adopts source (.local function slot))
    (hbody : c.program.function? function = some body) (hslot : slot < body.locals.length)
    (hclosed : s.vars.get? (.local function slot) ≠ some .inProgress)
    (hunknown : s.varType (.local function slot) = .unknown)
    (hs : s.unpropagated c + s.unmarked c + 1 < n) :
    Infer.Ends s (do
      modify fun s => { s with diagnostics :=
        Diagnostic.retractUnknown (Variable.local function slot).text s.diagnostics }
      Infer.resolve (.local function slot) (.resolved type)
      deeper.propagate (.local function slot)
      Infer.addUses (← resolveUses c deeper function (body.usesOf (.local function slot))) type)
      fun _ t => Propagates c s t ∧ t.IsTyped (.local function slot) := by
  have hretract : s.Kept _ := ⟨s.db, s.newTypes,
    Diagnostic.retractUnknown (Variable.local function slot).text s.diagnostics, fun _ h => h, rfl⟩
  have hretracted : Propagates c s _ := hretract.advance
  refine ends_modify_bind (ends_modify_bind ?_)
  have hmark := unmarked_insert_le (c := c) (s := s) (.local function slot) (.resolved type)
  refine ends_bind (hdeeper.propagate _ ?_) fun _ t ht => ?_
  · rw [if_pos (Program.mem_slots hbody hslot)]
    exact Nat.lt_of_le_of_lt (Nat.add_le_add_right (Nat.add_le_add_left hmark _) 1) hs
  have hmarked : t.propagated.contains (.local function slot) = true := by
    refine ht.marked hpushed.enabled ?_
    simp only [Run.varType, Table.get?_insert_self, Option.map_some, Option.getD_some,
      Resolution.type]
    exact hpushed.provisional
  have hst : Propagates c s t := hretracted.trans
    ((hpushed.advance hretracted).adopt hadopts hclosed hunknown ht.propagates hmarked)
  have htyped : t.IsTyped (.local function slot) := by
    refine ht.propagates.isTyped (isTyped_of_varType ?_)
    simp only [Run.varType, Table.get?_insert_self, Option.map_some, Option.getD_some,
      Resolution.type]
    exact ne_unknown_of_isProvisional hpushed.provisional
  have hbudget' : t.unmarked c < n := by
    have hle := hst.unmarked_le
    omega
  refine ends_bind (ends_resolveUses hdeeper (named_of_usesOf hbody _) hbudget') ?_
  rintro uses u ⟨htu, _⟩
  refine (ends_addUses uses type).imp fun _ w huw => ?_
  have htw : Propagates c t w := (htu.imp False.elim False.elim).trans huw.advance
  exact ⟨hst.trans htw, htw.isTyped htyped⟩

omit hdeeper in
theorem isFunctionStart_of_targetOfOrigin {r : Run} {origin : Option PointerOrigin} {target : Nat}
    (h : targetOfOrigin c r origin = .ok (.ok target)) :
    c.program.isFunctionStart target = true := by
  cases origin with
  | none => cases h
  | some origin =>
    simp only [targetOfOrigin] at h
    split at h
    · cases h
    · obtain ⟨found, _, h⟩ := Checked.bind_eq_ok.1 h
      split at h
      · cases h
      · split at h
        · cases h
        · split at h
          case isTrue hstart =>
            cases h
            exact hstart
          case isFalse => cases h

omit hdeeper in
theorem yields_callee? (call : Call) :
    Infer.Yields s (callee? c call) fun found _ =>
      ∀ callee, found = some callee → c.mayCall call callee = true := by
  unfold callee?
  split
  case h_1 target htarget =>
    refine ends_pure fun callee h => ?_
    split at h
    · cases h
    case isFalse hhelper =>
      cases h
      simp [Context.mayCall, htarget, hhelper]
  case h_2 => exact ends_pure nofun
  case h_3 origin htarget =>
    split
    · exact ends_pure nofun
    case isFalse henabled =>
      refine ends_get_bind (ends_lift_bind (fun _ _ => trivial) fun found hfound => ?_)
      cases found with
      | error failure => exact ends_pure nofun
      | ok target =>
        refine ends_pure fun callee h => ?_
        cases h
        simp only [Bool.not_eq_true', Bool.not_eq_false] at henabled
        simp [Context.mayCall, htarget, henabled, isFunctionStart_of_targetOfOrigin hfound]

theorem ends_propagateInto {source : Variable} {type : Ty} {k : Cast}
    (hpushed : Pushed c source type s) (hk : k ∈ wholeCasts c source)
    (hs : s.unpropagated c + s.unmarked c + 1 < n) :
    Infer.Ends s (propagateInto c deeper type k) fun _ t => Propagates c s t ∧
      ∀ function, c.Receives k function → t.IsTyped (.local function k.argIndex) := by
  refine ends_bind (ends_callee? c k.call).with_run ?_
  rintro callee s ⟨rfl, hcallee⟩
  have hnamed : ∀ {function}, c.Receives k function → callee = some function := by
    intro function hreceives
    simp only [callee?, hreceives.target, hreceives.notHelper] at hcallee
    cases hcallee
    rfl
  cases callee with
  | none => exact ends_pure ⟨refl _, fun function hreceives => absurd (hnamed hreceives) nofun⟩
  | some callee =>
    have hfunction : ∀ {function}, c.Receives k function → function = callee :=
      fun hreceives => (Option.some.inj (hnamed hreceives)).symm
    dsimp only
    split
    case isTrue himport =>
      refine ends_pure ⟨refl _, fun function hreceives => ?_⟩
      exact absurd (hfunction hreceives ▸ hreceives.notImport) (by simp [himport])
    case isFalse himport =>
      split
      case h_1 hnone =>
        refine ends_pure ⟨refl _, fun function hreceives => ?_⟩
        obtain ⟨body, hbody, _⟩ := hreceives.slot
        exact absurd (hfunction hreceives ▸ hbody) (by simp [hnone])
      case h_2 body hbody =>
        split
        case isTrue hslot =>
          refine ends_pure ⟨refl _, fun function hreceives => ?_⟩
          obtain ⟨other, hother, hlt, _⟩ := hreceives.slot
          cases hbody.symm.trans (hfunction hreceives ▸ hother)
          omega
        case isFalse hslot =>
          apply ends_get_bind
          split
          case isTrue hopen =>
            refine ends_pure ⟨refl _, fun function hreceives => ?_⟩
            exact hfunction hreceives ▸ ⟨_, hopen, nofun⟩
          case isFalse hclosed =>
            have hparam := Program.mem_slots hbody (Nat.lt_of_not_le hslot)
            have hmentioned := Program.mem_mentioned_of_mem_slots hparam
            refine ends_bind (hdeeper.inferMentioned hmentioned (by omega)) ?_
            rintro current t ⟨hst, htype, _⟩
            have hmove : Propagates c s t := hst.imp False.elim False.elim
            split
            case isTrue hcurrent =>
              have htyped : t.IsTyped (.local callee k.argIndex) := by
                refine isTyped_of_varType ?_
                rw [htype]
                rintro rfl
                cases hcurrent
              split
              · apply ends_get_bind
                refine ends_lift_bind (TypeStore.stops_render _ _) fun text _ => ?_
                refine ends_lift_bind (TypeStore.stops_render _ _) fun text' _ => ?_
                refine ends_bind (ends_report _) fun _ u htu => ends_pure ?_
                have htu : Propagates c t u := htu.advance
                exact ⟨hmove.trans htu, fun function hreceives =>
                  hfunction hreceives ▸ htu.isTyped htyped⟩
              · exact ends_pure ⟨hmove, fun function hreceives => hfunction hreceives ▸ htyped⟩
            case isFalse hcurrent =>
              split
              case isTrue hassigns =>
                refine ends_pure ⟨hmove, fun function hreceives => ?_⟩
                obtain ⟨other, hother, _, hnone⟩ := hreceives.slot
                obtain rfl := hfunction hreceives
                cases hbody.symm.trans hother
                simp [hnone] at hassigns
              case isFalse hassigns =>
                have hpasses : c.Passes source (.local callee k.argIndex) :=
                  ⟨k, hk, rfl, (yields_callee? k.call).of_ok hcallee _ rfl⟩
                have hadopts : c.Adopts source (.local callee k.argIndex) :=
                  ⟨hpushed.enabled, hpasses, by simpa using himport, body, hbody,
                    Nat.lt_of_not_le hslot, by simpa using hassigns⟩
                have hunknown : t.varType (.local callee k.argIndex) = .unknown := by
                  rw [htype]
                  exact Ty.eq_unknown_of_not_isKnown hcurrent
                have hopen : t.vars.get? (.local callee k.argIndex) ≠ some .inProgress :=
                  fun h => hclosed (hst.closed h)
                have hbudget : t.unpropagated c + t.unmarked c + 1 < n := by
                  have hpropagated := hst.unpropagated_le
                  have hmarked := hst.unmarked_le
                  omega
                refine (ends_adopting hdeeper (hpushed.advance hst) hadopts hbody
                  (Nat.lt_of_not_le hslot) hopen hunknown hbudget).imp ?_
                rintro _ u ⟨htu, htyped⟩
                exact ⟨hmove.trans htu, fun function hreceives => hfunction hreceives ▸ htyped⟩

omit hdeeper in
theorem entry_of_isProvisional {var : Variable} (h : s.isProvisional (s.varType var) = true) :
    s.vars.get? var = some (.resolved (s.varType var)) := by
  unfold Run.varType at h ⊢
  cases hr : s.vars.get? var with
  | none => simp [hr, Run.isProvisional, Ty.finalStruct?] at h
  | some r =>
    cases r with
    | inProgress => simp [hr, Resolution.type, Run.isProvisional, Ty.finalStruct?] at h
    | resolved type => rfl

theorem ends_propagateVariable (var : Variable)
    (hs : s.unpropagated c + s.unmarked c + (if var ∈ c.program.slots then 1 else 2) < n + 1) :
    Infer.Ends s (propagateVariable c deeper var) fun _ t => Propagated c s var t := by
  unfold propagateVariable
  split
  case isTrue hdisabled => exact ends_pure ⟨refl s, fun henabled => by simp [henabled] at hdisabled⟩
  case isFalse henabled =>
    apply ends_get_bind
    dsimp only
    split
    case isTrue hdone =>
      refine ends_pure ⟨refl s, fun _ hprovisional => ?_⟩
      simpa [hprovisional] using hdone
    case isFalse hfresh =>
      simp only [Bool.or_eq_true, Bool.not_eq_true', not_or, Bool.not_eq_false] at hfresh
      obtain ⟨hprovisional, hnew⟩ := hfresh
      have hadded := KeySet.contains_add_self s.propagated var
      have hpushed : Pushed c var (s.varType var) { s with propagated := s.propagated.add var } :=
        ⟨by simpa using henabled, hadded, entry_of_isProvisional hprovisional, hprovisional⟩
      have hkept : ∀ other, s.propagated.contains other = true →
          (s.propagated.add var).contains other = true :=
        fun other hother => KeySet.contains_add_of_contains hother var
      have hbudget : unpropagated c { s with propagated := s.propagated.add var } +
          s.unmarked c + 1 < n := by
        by_cases hvar : var ∈ c.program.slots
        · have hlt : unpropagated c { s with propagated := s.propagated.add var } <
              s.unpropagated c :=
            Table.missing_lt_of_contains hkept hvar (by simpa using hnew) hadded
          rw [if_pos hvar] at hs
          omega
        · have hle : unpropagated c { s with propagated := s.propagated.add var } ≤
              s.unpropagated c := Table.missing_le_of_contains _ hkept
          rw [if_neg hvar] at hs
          omega
      refine ends_set_bind ?_
      have hloop := ends_forM (R := Propagates c)
        (P := fun k t => ∀ function, c.Receives k function → t.IsTyped (.local function k.argIndex))
        (fun k t u ht htu function hreceives => htu.isTyped (ht function hreceives))
        fun k hk t hst => ends_propagateInto hdeeper (hpushed.advance hst) hk (by
          have hpropagated := hst.unpropagated_le
          have hmarked : t.unmarked c ≤ s.unmarked c := hst.unmarked_le
          omega)
      refine hloop.imp ?_
      rintro _ t ⟨hst, hflowed⟩
      exact ⟨hst.push hflowed, fun _ _ => hst.propagated hadded⟩

theorem ends_typeFunction {function : Nat} {body : FunctionBody}
    (hbody : c.program.function? function = some body)
    (hs : s.unpropagated c + s.unmarked c + 1 < n) :
    Infer.Ends s (do
      (Program.slotsOf function body).forM fun var => discard (deeper.inferVariable var)
      let _ ← deeper.inferReturn function
      (Program.slotsOf function body).forM deeper.propagate)
      fun _ t => Propagates c s t ∧ (s.depth < c.settings.maxDepth →
        (∀ slot < body.locals.length, t.vars.contains (.local function slot) = true) ∧
          t.returns.contains function = true) := by
  have hslots : ∀ var ∈ Program.slotsOf function body, var ∈ c.program.slots := fun var hvar =>
    List.mem_flatMap.2 ⟨(function, body), Table.get?_eq_some_iff.1 hbody, hvar⟩
  have hvars := ends_forM (R := Infers c) (s := s)
    (P := fun var t => s.depth < c.settings.maxDepth → t.vars.contains var = true)
    (f := fun var => discard (deeper.inferVariable var))
    (fun var t u ht htu hmax => htu.contains (ht hmax))
    fun var (hvar : var ∈ Program.slotsOf function body) t hst => by
      have hmentioned := Program.mem_mentioned_of_mem_slots (hslots var hvar)
      have hmarked := hst.unmarked_le
      refine ends_map _ ((hdeeper.inferMentioned hmentioned (by omega)).imp fun _ u hu => ?_)
      exact ⟨hu.infers, hst.depth ▸ hu.entry⟩
  refine ends_bind hvars ?_
  rintro _ t ⟨hst, hentries⟩
  have ht : t.unmarked c < n := by
    have hmarked := hst.unmarked_le
    omega
  refine ends_bind (hdeeper.inferReturn function ht) ?_
  rintro _ u ⟨htu, hreturn⟩
  rw [hst.depth] at hreturn
  have hsu := hst.trans htu
  have hpush := ends_forM_move (R := Propagates c) (s := u) (f := deeper.propagate)
    fun var (hvar : var ∈ Program.slotsOf function body) w huw => by
      refine (hdeeper.propagate var ?_).imp fun _ _ h => h.propagates
      have hpropagated := huw.unpropagated_le
      have hpropagated' := hsu.unpropagated_le
      have hmarked := huw.unmarked_le
      have hmarked' := hsu.unmarked_le
      rw [if_pos (hslots var hvar)]
      omega
  refine hpush.imp fun _ w huw => ⟨(hsu.imp False.elim False.elim).trans huw, fun hmax => ⟨?_, ?_⟩⟩
  · intro slot hslot
    have hvar : Variable.local function slot ∈ Program.slotsOf function body :=
      List.mem_map.2 ⟨slot, List.mem_range.2 hslot, rfl⟩
    exact huw.contains (htu.contains (hentries _ hvar hmax))
  · exact huw.returns_contains (hreturn hmax (Table.contains_of_get? hbody))

theorem ends_visitCallees (callees : List Nat)
    (hs : s.unvisited c + s.unpropagated c + s.unmarked c + 1 < n) :
    Infer.Ends s (callees.forM deeper.visitFunction) fun _ t => Visits c s t ∧
      ∀ callee ∈ callees, c.program.hasBody callee → t.Reached callee := by
  refine ends_forM (fun callee t u ht htu hbody => htu.reached (ht hbody)) fun callee _ t hst => ?_
  refine (hdeeper.visitFunction callee ?_).imp fun _ u hu => ⟨hu.visits, hu.reached⟩
  have hvisited := hst.unvisited_le
  have hpropagated := hst.unpropagated_le
  have hmarked := hst.unmarked_le
  omega

/-- Typing a function whose callees are reached ends what began when it was marked as analysed. -/
theorem ends_finishVisit {function : Nat} {body : FunctionBody} {t : Session}
    (hbody : c.program.function? function = some body)
    (hst : Visits c { s with analyzed := s.analyzed.add function } t)
    (hcallees : 0 < c.settings.maxDepth → ∀ callee ∈ c.program.callsFrom function,
      c.program.hasBody callee → t.Reached callee)
    (hdepth : 0 < c.settings.maxDepth → s.depth < c.settings.maxDepth)
    (ht : t.unpropagated c + t.unmarked c + 1 < n) :
    Infer.Ends t (do
      (Program.slotsOf function body).forM fun var => discard (deeper.inferVariable var)
      let _ ← deeper.inferReturn function
      (Program.slotsOf function body).forM deeper.propagate)
      fun _ u => Visits c s u ∧ u.analyzed.contains function = true := by
  refine (ends_typeFunction hdeeper hbody ht).imp ?_
  rintro _ u ⟨htu, htyped⟩
  rw [hst.depth] at htyped
  have hsu := hst.trans (htu.imp id False.elim)
  refine ⟨hsu.analyse fun hmax => ?_, hsu.analyzed ?_⟩
  · obtain ⟨hslots, hreturn⟩ := htyped (hdepth hmax)
    refine ⟨fun hbody' slot hslot => ?_, fun _ => hreturn, fun callee hcallee hhas => ?_⟩
    · cases hbody.symm.trans hbody'
      exact hslots slot hslot
    · exact htu.reached (hcallees hmax callee hcallee hhas)
  · exact KeySet.contains_add_self _ function

theorem ends_visit (function : Nat)
    (hs : s.unvisited c + s.unpropagated c + s.unmarked c + 1 < n + 1) :
    Infer.Ends s (visit c deeper function) fun _ t => Visited c s function t := by
  unfold visit
  split
  case h_1 hnone =>
    have hno : ¬ c.program.hasBody function := by
      simpa [Program.hasBody] using Table.contains_eq_false_iff.2 hnone
    exact ends_pure ⟨refl s, fun h => absurd h hno, fun _ h => absurd h hno, fun _ => rfl⟩
  case h_2 body hbody =>
    have hhas : c.program.hasBody function := Table.contains_of_get? hbody
    apply ends_get_bind
    split
    case isTrue hdone => exact ends_pure ⟨refl s, fun _ => .inl hdone, fun _ _ => hdone, fun _ => rfl⟩
    case isFalse hfresh =>
      split
      case isTrue hdeep =>
        refine ends_set_bind (ends_pure ⟨Advance.putOff hhas, fun _ => .inr ?_, ?_, ?_⟩)
        · exact KeySet.contains_add_self _ function
        · exact fun hzero => absurd hdeep.1 (by omega)
        · exact fun hdone => absurd hdone hfresh
      case isFalse hdeep =>
        have hlt : unvisited c { s with analyzed := s.analyzed.add function } < s.unvisited c :=
          Table.missing_lt_of_contains
            (fun _ hother => KeySet.contains_add_of_contains hother function)
            (Table.mem_keys_iff.2 hhas) (by simpa using hfresh)
            (KeySet.contains_add_self s.analyzed function)
        have hdone : ∀ t, Visits c s t ∧ t.analyzed.contains function = true →
            Visited c s function t :=
          fun t ht => ⟨ht.1, fun _ => .inl ht.2, fun _ _ => ht.2, fun h => absurd h hfresh⟩
        refine ends_set_bind (ends_bind (ends_enter _) ?_)
        rintro entered t (⟨rfl, hmax, d, rfl⟩ | ⟨rfl, hmax, rfl⟩)
        · -- the outermost visit under a limit of zero goes no deeper
          generalize ht : ({ s with
            toRun := s.toRun.report d, analyzed := s.analyzed.add function } : Session) = t
          have hst : Visits c { s with analyzed := s.analyzed.add function } t :=
            ht ▸ (Session.kept_report _ d).advance
          have hpropagated : t.unpropagated c ≤ s.unpropagated c := hst.unpropagated_le
          have hmarked : t.unmarked c ≤ s.unmarked c := hst.unmarked_le
          have hzero : ¬ 0 < c.settings.maxDepth := fun h => hdeep ⟨Nat.lt_of_lt_of_le h hmax, hmax⟩
          exact (ends_finishVisit hdeeper hbody hst (fun h => absurd h hzero)
            (fun h => absurd h hzero) (by omega)).imp fun _ u => hdone u
        · have hbudget : unvisited c { s with analyzed := s.analyzed.add function } +
              s.unpropagated c + s.unmarked c + 1 < n := by omega
          refine ends_bind (ends_visitCallees hdeeper _ hbudget) ?_
          rintro _ t ⟨hst, hcallees⟩
          have hback := Advance.leave
            (s := { s with analyzed := s.analyzed.add function }) hst
          have hpropagated : t.unpropagated c ≤ s.unpropagated c := hst.unpropagated_le
          have hmarked : t.unmarked c ≤ s.unmarked c := hst.unmarked_le
          have ht : unpropagated c { t with depth := t.depth - 1 } +
            unmarked c { t with depth := t.depth - 1 } + 1 < n :=
              show t.unpropagated c + t.unmarked c + 1 < n by omega
          exact ends_modify_bind ((ends_finishVisit hdeeper hbody hback (fun _ => hcallees)
            (fun _ => hmax) ht).imp fun _ u => hdone u)

omit hdeeper in
/-- Every level of the engine ends while less than its height is left to work on. -/
theorem ends_upTo (n : Nat) : (upTo c n).Ends c n := by
  induction n with
  | zero => exact ⟨nofun, nofun, nofun, nofun⟩
  | succ n ih =>
    exact ⟨fun var _ hs => ends_variableType ih var hs, fun function _ hs =>
      ends_returnType ih function hs, fun var _ hs => ends_propagateVariable ih var hs,
      fun function _ hs => ends_visit ih function hs⟩

end Inference
end TypeRecovery
