import TypeRecovery.Proofs.Rests

/-!
# The limit on nested inference

Two runs of the same operations, one under a higher limit than the other, are followed side by side.
As long as the lower limit is not reached, which shows in a report or in a function that is put off,
both do the same. Once it is reached the session shows it until the operation ends, so a run that
does not show it has the same replies and ends in the same session under any higher limit.
-/
namespace TypeRecovery

/-- The same context with another limit on nested inference. -/
def Context.limitedTo (c : Context) (limit : Nat) : Context :=
  { c with settings := { c.settings with maxDepth := limit } }

/-- The diagnostic says that the limit was reached. -/
def Diagnostic.IsLimit (limit : Nat) (d : Diagnostic) : Prop :=
  d = .contractViolation .variableTypes d.subject (InferenceError.depthLimit limit).message

instance (limit : Nat) : DecidablePred (Diagnostic.IsLimit limit) := fun d =>
  inferInstanceAs (Decidable (d = _))

namespace Session

variable {settings : Settings} {limit : Nat} {s t : Session}

/-- The session shows that inference was cut off: the limit was reported, or a function is put
off. -/
def Cut (limit : Nat) (s : Session) : Prop :=
  (∃ d ∈ s.diagnostics, d.IsLimit limit) ∨ s.deferred ≠ .empty

theorem Cut.report (h : s.Cut limit) (d : Diagnostic) :
    Cut limit { s with toRun := s.toRun.report d } := by
  rcases h with ⟨d', hmem, hd'⟩ | hne
  · exact .inl ⟨d', List.mem_append_left _ hmem, hd'⟩
  · exact .inr hne

theorem Cut.retract (h : s.Cut limit) (subject : String) : Cut limit { s with
    diagnostics := Diagnostic.retractUnknown subject s.diagnostics } := by
  rcases h with ⟨d, hmem, hd⟩ | hne
  · have hkept : d.isUnknownAbout subject = false := by
      rw [hd]
      simp [Diagnostic.isUnknownAbout, Diagnostic.contractViolation, Diagnostic.ofKind]
    exact .inl ⟨d, List.mem_filter.2 ⟨hmem, by simp [hkept]⟩, hd⟩
  · exact .inr hne

theorem Draft.cut (h : Draft settings s t) (hs : s.Cut limit) : t.Cut limit := by
  cases h with
  | report _ => exact hs.report _
  | retract subject => exact hs.retract subject
  | create hcreate =>
    obtain ⟨⟨_, o⟩, _, hrun⟩ := Checked.bind_eq_ok.1 hcreate
    cases hrun
    exact hs
  | reshape => exact hs

end Session

namespace Infer

open Session

section Follows

variable {α β : Type} {limit : Nat} {s : Session}

/-- From `s`, the second computation does what the first does, or the first is cut off. What was
cut off stays so. -/
def Follows (limit : Nat) (s : Session) (x y : Infer α) : Prop :=
  ∀ a t, x.run s = .ok (a, t) →
    (s.Cut limit → t.Cut limit) ∧ (t.Cut limit ∨ y.run s = .ok (a, t))

theorem Trails.follows {settings : Settings} {x : Infer α} (hx : Trails (Draft settings) s x) :
    Follows limit s x x := by
  intro a t h
  refine ⟨fun hs => ?_, .inr h⟩
  have hmoves := hx.reaches h
  clear h
  induction hmoves with
  | refl => exact hs
  | tail _ hdraft ih => exact hdraft.cut ih

theorem follows_pure (a : α) : Follows limit s (pure a) (pure a) := by
  intro b t h
  cases h
  exact ⟨id, .inr rfl⟩

theorem follows_stop (fault : Fault) (y : Infer α) : Follows limit s (stop fault) y := by
  intro a t h
  cases h

theorem follows_bind_of_run {x y : Infer α} {f g : α → Infer β} (hx : Follows limit s x y)
    (hf : ∀ a t, x.run s = .ok (a, t) → Follows limit t (f a) (g a)) :
    Follows limit s (x >>= f) (y >>= g) := by
  intro b u h
  obtain ⟨⟨a, t⟩, ha, hb⟩ := Checked.bind_eq_ok.1 h
  obtain ⟨hcut, hsame⟩ := hx a t ha
  obtain ⟨hcut', hsame'⟩ := hf a t ha b u hb
  refine ⟨fun hs => hcut' (hcut hs), ?_⟩
  rcases hsame with ht | hy
  · exact .inl (hcut' ht)
  · exact hsame'.imp_right fun hg => Checked.bind_eq_ok.2 ⟨(a, t), hy, hg⟩

theorem follows_bind {x y : Infer α} {f g : α → Infer β} (hx : Follows limit s x y)
    (hf : ∀ a t, Follows limit t (f a) (g a)) : Follows limit s (x >>= f) (y >>= g) :=
  follows_bind_of_run hx fun a t _ => hf a t

theorem follows_get_bind {f g : Session → Infer β} (hf : Follows limit s (f s) (g s)) :
    Follows limit s (get >>= f) (get >>= g) := hf

theorem follows_lift_bind {x : Checked α} {f g : α → Infer β}
    (hf : ∀ a, Follows limit s (f a) (g a)) :
    Follows limit s (liftM x >>= f) (liftM x >>= g) := by
  cases x with
  | error fault =>
    intro b t h
    cases h
  | ok a => exact hf a

theorem follows_modify {f : Session → Session} (h : s.Cut limit → (f s).Cut limit) :
    Follows limit s (modify f) (modify f) := by
  intro a t ht
  cases ht
  exact ⟨h, .inr rfl⟩

theorem follows_set {s' : Session} (h : s.Cut limit → s'.Cut limit) :
    Follows limit s (set s') (set s') := by
  intro a t ht
  cases ht
  exact ⟨h, .inr rfl⟩

theorem follows_map {x y : Infer α} (f : α → β) (hx : Follows limit s x y) :
    Follows limit s (f <$> x) (f <$> y) := by
  rw [map_eq_pure_bind, map_eq_pure_bind]
  exact follows_bind hx fun a _ => follows_pure (f a)

theorem follows_forM {f g : α → Infer PUnit} {xs : List α}
    (hf : ∀ x t, Follows limit t (f x) (g x)) : Follows limit s (xs.forM f) (xs.forM g) := by
  induction xs generalizing s with
  | nil => exact follows_pure _
  | cons x rest ih => exact follows_bind (hf x s) fun _ _ => ih

theorem follows_mapM {f g : α → Infer β} {xs : List α}
    (hf : ∀ x t, Follows limit t (f x) (g x)) : Follows limit s (xs.mapM f) (xs.mapM g) := by
  induction xs generalizing s with
  | nil => exact follows_pure _
  | cons x rest ih =>
    rw [List.mapM_cons, List.mapM_cons]
    exact follows_bind (hf x s) fun _ _ => follows_bind ih fun _ _ => follows_pure _

end Follows

variable {c : Context} {limit : Nat} {s : Session}

theorem follows_report (d : Diagnostic) : Follows limit s (report d) (report d) :=
  follows_modify fun hs => hs.report d

theorem follows_report_pure {α : Type} (d : Diagnostic) (a : α) :
    Follows limit s (report d >>= fun _ => pure a) (report d >>= fun _ => pure a) :=
  follows_bind (follows_report d) fun _ _ => follows_pure a

theorem follows_resolve (var : Variable) (r : Resolution) :
    Follows limit s (resolve var r) (resolve var r) :=
  follows_modify id

theorem follows_resolveReturn (function : Nat) (r : Resolution) :
    Follows limit s (resolveReturn function r) (resolveReturn function r) :=
  follows_modify id

theorem follows_leave : Follows limit s leave leave :=
  follows_modify id

/-- Where the lower limit lets inference go deeper, so does the higher one; where it does not, it is
reported. -/
theorem follows_enter (hle : c.settings.maxDepth ≤ limit) (subject : String) :
    Follows c.settings.maxDepth s (enter c.settings subject)
      (enter (c.limitedTo limit).settings subject) := by
  unfold enter
  apply follows_get_bind
  by_cases hdepth : c.settings.maxDepth ≤ s.depth
  · rw [if_pos hdepth]
    intro entered t h
    cases h
    have ht : Cut c.settings.maxDepth { s with
        toRun := s.toRun.report (.contractViolation .variableTypes subject
          (InferenceError.depthLimit c.settings.maxDepth).message) } :=
      .inl ⟨_, List.mem_append_right _ (List.mem_singleton_self _), rfl⟩
    exact ⟨fun _ => ht, .inl ht⟩
  · have hhigher : ¬ (c.limitedTo limit).settings.maxDepth ≤ s.depth := fun h =>
      hdepth (Nat.le_trans hle h)
    rw [if_neg hdepth, if_neg hhigher]
    exact follows_bind (follows_modify id) fun _ _ => follows_pure _

end Infer

namespace Inference

open Infer Session

/-- The activities of the second engine follow those of the first. -/
structure Follows (limit : Nat) (i j : Inference) : Prop where
  inferVariable : ∀ var s, Infer.Follows limit s (i.inferVariable var) (j.inferVariable var)
  inferReturn : ∀ function s,
    Infer.Follows limit s (i.inferReturn function) (j.inferReturn function)
  visitFunction : ∀ function s,
    Infer.Follows limit s (i.visitFunction function) (j.visitFunction function)
  propagate : ∀ var s, Infer.Follows limit s (i.propagate var) (j.propagate var)

variable {c : Context} {limit : Nat} {deeper other : Inference} {s : Session}

section Values

variable (hdeeper : deeper.Follows limit other)
include hdeeper

theorem follows_globalValue (address : Nat) :
    Infer.Follows limit s (globalValue deeper address) (globalValue other address) := by
  refine follows_bind (hdeeper.inferVariable _ s) fun t s' => ?_
  split
  · exact follows_pure _
  · apply follows_get_bind
    split <;> exact follows_pure _

theorem follows_exprType (function : Nat) (e : Expr) :
    Infer.Follows limit s (exprType c deeper function e) (exprType c other function e) := by
  have huntyped : Infer.Follows limit s (untypedValue function e) (untypedValue function e) :=
    follows_lift_bind fun text => follows_report_pure _ _
  unfold exprType
  split
  · exact follows_pure _
  · unfold bareType
    split
    · exact hdeeper.inferVariable _ s
    · split
      · split
        · exact hdeeper.inferReturn _ s
        · exact huntyped
      · exact huntyped
    · exact follows_pure _
    · split
      · exact huntyped
      · exact follows_globalValue hdeeper _
    · split
      · split
        · exact huntyped
        · exact follows_bind (hdeeper.inferVariable _ s) fun _ _ => follows_pure _
      · exact huntyped
    · exact huntyped

theorem follows_argType (k : Cast) :
    Infer.Follows limit s (argType c deeper k) (argType c other k) := by
  refine follows_bind ((trails_callee? (c := c) k.call).mono .sketch).follows fun callee t => ?_
  cases callee with
  | none => exact follows_pure _
  | some callee =>
    dsimp only
    split
    · exact follows_get_bind (follows_pure _)
    · split
      · exact follows_pure _
      · split
        · exact hdeeper.inferVariable _ _
        · exact follows_pure _

theorem follows_resolveWrite (function : Nat) (w : Write) :
    Infer.Follows limit s (resolveWrite c deeper function w) (resolveWrite c other function w) :=
  follows_bind (follows_exprType hdeeper function w.value) fun _ _ => follows_pure _

theorem follows_resolveCast (k : Cast) :
    Infer.Follows limit s (resolveCast c deeper k) (resolveCast c other k) :=
  follows_bind (follows_argType hdeeper k) fun _ _ => follows_pure _

theorem follows_resolveUses (function : Nat) (uses : Uses) :
    Infer.Follows limit s (resolveUses c deeper function uses)
      (resolveUses c other function uses) := by
  refine follows_bind (follows_mapM fun w _ => follows_resolveWrite hdeeper function w)
    fun _ t => ?_
  exact follows_bind (follows_mapM fun k _ => follows_resolveCast hdeeper k)
    fun _ _ => follows_pure _

theorem follows_collectFrom (var : Variable) (functions : List Nat) :
    Infer.Follows limit s (collectFrom c deeper var functions)
      (collectFrom c other var functions) := by
  induction functions generalizing s with
  | nil => exact follows_pure _
  | cons function rest ih =>
    unfold collectFrom
    split
    · exact ih
    · dsimp only
      split
      · exact ih
      · refine follows_bind (follows_resolveUses hdeeper function _) fun _ t => ?_
        exact follows_bind ih fun _ _ => follows_pure _

theorem follows_mergeDeferred (type : Ty) (group : Nat × Uses) :
    Infer.Follows limit s (mergeDeferred c deeper type group)
      (mergeDeferred c other type group) := by
  have hdeferred : Infer.Follows limit s (deferredUses c deeper group.1 group.2)
      (deferredUses c other group.1 group.2) := by
    refine follows_bind (follows_mapM fun w _ => follows_resolveWrite hdeeper _ w) fun _ t => ?_
    exact follows_bind (follows_mapM fun k _ => follows_resolveCast hdeeper k)
      fun _ _ => follows_pure _
  refine follows_bind hdeferred fun uses t => ?_
  split
  · exact ((trails_addUses (c := c) uses type).mono .sketch).follows
  · exact follows_pure _

theorem follows_inferFresh (var : Variable) :
    Infer.Follows limit s (inferFresh c deeper var) (inferFresh c other var) := by
  apply follows_get_bind
  dsimp only
  split
  · exact follows_pure _
  · refine follows_bind (trails_inferable var).follows fun ready t => ?_
    split
    · exact follows_pure _
    · exact follows_pure _
    · split
      · exact follows_pure _
      · refine follows_bind (follows_collectFrom hdeeper var _) fun groups t => ?_
        exact follows_bind (trails_typeByUses var _).follows fun _ _ => follows_pure _

theorem follows_settleVariable (var : Variable) (type : Ty) (groups : UseGroups) :
    Infer.Follows limit s (settleVariable c deeper var type groups)
      (settleVariable c other var type groups) := by
  refine follows_bind (follows_resolve var _) fun _ t => ?_
  apply follows_get_bind
  dsimp only
  split
  · refine follows_bind
      (follows_forM fun g _ => ((trails_addUses (c := c) g.2 type).mono .sketch).follows)
      fun _ t => ?_
    exact follows_bind (follows_forM fun g _ => follows_mergeDeferred hdeeper type g)
      fun _ _ => follows_pure _
  · exact follows_pure _

theorem follows_returnedType (function : Nat) (ret : Return) :
    Infer.Follows limit s (returnedType deeper function ret)
      (returnedType other function ret) := by
  refine follows_bind (hdeeper.inferVariable _ s) fun t s' => ?_
  split
  · exact follows_pure _
  · apply follows_get_bind
    refine follows_lift_bind fun target => ?_
    cases target with
    | some target => exact follows_pure _
    | none => exact follows_report_pure _ _

theorem follows_propagateInto (type : Ty) (k : Cast) :
    Infer.Follows limit s (propagateInto c deeper type k) (propagateInto c other type k) := by
  refine follows_bind ((trails_callee? k.call).mono .sketch).follows fun callee t => ?_
  cases callee with
  | none => exact follows_pure _
  | some callee =>
    dsimp only
    split
    · exact follows_pure _
    · split
      · exact follows_pure _
      · split
        · exact follows_pure _
        · apply follows_get_bind
          split
          · exact follows_pure _
          · refine follows_bind (hdeeper.inferVariable _ _) fun current t => ?_
            split
            · split
              · apply follows_get_bind
                refine follows_lift_bind fun text => follows_lift_bind fun text' => ?_
                exact follows_report_pure _ _
              · exact follows_pure _
            · split
              · exact follows_pure _
              · refine follows_bind (follows_modify fun hs => hs.retract _) fun _ t => ?_
                refine follows_bind (follows_resolve _ _) fun _ t => ?_
                refine follows_bind (hdeeper.propagate _ _) fun _ t => ?_
                refine follows_bind (follows_resolveUses hdeeper callee _) fun uses t => ?_
                exact ((trails_addUses (c := c) uses type).mono .sketch).follows

theorem follows_propagateVariable (var : Variable) :
    Infer.Follows limit s (propagateVariable c deeper var) (propagateVariable c other var) := by
  unfold propagateVariable
  split
  · exact follows_pure _
  · apply follows_get_bind
    dsimp only
    split
    · exact follows_pure _
    · exact follows_bind (follows_set id) fun _ t =>
        follows_forM fun k _ => follows_propagateInto hdeeper _ k

end Values

/-! Apart from going deeper, and from putting functions off, nothing reads the limit. -/

theorem collectFrom_limitedTo (var : Variable) (functions : List Nat) :
    collectFrom (c.limitedTo limit) deeper var functions = collectFrom c deeper var functions := by
  induction functions with
  | nil => rfl
  | cons function rest ih =>
    unfold collectFrom
    rw [ih]
    rfl

theorem inferFresh_limitedTo (var : Variable) :
    inferFresh (c.limitedTo limit) deeper var = inferFresh c deeper var := by
  unfold inferFresh
  simp only [collectFrom_limitedTo]
  rfl

theorem settleVariable_limitedTo :
    settleVariable (c.limitedTo limit) deeper = settleVariable c deeper := rfl

section Levels

variable (hdeeper : deeper.Follows c.settings.maxDepth other)
  (hle : c.settings.maxDepth ≤ limit)
include hdeeper hle

theorem follows_variableType (var : Variable) :
    Infer.Follows c.settings.maxDepth s (variableType c deeper var)
      (variableType (c.limitedTo limit) other var) := by
  unfold variableType
  rw [inferFresh_limitedTo, settleVariable_limitedTo]
  apply follows_get_bind
  split
  · exact follows_pure _
  · refine follows_bind (follows_enter hle _) fun entered t => ?_
    cases entered with
    | false => exact follows_pure _
    | true =>
      refine follows_bind (follows_resolve var _) fun _ t => ?_
      refine follows_bind (follows_inferFresh hdeeper var) fun outcome t => ?_
      refine follows_bind follows_leave fun _ t => ?_
      cases outcome with
      | ok found => exact follows_settleVariable hdeeper var found.1 found.2
      | error e =>
        exact follows_bind (follows_report _) fun _ t => follows_settleVariable hdeeper var _ _

theorem follows_returnType (function : Nat) :
    Infer.Follows c.settings.maxDepth s (returnType c deeper function)
      (returnType (c.limitedTo limit) other function) := by
  apply follows_get_bind
  split
  · exact follows_pure _
  · have hprogram : (c.limitedTo limit).program = c.program := rfl
    rw [hprogram]
    split
    · exact follows_pure _
    · refine follows_bind (follows_enter hle _) fun entered t => ?_
      cases entered with
      | false => exact follows_pure _
      | true =>
        refine follows_bind (follows_resolveReturn function _) fun _ t => ?_
        refine follows_bind (follows_mapM fun ret _ => follows_returnedType hdeeper function ret)
          fun types t => ?_
        refine follows_bind follows_leave fun _ t => ?_
        refine follows_bind ((trails_commonType (c := c) function types).mono .sketch).follows
          fun common t => ?_
        exact follows_bind (follows_resolveReturn function _) fun _ _ => follows_pure _

/-- A function that the lower limit puts off shows; any other is visited under both limits. -/
theorem follows_visit (function : Nat) :
    Infer.Follows c.settings.maxDepth s (visit c deeper function)
      (visit (c.limitedTo limit) other function) := by
  have hprogram : (c.limitedTo limit).program = c.program := rfl
  unfold visit
  rw [hprogram]
  split
  · exact follows_pure _
  case h_2 body _ =>
    apply follows_get_bind
    split
    · exact follows_pure _
    · by_cases hoff : 0 < s.depth ∧ c.settings.maxDepth ≤ s.depth
      · rw [if_pos hoff]
        intro _ t h
        cases h
        have hne : s.deferred.add function ≠ .empty := by
          intro hempty
          have hcontains := KeySet.contains_add_self s.deferred function
          rw [hempty] at hcontains
          cases hcontains
        have ht : Cut c.settings.maxDepth { s with deferred := s.deferred.add function } := .inr hne
        exact ⟨fun _ => ht, .inl ht⟩
      · have hhigher : ¬ (0 < s.depth ∧ (c.limitedTo limit).settings.maxDepth ≤ s.depth) :=
          fun h => hoff ⟨h.1, Nat.le_trans hle h.2⟩
        rw [if_neg hoff, if_neg hhigher]
        have hslots : ∀ (slots : List Variable) t, Infer.Follows c.settings.maxDepth t (do
              slots.forM fun var => discard (deeper.inferVariable var)
              let _ ← deeper.inferReturn function
              slots.forM deeper.propagate) (do
              slots.forM fun var => discard (other.inferVariable var)
              let _ ← other.inferReturn function
              slots.forM other.propagate) := by
          intro slots t
          refine follows_bind (follows_forM fun var t => ?_) fun _ t => ?_
          · exact follows_map _ (hdeeper.inferVariable var t)
          · refine follows_bind (hdeeper.inferReturn function t) fun _ t => ?_
            exact follows_forM fun var t => hdeeper.propagate var t
        refine follows_bind (follows_set id) fun _ t => ?_
        refine follows_bind (follows_enter hle _) fun entered t => ?_
        dsimp only
        split
        · refine follows_bind (follows_forM fun f t => hdeeper.visitFunction f t) fun _ t => ?_
          exact follows_bind follows_leave fun _ t => hslots _ t
        · exact hslots _ t

end Levels

theorem follows_upTo (hle : c.settings.maxDepth ≤ limit) (n : Nat) :
    (upTo c n).Follows c.settings.maxDepth (upTo (c.limitedTo limit) n) := by
  induction n with
  | zero =>
    exact ⟨fun _ _ => follows_stop _ _, fun _ _ => follows_stop _ _,
      fun _ _ => follows_stop _ _, fun _ _ => follows_stop _ _⟩
  | succ n ih =>
    exact ⟨fun var _ => follows_variableType ih hle var,
      fun function _ => follows_returnType ih hle function,
      fun function _ => follows_visit ih hle function,
      fun var _ => follows_propagateVariable ih var⟩

end Inference

theorem Run.mem_diagnostics_of_commit {r r' : Run} {written : WriteBack}
    (h : Run.commit.run.run r = .ok (.ok written, r')) :
    ∀ d ∈ r.diagnostics, d ∈ r'.diagnostics := by
  intro d hd
  simp only [Run.commit, Edit.run_get_bind, Edit.run_lift_bind, declareResolved_foldl] at h
  obtain ⟨⟨found, o⟩, _, h⟩ := Checked.bind_eq_ok.1 h
  cases found with
  | error cause => cases h
  | ok report =>
    simp only [report_foldl] at h
    cases h
    exact List.mem_append_left _ (List.mem_append_left _ hd)

namespace Infer

open Session

variable {c : Context} {limit : Nat} {s t : Session}

theorem mem_diagnostics_of_commit {edges : List CallEdge} {summary : Summary}
    (h : (commit edges).run.run s = .ok (.ok summary, t)) :
    ∀ d ∈ s.diagnostics, d ∈ summary.diagnostics := by
  intro d hd
  simp only [commit, Edit.run_get_bind, Edit.run_lift_bind] at h
  obtain ⟨⟨found, run⟩, hrun, h⟩ := Checked.bind_eq_ok.1 h
  cases found with
  | error cause => cases h
  | ok written =>
    cases h
    exact Run.mem_diagnostics_of_commit hrun d hd

/-- No function is put off while the functions are visited in turn. -/
def NonePutOff (c : Context) : List Nat → Session → Prop
  | [], _ => True
  | function :: rest, s => Yields s ((Inference.ofContext c).visitFunction function) fun _ t =>
    t.deferred = .empty ∧ NonePutOff c rest t

instance decidableYields {α : Type} {x : Infer α} {Q : α → Session → Prop}
    [∀ a t, Decidable (Q a t)] : Decidable (Yields s x Q) :=
  match h : x.run s with
  | .ok (a, t) => decidable_of_iff (Q a t) (by rw [Yields, EndsAt, h])
  | .error _ => .isTrue (by rw [Yields, EndsAt, h]; trivial)

instance decidableNonePutOff (c : Context) :
    (functions : List Nat) → (s : Session) → Decidable (NonePutOff c functions s)
  | [], _ => .isTrue trivial
  | function :: rest, s =>
    have := decidableNonePutOff c rest
    inferInstanceAs (Decidable (Yields s ((Inference.ofContext c).visitFunction function) fun _ t =>
      t.deferred = .empty ∧ NonePutOff c rest t))

theorem drainDeferred_of_none (hnone : s.deferred = .empty) (fuel : Nat) :
    (drainDeferred c (fuel + 1)).run s = .ok ((), s) := by
  obtain ⟨run, analyzed, deferred, propagated, depth⟩ := s
  cases hnone
  rfl

theorem analyzeFunction_of_visit {function : Nat}
    (h : ((Inference.ofContext c).visitFunction function).run s = .ok ((), t))
    (hnone : t.deferred = .empty) : (analyzeFunction c function).run s = .ok ((), t) := by
  refine Checked.bind_eq_ok.2 ⟨((), t), h, ?_⟩
  show (if t.depth = 0 then drainDeferred c _ else pure ()).run t = _
  split
  · exact drainDeferred_of_none hnone _
  · rfl

theorem visit_of_analyzeFunction {function : Nat} {rest : List Nat}
    (h : (analyzeFunction c function).run s = .ok ((), t))
    (hnone : NonePutOff c (function :: rest) s) :
    ((Inference.ofContext c).visitFunction function).run s = .ok ((), t) ∧
      t.deferred = .empty ∧ NonePutOff c rest t := by
  obtain ⟨⟨_, u⟩, hvisit, _⟩ := Checked.bind_eq_ok.1 h
  obtain ⟨hu, hrest⟩ := hnone.of_ok hvisit
  cases (analyzeFunction_of_visit hvisit hu).symm.trans h
  exact ⟨hvisit, hu, hrest⟩

variable (hle : c.settings.maxDepth ≤ limit)
include hle

theorem follows_ofContext :
    (Inference.ofContext c).Follows c.settings.maxDepth (Inference.ofContext (c.limitedTo limit)) :=
  Inference.follows_upTo hle _

theorem follows_analyzeFunction {function : Nat} {rest : List Nat}
    (hnone : NonePutOff c (function :: rest) s) :
    Follows c.settings.maxDepth s (analyzeFunction c function)
      (analyzeFunction (c.limitedTo limit) function) := by
  intro _ t h
  obtain ⟨hvisit, ht, _⟩ := visit_of_analyzeFunction h hnone
  obtain ⟨hcut, hsame⟩ := (follows_ofContext hle).visitFunction function s () t hvisit
  exact ⟨hcut, hsame.imp_right fun hother => analyzeFunction_of_visit hother ht⟩

theorem follows_analyzeAll {functions : List Nat} (hnone : NonePutOff c functions s) :
    Follows c.settings.maxDepth s (functions.forM (analyzeFunction c))
      (functions.forM (analyzeFunction (c.limitedTo limit))) := by
  induction functions generalizing s with
  | nil => exact follows_pure _
  | cons function rest ih =>
    refine follows_bind_of_run (follows_analyzeFunction hle hnone) fun _ t h => ih ?_
    exact (visit_of_analyzeFunction h hnone).2.2

theorem follows_propagateTracked :
    Follows c.settings.maxDepth s (propagateTracked c) (propagateTracked (c.limitedTo limit)) :=
  follows_get_bind (follows_forM fun var t => (follows_ofContext hle).propagate var t)

end Infer

/-- The diagnostics that a reply hands over. -/
def Reply.reports : Reply → List Diagnostic
  | diagnostics ds => ds
  | applied (.ok summary) => summary.diagnostics
  | _ => []

namespace Operation

open Infer Session

variable {c : Context} {limit : Nat} {s t : Session} {op : Operation} {reply : Reply}

/-- The functions that an operation visits from outside. -/
def visits (c : Context) : Operation → List Nat
  | visit function => [function]
  | visitAll => c.program.functionAddresses
  | _ => []

/-- The limit is never reached: whatever the operations do from `s`, no function is put off, and no
report says that the limit was reached, neither in the session nor among those handed over. -/
def Unlimited (c : Context) : List Operation → Session → Prop
  | [], _ => True
  | op :: ops, s => NonePutOff c (op.visits c) s ∧ Yields s (op.perform c) fun reply t =>
    (∀ d ∈ reply.reports ++ t.diagnostics, ¬ d.IsLimit c.settings.maxDepth) ∧ Unlimited c ops t

instance decidableUnlimited (c : Context) :
    (ops : List Operation) → (s : Session) → Decidable (Unlimited c ops s)
  | [], _ => .isTrue trivial
  | op :: ops, s =>
    have := decidableUnlimited c ops
    inferInstanceAs (Decidable (NonePutOff c (op.visits c) s ∧
      Yields s (op.perform c) fun reply t =>
        (∀ d ∈ reply.reports ++ t.diagnostics, ¬ d.IsLimit c.settings.maxDepth) ∧
          Unlimited c ops t))

theorem follows_replying {α : Type} {x y : Infer α} {m : Nat} (f : α → Reply)
    (hx : Infer.Follows m s x y) : Infer.Follows m s (x >>= fun a => pure (f a) : Infer Reply)
      (y >>= fun a => pure (f a)) :=
  follows_bind hx fun a _ => follows_pure (f a)

section Higher

variable (hle : c.settings.maxDepth ≤ limit)
include hle

theorem follows_perform (hnone : NonePutOff c (op.visits c) s) (hreports : op ≠ .takeDiagnostics)
    (happly : op ≠ .apply) (hclear : op ≠ .clear) :
    Infer.Follows c.settings.maxDepth s (op.perform c) (op.perform (c.limitedTo limit)) := by
  have hengine := follows_ofContext hle
  cases op with
  | visit function => exact follows_replying _ (follows_analyzeFunction hle hnone)
  | visitAll => exact follows_replying _ (follows_analyzeAll hle hnone)
  | typeVariable var => exact follows_replying .type (hengine.inferVariable var s)
  | typeExpr function e =>
    exact follows_replying .type (Inference.follows_exprType hengine function e)
  | typeReturn function => exact follows_replying .type (hengine.inferReturn function s)
  | propagate var => exact follows_replying _ (hengine.propagate var s)
  | typeByUses var uses => exact follows_replying .type (trails_typeByUses var uses).follows
  | addMemberType id offset type =>
    exact follows_replying _ ((trails_addMemberType (c := c) id offset type).mono .sketch).follows
  | createStruct => exact follows_replying .struct (trails_createStruct.mono .sketch).follows
  | indirectTarget call =>
    have htrails : Trails (Draft c.settings) s (Infer.indirectTarget c call) :=
      (trails_indirectTarget call).mono Noted.draft
    exact follows_replying .target htrails.follows
  | takeDiagnostics => exact absurd rfl hreports
  | apply => exact absurd rfl happly
  | clear => exact absurd rfl hclear

/-- What is propagated before a commit is reported with it, so an apply that reports no limit does
the same under a higher one. -/
theorem apply_limitedTo (hs : s.Idle c) {answer : Except Refusal Summary}
    (h : (Infer.apply c).run.run s = .ok (answer, t))
    (hreports : ∀ d ∈ (Reply.applied answer).reports, ¬ d.IsLimit c.settings.maxDepth) :
    (Infer.apply (c.limitedTo limit)).run.run s = .ok (answer, t) := by
  rw [run_apply] at h ⊢
  obtain ⟨⟨_, u⟩, hpropagate, h⟩ := Checked.bind_eq_ok.1 h
  obtain ⟨⟨edges, v⟩, hresolve, hcommit⟩ := Checked.bind_eq_ok.1 h
  have hdeferred : u.deferred = .empty :=
    (ends_propagateTracked.of_ok hpropagate).1.deferred_eq_empty hs.deferred
  have hbase := sameBase_of_moves (trails_propagateTracked.reaches hpropagate)
  have hnone : ¬ u.Cut c.settings.maxDepth := by
    rintro (⟨d, hmem, hd⟩ | hne)
    · obtain ⟨ds, _, rfl⟩ := resolveCalls_eq_ok hresolve
      obtain ⟨summary, _, rfl, _⟩ := commit_of_callTargets hcommit (hbase.2.trans hs.callTargets)
      exact hreports d (mem_diagnostics_of_commit hcommit d (List.mem_append_left _ hmem)) hd
    · exact hne hdeferred
  have hsame := ((follows_propagateTracked hle) () u hpropagate).2.resolve_left hnone
  exact Checked.bind_eq_ok.2 ⟨((), u), hsame, Checked.bind_eq_ok.2 ⟨(edges, v), hresolve, hcommit⟩⟩

theorem perform_limitedTo (hs : s.Idle c) (h : (op.perform c).run s = .ok (reply, t))
    (hnone : NonePutOff c (op.visits c) s)
    (hreports : ∀ d ∈ reply.reports ++ t.diagnostics, ¬ d.IsLimit c.settings.maxDepth) :
    (op.perform (c.limitedTo limit)).run s = .ok (reply, t) := by
  by_cases htake : op = .takeDiagnostics
  · subst htake
    exact h
  by_cases hclear : op = .clear
  · subst hclear
    exact h
  by_cases happly : op = .apply
  · subst happly
    obtain ⟨⟨answer, u⟩, happlied, h⟩ := Checked.bind_eq_ok.1 h
    cases h
    refine Checked.bind_eq_ok.2 ⟨(answer, t), apply_limitedTo hle hs happlied ?_, rfl⟩
    exact fun d hmem => hreports d (List.mem_append_left _ hmem)
  have hfollows := follows_perform hle hnone htake happly hclear reply t h
  refine hfollows.2.resolve_left ?_
  rintro (⟨d, hmem, hd⟩ | hne)
  · exact hreports d (List.mem_append_right _ hmem) hd
  · exact hne ((ends_perform op hs).of_ok h).1.deferred

theorem performAll_limitedTo {ops : List Operation} {replies : List Reply} (hs : s.Idle c)
    (h : (performAll c ops).run s = .ok (replies, t)) (hunlimited : Unlimited c ops s) :
    (performAll (c.limitedTo limit) ops).run s = .ok (replies, t) := by
  induction ops generalizing s replies with
  | nil =>
    rw [performAll, List.mapM_nil] at h ⊢
    exact h
  | cons op rest ih =>
    obtain ⟨reply, u, later, hop, hrest, rfl⟩ := performAll_cons_eq_ok.1 h
    obtain ⟨hreports, hunlimited'⟩ := hunlimited.2.of_ok hop
    have hfirst := perform_limitedTo hle hs hop hunlimited.1 hreports
    have hu : u.Idle c := ((ends_perform op hs).of_ok hop).1
    exact performAll_cons_eq_ok.2 ⟨reply, u, later, hfirst, ih hu hrest hunlimited', rfl⟩

end Higher

/-- The limit on nested inference is only a safeguard: operations that never reach it have the same
replies and leave the same session, with all that was found and written, under any higher limit. -/
theorem limit_is_safeguard (c : Context) (limit : Nat) (hle : c.settings.maxDepth ≤ limit)
    (db : Database) (ops : List Operation) (replies : List Reply) (s : Session)
    (hs : (performAll c ops).run (Session.start db) = .ok (replies, s))
    (hunlimited : Unlimited c ops (Session.start db)) :
    (performAll (c.limitedTo limit) ops).run (Session.start db) = .ok (replies, s) :=
  performAll_limitedTo hle (idle_start c db) hs hunlimited

/-- A caller that passes a struct on, under the lowest limit that is not reached. -/
theorem limit_is_safeguard_passed :
    let p : Variable := .local 4096 0
    let call : Call := { address := 4112, target := .explicit 8192 }
    let c : Context := {
      program := (Program.addFunction {} {
        address := 4096
        locals := [{ name := "p", isArg := true }]
        writes := [
          { var := p, chain := [.deref], value := .num 1 4 },
          { var := p, chain := [.add 8, .deref], value := .num 2 4 }]
        casts := [{ var := p, chain := [], argIndex := 0, call }]
        calls := [call] }).addFunction {
        address := 8192
        locals := [{ name := "q", isArg := true }] }
      settings := { maxDepth := 2 } }
    let ops : List Operation := [.visitAll, .takeDiagnostics, .apply, .visit 8192]
    Unlimited c ops (Session.start {}) ∧ ¬ Unlimited (c.limitedTo 1) ops (Session.start {}) ∧
      ∃ replies s, (performAll c ops).run (Session.start {}) = .ok (replies, s) ∧
        s.db.inner ≠ {} ∧
        (performAll (c.limitedTo 256) ops).run (Session.start {}) = .ok (replies, s) := by
  intro p call c ops
  have hunlimited : Unlimited c ops (Session.start {}) := by decide +kernel
  have hlower : ¬ Unlimited (c.limitedTo 1) ops (Session.start {}) := by decide +kernel
  have hle : c.settings.maxDepth ≤ 256 := by decide
  have heval : (do
      let found ← (performAll c ops).run (Session.start {})
      pure (decide (found.2.db.inner = {}))) = (.ok false : Checked _) := by
    decide +kernel
  obtain ⟨⟨replies, s⟩, hs, heval⟩ := Checked.bind_eq_ok.1 heval
  simp only [Checked.pure_eq_ok, decide_eq_false_iff_not] at heval
  exact ⟨hunlimited, hlower, replies, s, hs, heval,
    limit_is_safeguard c 256 hle {} ops replies s hs hunlimited⟩

end Operation
end TypeRecovery
