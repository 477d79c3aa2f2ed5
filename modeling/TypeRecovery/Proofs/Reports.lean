import TypeRecovery.Proofs.Rests

/-!
# Reports and types

A session reports that the type of a variable is unknown, and it may find the type later, when the
variable is passed on as an argument. `Session.Candid` says that no report is left about a variable
of known type. Inference keeps to it, since it reports on a variable only while that is in progress
and then gives it no type, and propagation keeps to it, since it takes the reports back.
-/
namespace TypeRecovery

namespace Session

/-- A report says that the type of the variable is unknown. -/
def Doubts (s : Session) (var : Variable) : Prop :=
  ∃ d ∈ s.diagnostics, d.isUnknownAbout var.text = true

/-- What is reported as unknown has been looked at and has no type. -/
def Candid (s : Session) : Prop :=
  ∀ var, s.Doubts var → ∃ r, s.vars.get? var = some r ∧ r.type = .unknown

/-- From `s` to `t` nothing is said against the types found: all entries stay, and no report is added
about those of them that are `quiet`. -/
structure Discreet (quiet : Variable → Prop) (s t : Session) : Prop where
  candid : s.Candid → t.Candid
  entry : ∀ {var r}, s.vars.get? var = some r → t.vars.get? var = some r
  doubt : ∀ {var}, quiet var → s.vars.contains var = true → t.Doubts var → s.Doubts var

variable {settings : Settings} {quiet : Variable → Prop} {s t u : Session} {var : Variable}

namespace Discreet

theorem trans (hst : Discreet quiet s t) (htu : Discreet quiet t u) : Discreet quiet s u where
  candid h := htu.candid (hst.candid h)
  entry h := htu.entry (hst.entry h)
  doubt {var} hquiet hvar hdoubt := by
    obtain ⟨r, hr⟩ := Table.contains_iff.1 hvar
    have hvar' : t.vars.contains var = true := Table.contains_of_get? (hst.entry hr)
    exact hst.doubt hquiet hvar (htu.doubt hquiet hvar' hdoubt)

theorem imp {quiet' : Variable → Prop} (h : Discreet quiet s t) (hq : ∀ v, quiet' v → quiet v) :
    Discreet quiet' s t :=
  ⟨h.candid, h.entry, fun hquiet => h.doubt (hq _ hquiet)⟩

theorem frame (hvars : t.vars = s.vars) (hdoubt : ∀ var, t.Doubts var → s.Doubts var) :
    Discreet quiet s t where
  candid h var hvar := by
    rw [hvars]
    exact h var (hdoubt var hvar)
  entry h := by rwa [hvars]
  doubt _ _ := hdoubt _

theorem refl (s : Session) : Discreet quiet s s := frame rfl fun _ => id

theorem of_moves (h : Relation.ReflTransGen (Discreet quiet) s t) : Discreet quiet s t := by
  induction h with
  | refl => exact refl s
  | tail _ hlast ih => exact ih.trans hlast

end Discreet

theorem doubts_report {d : Diagnostic} (h : Doubts { s with toRun := s.toRun.report d } var) :
    s.Doubts var ∨ d.isUnknownAbout var.text = true := by
  obtain ⟨d', hmem, habout⟩ := h
  rcases List.mem_append.1 hmem with hmem | hmem
  · exact .inl ⟨d', hmem, habout⟩
  · rw [List.mem_singleton.1 hmem] at habout
    exact .inr habout

theorem Discreet.impersonal {d : Diagnostic} (hd : d.Impersonal) :
    Discreet quiet s { s with toRun := s.toRun.report d } := by
  refine .frame rfl fun var hdoubt => ?_
  rcases doubts_report hdoubt with hdoubt | habout
  · exact hdoubt
  · rw [hd var] at habout
    cases habout

theorem Aside.discreet (h : Aside settings s t) : Discreet quiet s t := by
  cases h with
  | sketch hsketch =>
    cases hsketch with
    | report _ himpersonal _ => exact .impersonal himpersonal
    | create hcreate =>
      obtain ⟨_, rfl⟩ := Run.createStruct_eq_ok hcreate
      exact .frame rfl fun _ => id
    | reshape => exact .frame rfl fun _ => id
  | resolveReturn | track => exact .frame rfl fun _ => id

theorem Discreet.of_sketches (h : Relation.ReflTransGen (Sketch settings) s t) :
    Discreet quiet s t :=
  .of_moves (Relation.ReflTransGen.mono (fun _ _ hsketch => (Aside.sketch hsketch).discreet) _ _ h)

theorem Discreet.report {r : Resolution} (hvar : s.vars.get? var = some r) (hr : r.type = .unknown)
    {d : Diagnostic} (hd : ∀ other, other ≠ var → d.isUnknownAbout other.text = false) :
    Discreet (· ≠ var) s { s with toRun := s.toRun.report d } where
  candid h other hdoubt := by
    by_cases heq : other = var
    · exact heq ▸ ⟨r, hvar, hr⟩
    · rcases doubts_report hdoubt with hdoubt | habout
      · exact h other hdoubt
      · rw [hd other heq] at habout
        cases habout
  entry h := h
  doubt {other} hne _ hdoubt := by
    rcases doubts_report hdoubt with hdoubt | habout
    · exact hdoubt
    · rw [hd other hne] at habout
      cases habout

/-- A variable is marked, worked on, and given a type. If the type is known, nothing was said against
it in between. -/
theorem Discreet.settle {type : Ty} (hnone : s.vars.get? var = none)
    (hst : Discreet (· ≠ var) { s with vars := s.vars.insert var .inProgress } t)
    (hknown : type.isKnown = true → t.Doubts var → s.Doubts var) :
    Discreet quiet s { t with vars := t.vars.insert var (.resolved type) } := by
  have hother : ∀ {other r}, s.vars.get? other = some r → other ≠ var := by
    rintro other r hr rfl
    rw [hnone] at hr
    cases hr
  have hmarked : s.Candid → Candid { s with vars := s.vars.insert var .inProgress } := by
    intro hs other hdoubt
    by_cases heq : other = var
    · subst heq
      exact ⟨.inProgress, Table.get?_insert_self _ _ _, rfl⟩
    · obtain ⟨r, hr, hunknown⟩ := hs other hdoubt
      exact ⟨r, (Table.get?_insert_of_ne _ heq _).trans hr, hunknown⟩
  constructor
  · intro hs other hdoubt
    have hdoubt' : t.Doubts other := hdoubt
    by_cases heq : other = var
    · subst heq
      refine ⟨.resolved type, Table.get?_insert_self _ _ _, Ty.eq_unknown_of_not_isKnown ?_⟩
      intro htype
      obtain ⟨r, hr, _⟩ := hs other (hknown htype hdoubt')
      exact hother hr rfl
    · obtain ⟨r, hr, hunknown⟩ := hst.candid (hmarked hs) other hdoubt'
      exact ⟨r, (Table.get?_insert_of_ne _ heq _).trans hr, hunknown⟩
  · intro other r hr
    have hne := hother hr
    have hafter : t.vars.get? other = some r :=
      hst.entry ((Table.get?_insert_of_ne _ hne _).trans hr)
    exact (Table.get?_insert_of_ne _ hne _).trans hafter
  · intro other _ hin hdoubt
    obtain ⟨r, hr⟩ := Table.contains_iff.1 hin
    have hne := hother hr
    exact hst.doubt hne (Table.contains_insert_of_contains hin _ _) hdoubt

/-- A candid session leads to a candid one. -/
def Upholds (s t : Session) : Prop := s.Candid → t.Candid

theorem upholds_of_moves (h : Relation.ReflTransGen Upholds s t) : Upholds s t := by
  induction h with
  | refl => exact id
  | tail _ hlast ih => exact fun hs => hlast (ih hs)

theorem upholds_adopt (s : Session) (param : Variable) (type : Ty) :
    Upholds s (s.adopt param type) := by
  rintro hs var ⟨d, hmem, habout⟩
  obtain ⟨hmem, hkept⟩ := List.mem_filter.1 hmem
  have hne : var ≠ param := by
    rintro rfl
    rw [habout] at hkept
    cases hkept
  obtain ⟨r, hr, hunknown⟩ := hs var ⟨d, hmem, habout⟩
  exact ⟨r, (Table.get?_insert_of_ne _ hne _).trans hr, hunknown⟩

end Session

namespace Inference

open Infer Session

variable {c : Context} {deeper : Inference} {s : Session} {var : Variable}

theorem yields_inferableQuietly (c : Context) (s : Session) (var : Variable) :
    Yields s (inferable c var) fun ready t => t = s ∨ ready = .ok false ∧
      ∃ d, (∀ other, other ≠ var → d.isUnknownAbout other.text = false) ∧
        t = { s with toRun := s.toRun.report d } := by
  unfold inferable
  split
  · exact ends_pure (.inl rfl)
  · split
    · exact ends_pure (.inl rfl)
    · split
      · exact ends_pure (.inl rfl)
      · split
        · refine ends_modify_bind (ends_pure (.inr ⟨rfl, _, ?_, rfl⟩))
          exact fun _ => Diagnostic.isUnknownAbout_of_ne rfl
        · exact ends_pure (.inl rfl)

theorem yields_typeQuietly (hvar : s.vars.get? var = some .inProgress) (uses : Uses) :
    Yields s (typeByUses c.settings var uses) fun type t => Discreet (· ≠ var) s t ∧
      (type.isKnown = true → t.Doubts var → s.Doubts var) := by
  apply ends_get_bind
  apply ends_lift_bind (fun _ _ => trivial)
  intro verdict _
  cases verdict with
  | type t => exact ends_pure ⟨.refl s, fun _ => id⟩
  | unknown reason =>
    refine ends_modify_bind (ends_pure ⟨.report hvar rfl ?_, nofun⟩)
    exact fun _ => Diagnostic.isUnknownAbout_of_ne rfl
  | newStruct =>
    refine ends_bind trails_createStruct.moves.yields fun id t hst => ends_pure ?_
    have hdiscreet : Discreet (fun _ => True) s t := .of_sketches hst
    exact ⟨hdiscreet.imp fun _ _ => trivial,
      fun _ => hdiscreet.doubt trivial (Table.contains_of_get? hvar)⟩

section Types

variable (hdeeper : deeper.Types c (.reaching (Discreet fun _ => True)))
include hdeeper

/-- While a variable is in progress it may be reported on, but then no type is found. -/
theorem yields_inferQuietly (hvar : s.vars.get? var = some .inProgress) :
    Yields s (inferFresh c deeper var) fun outcome t => Discreet (· ≠ var) s t ∧
      ∀ {type groups}, outcome = .ok (type, groups) → type.isKnown = true →
        t.Doubts var → s.Doubts var := by
  apply ends_get_bind
  dsimp only
  split
  · exact ends_pure ⟨.refl s, fun _ _ => id⟩
  · refine ends_bind (yields_inferableQuietly c s var) ?_
    rintro ready t (rfl | ⟨rfl, d, hd, rfl⟩)
    · split
      · exact ends_pure ⟨.refl t, nofun⟩
      · exact ends_pure ⟨.refl t, fun _ _ => id⟩
      · split
        · exact ends_pure ⟨.refl t, fun _ _ => id⟩
        · refine ends_bind (yields_iff.2 (moves_collectFrom hdeeper var _)) fun groups u htu => ?_
          have hcollected := Discreet.of_moves htu
          refine ends_bind (yields_typeQuietly (hcollected.entry hvar) _) ?_
          rintro type v ⟨huv, hknown⟩
          refine ends_pure ⟨(hcollected.imp fun _ _ => trivial).trans huv, ?_⟩
          rintro _ _ ⟨⟩ htype hdoubt
          exact hcollected.doubt trivial (Table.contains_of_get? hvar) (hknown htype hdoubt)
    · refine ends_pure ⟨.report hvar rfl hd, ?_⟩
      rintro _ _ ⟨⟩ htype
      cases htype

theorem yields_settleQuietly {type : Ty} {groups : UseGroups} {t : Session}
    (hnone : s.vars.get? var = none)
    (hst : Discreet (· ≠ var) { s with vars := s.vars.insert var .inProgress } t)
    (hknown : type.isKnown = true → t.Doubts var → s.Doubts var) :
    Yields t (settleVariable c deeper var type groups) fun _ u => Discreet (fun _ => True) s u := by
  refine ends_modify_bind ((yields_iff.2 (moves_mergeGroups hdeeper type groups)).imp ?_)
  intro _ u hu
  exact (Discreet.settle hnone hst hknown).trans (.of_moves hu)

theorem yields_variableQuietly (var : Variable) :
    Yields s (variableType c deeper var) fun _ t => Discreet (fun _ => True) s t := by
  apply ends_get_bind
  split
  · exact ends_pure (.refl s)
  case h_2 hnone =>
    have hmoves : Infer.Moves (Discreet fun _ => True) s (enter c.settings var.text) :=
      ((trails_enter var.text).mono Aside.discreet).moves
    refine ends_bind (hmoves.yields.and (ends_enter var.text)) ?_
    rintro entered t ⟨hst, ⟨rfl, _⟩ | ⟨rfl, _, rfl⟩⟩
    · exact ends_pure (.of_moves hst)
    · refine ends_modify_bind ?_
      refine ends_bind (yields_inferQuietly hdeeper (Table.get?_insert_self _ _ _)) ?_
      rintro outcome t ⟨hmt, hknown⟩
      -- the depth is no matter of types or reports
      have hdeep : Discreet (· ≠ var) { s with vars := s.vars.insert var .inProgress }
          { s with vars := s.vars.insert var .inProgress, depth := s.depth + 1 } :=
        .frame rfl fun _ => id
      have hback : Discreet (· ≠ var) t { t with depth := t.depth - 1 } := .frame rfl fun _ => id
      have hleft := (hdeep.trans hmt).trans hback
      refine ends_modify_bind ?_
      cases outcome with
      | ok found => exact yields_settleQuietly hdeeper hnone hleft (hknown rfl)
      | error e =>
        refine ends_bind (trails_report (c := c) (by nofun) (.of_kind (by nofun))).moves.yields ?_
        intro _ u htu
        have hreport : Discreet (· ≠ var) { t with depth := t.depth - 1 } u := .of_sketches htu
        exact yields_settleQuietly hdeeper hnone (hleft.trans hreport) nofun

end Types

theorem types_quietly (n : Nat) : (upTo c n).Types c (.reaching (Discreet fun _ => True)) := by
  induction n with
  | zero => exact (along_exhausted (Manner.admits_reaching Aside.discreet)).toTypes
  | succ n ih =>
    constructor
    · exact Manner.admits_reaching fun h => (Aside.sketch h).discreet
    · intro var s
      exact yields_iff.1 ((yields_variableQuietly ih var).imp fun _ _ h => .single h)
    · intro function s
      exact moves_returnType ih (Manner.admits_reaching Aside.discreet) function

theorem along_upholds (n : Nat) : (upTo c n).Along c (.reaching Upholds) := by
  have hasides : (Manner.reaching Upholds).Admits (Aside c.settings) := by
    refine Manner.admits_reaching fun {s t} h => ?_
    have hdiscreet : Discreet (fun _ => True) s t := h.discreet
    exact hdiscreet.candid
  induction n with
  | zero => exact along_exhausted hasides
  | succ n ih =>
    have htypes := types_quietly (c := c) (n + 1)
    exact {
      sketches := ih.sketches
      asides := hasides
      inferVariable var s := Moves.mono (htypes.inferVariable var s) Discreet.candid
      inferReturn function s := Moves.mono (htypes.inferReturn function s) Discreet.candid
      visitFunction function _ := moves_visit ih function
      propagate var _ := moves_propagateVariable ih
        (fun s param type => moves_adopt (upholds_adopt s param type)) var }

end Inference

namespace Operation

open Infer Session

variable {c : Context} {s t : Session} {reply : Reply}

/-- Only the uses that a session is asked to judge for a variable of the caller's choice may be
reported against a type that was found. -/
def judges : Operation → Bool
  | typeByUses _ _ => true
  | _ => false

theorem upholds_perform {op : Operation} (hjudges : op.judges = false) (hs : s.Idle c)
    (h : (op.perform c).run s = .ok (reply, t)) : Upholds s t := by
  have hengine : (Inference.ofContext c).Along c (.reaching Upholds) := Inference.along_upholds _
  have hreplying : ∀ {α : Type} {x : Infer α} (f : α → Reply), Infer.Moves Upholds s x →
      (x >>= fun a => pure (f a) : Infer Reply).run s = .ok (reply, t) → Upholds s t := by
    intro α x f hx hrun
    exact upholds_of_moves (Moves.reaches (moves_replying f hx) hrun)
  cases op with
  | visit function => exact hreplying _ (along_analyzeFunction hengine function) h
  | visitAll => exact hreplying _ (along_analyzeEverything hengine) h
  | typeVariable var => exact hreplying .type (hengine.inferVariable var s) h
  | typeExpr function e =>
    exact hreplying .type (Inference.moves_exprType hengine.toTypes function e) h
  | typeReturn function => exact hreplying .type (hengine.inferReturn function s) h
  | propagate var => exact hreplying _ (hengine.propagate var s) h
  | typeByUses var uses => cases hjudges
  | addMemberType id offset type =>
    exact hreplying _ (hengine.sketches (trails_addMemberType id offset type)) h
  | createStruct => exact hreplying .struct (hengine.sketches trails_createStruct) h
  | indirectTarget call =>
    refine hreplying .target ((trails_indirectTarget call).mono ?_).moves h
    rintro s _ ⟨d, _, himpersonal, rfl⟩
    have hdiscreet : Discreet (fun _ => True) s _ := .impersonal himpersonal
    exact hdiscreet.candid
  | takeDiagnostics =>
    cases h
    rintro _ var ⟨_, hmem, _⟩
    cases hmem
  | apply =>
    obtain ⟨⟨answer, u⟩, hrun, hreply⟩ := Checked.bind_eq_ok.1 h
    cases hreply
    obtain ⟨db, rfl⟩ := (ends_writeBack hs.callTargets).of_ok hrun
    rintro _ var ⟨_, hmem, _⟩
    cases hmem
  | clear =>
    cases h
    rintro _ var ⟨_, hmem, _⟩
    cases hmem

theorem candid_of_performAll {ops : List Operation} {replies : List Reply}
    (hjudges : ∀ op ∈ ops, op.judges = false) (hidle : s.Idle c) (hs : s.Candid)
    (h : (performAll c ops).run s = .ok (replies, t)) : t.Candid := by
  induction ops generalizing s replies with
  | nil =>
    cases h
    exact hs
  | cons op rest ih =>
    obtain ⟨reply, u, _, hop, hrest, _⟩ := performAll_cons_eq_ok.1 h
    have hu := ((ends_perform op hidle).of_ok hop).1
    have hfirst := upholds_perform (hjudges op (by simp)) hidle hop hs
    exact ih (fun other hother => hjudges other (by simp [hother])) hu hfirst hrest

/-- Reports never contradict types. Whatever is asked of a session, short of judging uses of the
caller's own, a variable that is reported as unknown has been looked at, and its type is
unknown. -/
theorem reports_agree_with_types (c : Context) (db : Database) (ops : List Operation)
    (hjudges : ∀ op ∈ ops, op.judges = false) (replies : List Reply) (s : Session)
    (h : (performAll c ops).run (Session.start db) = .ok (replies, s)) (var : Variable)
    (d : Diagnostic) (hd : d ∈ s.diagnostics) (hkind : d.kind = .unknownEvidence)
    (hsubject : d.subject = var.text) : s.vars.get? var = some (.resolved .unknown) := by
  have hstart : (Session.start db).Candid := by
    rintro var ⟨_, hmem, _⟩
    cases hmem
  have hidle := (ends_performAll ops (idle_start c db)).of_ok h
  have hdoubt : s.Doubts var := ⟨d, hd, by simp [Diagnostic.isUnknownAbout, hkind, hsubject]⟩
  obtain ⟨r, hr, hunknown⟩ := candid_of_performAll hjudges (idle_start c db) hstart h var hdoubt
  cases r with
  | inProgress => exact absurd hr hidle.closed
  | resolved type =>
    have htype : type = .unknown := hunknown
    rw [hr, htype]

/-- A parameter without uses is reported on when it is asked for. Once a variable is passed as it, it
has a type, and nothing is reported any more but the variable next to it. -/
theorem reports_agree_with_types_retracted :
    let p : Variable := .local 4096 0
    let q : Variable := .local 8192 0
    let r : Variable := .local 8192 1
    let call : Call := { address := 4112, target := .explicit 8192 }
    let c : Context := {
      program := (Program.addFunction {} {
        address := 4096
        locals := [{ name := "p", isArg := true }]
        writes := [
          { var := p, chain := [.deref], value := .num 1 4 },
          { var := p, chain := [.add 8, .deref], value := .num 2 4 }]
        casts := [{ var := p, chain := [], argIndex := 0, call }]
        calls := [call] }).addFunction {
        address := 8192
        locals := [{ name := "q", isArg := true }, { name := "r" }] }
      settings := {} }
    (∃ replies s, (performAll c [.typeVariable q]).run (Session.start {}) = .ok (replies, s) ∧
      s.Doubts q) ∧
    ∃ replies s, (performAll c [.typeVariable q, .visitAll]).run (Session.start {}) =
        .ok (replies, s) ∧
      s.vars.get? q = some (.resolved (.structPointer ⟨0⟩)) ∧ ¬ s.Doubts q ∧
      ∃ d ∈ s.diagnostics, d.kind = .unknownEvidence ∧ d.subject = r.text ∧
        s.vars.get? r = some (.resolved .unknown) := by
  intro p q r call c
  have hbefore : (do
      let found ← (performAll c [.typeVariable q]).run (Session.start {})
      pure (found.2.diagnostics.any (·.isUnknownAbout q.text))) = (.ok true : Checked _) := by
    decide +kernel
  have hafter : (do
      let found ← (performAll c [.typeVariable q, .visitAll]).run (Session.start {})
      pure (found.2.diagnostics.any (·.isUnknownAbout r.text), found.2.vars.get? q)) =
      (.ok (true, some (.resolved (.structPointer ⟨0⟩))) : Checked _) := by
    decide +kernel
  obtain ⟨⟨replies, s⟩, hs, hdoubt⟩ := Checked.bind_eq_ok.1 hbefore
  obtain ⟨⟨replies', s'⟩, hs', hfound⟩ := Checked.bind_eq_ok.1 hafter
  obtain ⟨hr, hq⟩ := Prod.mk.inj (Checked.pure_eq_ok.1 hfound)
  have hagree := reports_agree_with_types c {} [.typeVariable q, .visitAll] (by simp [judges])
    replies' s' hs'
  have habout : ∀ {d : Diagnostic} {var : Variable}, d.isUnknownAbout var.text = true →
      d.kind = .unknownEvidence ∧ d.subject = var.text := by
    intro d var h
    simpa [Diagnostic.isUnknownAbout] using h
  refine ⟨⟨replies, s, hs, List.any_eq_true.1 (Checked.pure_eq_ok.1 hdoubt)⟩, replies', s', hs', hq,
    ?_, ?_⟩
  · rintro ⟨d, hd, hdq⟩
    have hunknown := hagree q d hd (habout hdq).1 (habout hdq).2
    rw [hq] at hunknown
    cases hunknown
  · obtain ⟨d, hd, hdr⟩ := List.any_eq_true.1 hr
    obtain ⟨hkind, hsubject⟩ := habout hdr
    exact ⟨d, hd, hkind, hsubject, hagree r d hd hkind hsubject⟩

end Operation
end TypeRecovery
