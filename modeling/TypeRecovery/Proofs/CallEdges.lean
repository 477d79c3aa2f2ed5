import TypeRecovery.Proofs.Annotations
import TypeRecovery.Proofs.Rests
import TypeRecovery.Proofs.Turns

/-!
# Edges of indirect calls

Applying a session resolves the indirect calls of the functions that it touched. Each of them gives
one edge or one report, by ascending caller and then in the order of the body; nothing else gives
either. `Resolves` says where a call goes, and why it goes nowhere otherwise.
-/
namespace TypeRecovery

variable {c : Context}

/-- An address in the comment of a member, or else its name read as one. -/
def Member.Annotates (m : Member) (target : Nat) : Prop :=
  (∃ text, m.comment = some text ∧ Address.inText? text = some target) ∨
    ((∀ text, m.comment = some text → Address.inText? text = none) ∧
      Address.parse? m.name = some target)

theorem Member.annotatedTarget?_eq_some_iff {m : Member} {target : Nat} :
    m.annotatedTarget? = some target ↔ m.Annotates target := by
  unfold annotatedTarget? Annotates
  cases m.comment with
  | none => simp
  | some text => cases htext : Address.inText? text <;> simp [htext]

/-- The target that is recorded for a member, or else annotated if the pass for that is on. -/
def Context.Targets (c : Context) (db : Overlay) (member : MemberRef) (target : Nat) : Prop :=
  db.callTarget? member = some target ∨
    (db.callTarget? member = none ∧ c.settings.isEnabled .annotationFallback = true ∧
      ∃ l m, db.layout? member.struct = some l ∧ l.members.get? member.offset = some m ∧
        m.Annotates target)

theorem memberTarget?_eq_some_iff {db : Overlay} {member : MemberRef} {target : Nat} :
    memberTarget? c db member = some target ↔ c.Targets db member target := by
  unfold memberTarget? Context.Targets
  cases db.callTarget? member with
  | some recorded => simp
  | none =>
    by_cases hpass : c.settings.isEnabled .annotationFallback = true
    · simp only [hpass, if_true, Option.bind_eq_some_iff, Member.annotatedTarget?_eq_some_iff]
      constructor
      · rintro ⟨m, ⟨l, hl, hm⟩, hannotates⟩
        exact .inr ⟨trivial, trivial, l, m, hl, hm, hannotates⟩
      · rintro (hrecorded | ⟨_, _, l, m, hl, hm, hannotates⟩)
        · cases hrecorded
        · exact ⟨m, ⟨l, hl, hm⟩, hannotates⟩
    · simp [hpass]

/-- Where an indirect call goes, or why it goes nowhere. -/
inductive Resolves (c : Context) (r : Run) : Option PointerOrigin → Except CallFailure Nat → Prop
  | target {origin : PointerOrigin} {member : MemberRef} {target : Nat}
      (hland : origin.Lands r member) (htarget : c.Targets r.db member target)
      (hstart : c.program.isFunctionStart target = true) :
      Resolves c r (some origin) (.ok target)
  | originUnknown : Resolves c r none (.error .originUnknown)
  | untyped {origin : PointerOrigin} (htype : r.varType origin.var = .unknown) :
      Resolves c r (some origin) (.error (.untyped origin.var))
  | noMember {origin : PointerOrigin} (htype : r.varType origin.var ≠ .unknown)
      (hnone : ∀ member, ¬ origin.Lands r member) :
      Resolves c r (some origin) (.error (.noMember origin.chain (r.varType origin.var)))
  | noTarget {origin : PointerOrigin} {member : MemberRef} (hland : origin.Lands r member)
      (hnone : ∀ target, ¬ c.Targets r.db member target) :
      Resolves c r (some origin) (.error (.noTarget member))
  | notFunction {origin : PointerOrigin} {member : MemberRef} {target : Nat}
      (hland : origin.Lands r member) (htarget : c.Targets r.db member target)
      (hstart : c.program.isFunctionStart target = false) :
      Resolves c r (some origin) (.error (.notFunction target))

section Resolves

variable {r : Run} {origin : PointerOrigin} {result : Except CallFailure Nat}

theorem resolves_of_lands {member : MemberRef} (hland : origin.Lands r member)
    (h : targetOfOrigin c r (some origin) = .ok result) : Resolves c r (some origin) result := by
  rw [targetOfOrigin_of_lands hland] at h
  cases htarget : memberTarget? c r.db member with
  | none =>
    rw [htarget] at h
    cases h
    refine .noTarget hland fun target ht => ?_
    rw [memberTarget?_eq_some_iff.2 ht] at htarget
    cases htarget
  | some target =>
    have ht := memberTarget?_eq_some_iff.1 htarget
    simp only [htarget] at h
    by_cases hstart : c.program.isFunctionStart target = true
    · rw [if_pos hstart] at h
      cases h
      exact .target hland ht hstart
    · rw [if_neg hstart] at h
      cases h
      exact .notFunction hland ht (Bool.eq_false_iff.2 hstart)

theorem resolves_of_not_lands (hnone : ∀ member, ¬ origin.Lands r member)
    (h : targetOfOrigin c r (some origin) = .ok result) : Resolves c r (some origin) result := by
  simp only [targetOfOrigin] at h
  by_cases htype : r.varType origin.var = .unknown
  · rw [htype] at h
    cases h
    exact .untyped htype
  · have hknown : (r.varType origin.var).isUnknown = false := by
      cases hvar : r.varType origin.var <;> simp_all [Ty.isUnknown]
    rw [hknown] at h
    obtain ⟨walked, hwalk, h⟩ := Checked.bind_eq_ok.1 h
    have hmember : walked.bind (·.member) = none := by
      refine Option.eq_none_iff_forall_ne_some.2 fun member hmember => ?_
      obtain ⟨place, rfl, hplace⟩ := Option.bind_eq_some_iff.1 hmember
      exact hnone member ⟨place, hwalk, hplace⟩
    rw [hmember] at h
    cases h
    exact .noMember htype hnone

theorem resolves_of_targetOfOrigin {found : Option PointerOrigin}
    (h : targetOfOrigin c r found = .ok result) : Resolves c r found result := by
  cases found with
  | none =>
    cases h
    exact .originUnknown
  | some origin =>
    by_cases hlands : ∃ member, origin.Lands r member
    · obtain ⟨member, hland⟩ := hlands
      exact resolves_of_lands hland h
    · exact resolves_of_not_lands (not_exists.1 hlands) h

theorem targetOfOrigin_eq_error {found : Option PointerOrigin} {fault : Fault}
    (h : targetOfOrigin c r found = .error fault) : ∃ origin, found = some origin ∧
      (origin.chain.walk r.db (r.varType origin.var)).run = .error fault := by
  cases found with
  | none => cases h
  | some origin =>
    refine ⟨origin, rfl, ?_⟩
    simp only [targetOfOrigin] at h
    split at h
    case isTrue => cases h
    case isFalse =>
      rcases Checked.bind_eq_error h with hwalk | ⟨place, _, h⟩
      · exact hwalk
      · -- once the walk has ended, nothing can go wrong
        split at h
        · cases h
        · split at h <;> cases h

/-- Only the report that no member is reached names a type. -/
theorem Resolves.message_eq_error {found : Option PointerOrigin} {failure : CallFailure}
    {fault : Fault} (hfailure : Resolves c r found (.error failure))
    (h : failure.message r.db = .error fault) : ∃ origin, found = some origin ∧
      TypeStore.render r.db (r.varType origin.var) = .error fault := by
  cases hfailure with
  | @noMember origin _ _ =>
    rcases Checked.bind_eq_error h with hrender | ⟨_, _, h⟩
    · exact ⟨origin, rfl, hrender⟩
    · cases h
  | originUnknown | untyped | noTarget | notFunction => cases h

end Resolves

/-- Each call gives one edge or one report, in order. -/
inductive Accounted (c : Context) (r : Run) :
    List (Nat × Call) → List CallEdge → List Diagnostic → Prop
  | nil : Accounted c r [] [] []
  | edge {calls : List (Nat × Call)} {edges : List CallEdge} {ds : List Diagnostic} {f : Nat}
      {call : Call} {found : Option PointerOrigin} {target : Nat}
      (hcall : call.target = .implicit found) (htarget : Resolves c r found (.ok target))
      (hrest : Accounted c r calls edges ds) :
      Accounted c r ((f, call) :: calls) (⟨f, call.address, target⟩ :: edges) ds
  | report {calls : List (Nat × Call)} {edges : List CallEdge} {ds : List Diagnostic} {f : Nat}
      {call : Call} {found : Option PointerOrigin} {failure : CallFailure} {message : String}
      (hcall : call.target = .implicit found) (hfailure : Resolves c r found (.error failure))
      (hmessage : failure.message r.db = .ok message) (hrest : Accounted c r calls edges ds) :
      Accounted c r ((f, call) :: calls) edges (call.unresolved message :: ds)

theorem Accounted.append {r : Run} {calls calls' : List (Nat × Call)} {edges edges' : List CallEdge}
    {ds ds' : List Diagnostic} (h : Accounted c r calls edges ds)
    (h' : Accounted c r calls' edges' ds') :
    Accounted c r (calls ++ calls') (edges ++ edges') (ds ++ ds') := by
  induction h with
  | nil => exact h'
  | edge hcall htarget _ ih => exact .edge hcall htarget ih
  | report hcall hfailure hmessage _ ih => exact .report hcall hfailure hmessage ih

theorem Accounted.kind_eq {r : Run} {calls : List (Nat × Call)} {edges : List CallEdge}
    {ds : List Diagnostic} (h : Accounted c r calls edges ds) :
    ∀ d ∈ ds, d.kind = .unresolvableCall := by
  induction h with
  | nil => simp
  | edge _ _ _ ih => exact ih
  | report _ _ _ _ ih => exact List.forall_mem_cons.2 ⟨rfl, ih⟩

/-- The walk of an indirect call stops at a fault, or the type that it starts from cannot be
written. -/
def Call.Faults (r : Run) (call : Call) (fault : Fault) : Prop :=
  ∃ origin, call.target = .implicit (some origin) ∧
    ((origin.chain.walk r.db (r.varType origin.var)).run = .error fault ∨
      TypeStore.render r.db (r.varType origin.var) = .error fault)

/-- The indirect calls in the body of a function, with the function. -/
def Program.indirectCalls (p : Program) (function : Nat) : List (Nat × Call) :=
  match p.function? function with
  | none => []
  | some body => (body.calls.filter Call.isImplicit).map fun call => (function, call)

namespace Infer

variable {s : Session}

/-- Starting from `s` but for the reports, the computation accounts for the calls and changes
nothing else, or stops at a fault of one of them. -/
def Accounts {β : Type} (c : Context) (s : Session) (calls : List (Nat × Call))
    (edges : β → List CallEdge) (x : Infer β) : Prop :=
  ∀ ds, EndsAt (fun fault => ∃ p ∈ calls, p.2.Faults s.toRun fault) { s with diagnostics := ds } x
    fun b t => ∃ more, Accounted c s.toRun calls (edges b) more ∧
      t = { s with diagnostics := ds ++ more }

theorem accounts_indirectTarget {function : Nat} {call : Call} (hcall : call.isImplicit = true) :
    Accounts c s [(function, call)] Option.toList (do
      let target ← indirectTarget c call
      return target.map fun target =>
        { caller := function, callAddress := call.address, target : CallEdge }) := by
  intro ds
  obtain ⟨found, hcall⟩ : ∃ found, call.target = .implicit found := by
    unfold Call.isImplicit at hcall
    split at hcall
    case h_1 found htarget => exact ⟨found, htarget⟩
    case h_2 => cases hcall
  unfold indirectTarget
  rw [hcall]
  refine ends_bind (P := fun target t => ∃ more, Accounted c s.toRun [(function, call)]
    (target.map fun target => ⟨function, call.address, target⟩).toList more ∧
    t = { s with diagnostics := ds ++ more }) ?_ fun _ _ h => ends_pure h
  refine ends_get_bind (ends_lift_bind ?_ fun result hresult => ?_)
  · intro fault hfault
    obtain ⟨origin, rfl, hwalk⟩ := targetOfOrigin_eq_error hfault
    exact ⟨_, List.mem_singleton.2 rfl, origin, hcall, .inl hwalk⟩
  · have hresolves : Resolves c s.toRun found result := resolves_of_targetOfOrigin hresult
    cases result with
    | ok target => exact ends_pure ⟨[], .edge hcall hresolves .nil, by simp⟩
    | error failure =>
      refine ends_lift_bind ?_ fun message hmessage => ends_modify_bind (ends_pure ?_)
      · intro fault hfault
        obtain ⟨origin, rfl, hrender⟩ := hresolves.message_eq_error hfault
        exact ⟨_, List.mem_singleton.2 rfl, origin, hcall, .inr hrender⟩
      · exact ⟨_, .report hcall hresolves hmessage .nil, rfl⟩

/-- What accounts for some calls stops only at faults of these, also among more calls. -/
theorem Accounts.endsAt {β : Type} {calls all : List (Nat × Call)} {edges : β → List CallEdge}
    {x : Infer β} (h : Accounts c s calls edges x) (hall : calls ⊆ all) (ds : List Diagnostic) :
    EndsAt (fun fault => ∃ p ∈ all, p.2.Faults s.toRun fault) { s with diagnostics := ds } x
      fun b t => ∃ more, Accounted c s.toRun calls (edges b) more ∧
        t = { s with diagnostics := ds ++ more } := by
  refine (h ds).weaken ?_
  rintro fault ⟨p, hp, hfault⟩
  exact ⟨p, hall hp, hfault⟩

theorem accounts_mapM {α β : Type} {f : α → Infer β} {calls : α → List (Nat × Call)}
    {edges : β → List CallEdge} {xs : List α} (hf : ∀ x ∈ xs, Accounts c s (calls x) edges (f x)) :
    Accounts c s (xs.flatMap calls) (·.flatMap edges) (xs.mapM f) := by
  induction xs with
  | nil => exact fun ds => ends_pure ⟨[], .nil, by simp⟩
  | cons x rest ih =>
    intro ds
    have hfirst := hf x List.mem_cons_self
    have hrest := ih fun y hy => hf y (List.mem_cons_of_mem x hy)
    rw [List.mapM_cons, List.flatMap_cons]
    refine ends_bind (hfirst.endsAt (List.subset_append_left _ _) ds) ?_
    rintro b _ ⟨first, hcalls, rfl⟩
    refine ends_bind (hrest.endsAt (List.subset_append_right _ _) (ds ++ first)) ?_
    rintro bs _ ⟨more, hmore, rfl⟩
    refine ends_pure ⟨first ++ more, hcalls.append hmore, ?_⟩
    rw [List.append_assoc]

theorem accounts_indirectEdges (function : Nat) :
    Accounts c s (c.program.indirectCalls function) id (indirectEdges c function) := by
  intro ds
  unfold indirectEdges Program.indirectCalls
  cases c.program.function? function with
  | none => exact ends_pure ⟨[], .nil, by simp⟩
  | some body =>
    dsimp only
    rw [List.map_eq_flatMap]
    refine ends_bind (accounts_mapM (fun call hcall =>
      accounts_indirectTarget (List.mem_filter.1 hcall).2) ds) ?_
    rintro edges _ ⟨more, hmore, rfl⟩
    refine ends_pure ⟨more, ?_, rfl⟩
    rw [id, List.filterMap_eq_flatMap_toList]
    exact hmore

theorem accounts_resolveCalls (hpass : c.settings.isEnabled .implicitCalls = true) :
    Accounts c s ((touchedFunctions c s.trackedVariables).flatMap c.program.indirectCalls) id
      (resolveCalls c) := by
  intro ds
  unfold resolveCalls
  rw [if_pos hpass]
  refine ends_get_bind (ends_bind (accounts_mapM (fun function _ =>
    accounts_indirectEdges function) ds) ?_)
  rintro edges _ ⟨more, hmore, rfl⟩
  exact ends_pure ⟨more, by simpa using hmore, rfl⟩

theorem mem_touchedFunctions {function : Nat} :
    function ∈ touchedFunctions c s.trackedVariables ↔
      (∃ slot, s.vars.contains (.local function slot) = true) ∨
      ∃ address, s.vars.contains (.global address) = true ∧
        function ∈ c.program.callsTo address := by
  simp only [touchedFunctions, KeySet.mem_toList_ofKeys, List.mem_flatMap, Run.trackedVariables,
    Table.mem_keys_iff]
  constructor
  · rintro ⟨var, hvar, hfunction⟩
    cases var with
    | «local» owner slot =>
      obtain rfl := List.mem_singleton.1 hfunction
      exact .inl ⟨slot, hvar⟩
    | global address => exact .inr ⟨address, hvar, hfunction⟩
  · rintro (⟨slot, hvar⟩ | ⟨address, hvar, hfunction⟩)
    · exact ⟨_, hvar, List.mem_singleton.2 rfl⟩
    · exact ⟨_, hvar, hfunction⟩

end Infer

namespace Session

variable {settings : Settings} {s t : Session}

/-- The reports of calls that have no target. -/
def unresolvedCalls (s : Session) : List Diagnostic :=
  s.diagnostics.filter fun d => d.kind = .unresolvableCall

/-- No call is reported, and no report of one is taken back. -/
def Silent (s t : Session) : Prop := t.unresolvedCalls = s.unresolvedCalls

theorem silent_of_moves (h : Relation.ReflTransGen Silent s t) : Silent s t := by
  induction h with
  | refl => rfl
  | tail _ hlast ih => exact hlast.trans ih

theorem silent_report {d : Diagnostic} (hd : d.kind ≠ .unresolvableCall) :
    Silent s { s with toRun := s.toRun.report d } := by
  simp [Silent, unresolvedCalls, Run.report, hd]

theorem silent_adopt (s : Session) (param : Variable) (type : Ty) :
    Silent s (s.adopt param type) := by
  unfold Silent unresolvedCalls adopt Diagnostic.retractUnknown
  rw [List.filter_filter]
  apply List.filter_congr
  intro d _
  cases hkind : d.kind <;> simp [Diagnostic.isUnknownAbout, hkind]

theorem Sketch.silent (h : Sketch settings s t) : Silent s t := by
  cases h with
  | report _ _ hcall => exact silent_report hcall
  | create hcreate =>
    obtain ⟨_, rfl⟩ := Run.createStruct_eq_ok hcreate
    rfl
  | reshape => rfl

theorem Remark.silent (h : Remark settings s t) : Silent s t := by
  cases h with
  | sketch hsketch => exact hsketch.silent
  | report _ hcall => exact silent_report hcall

theorem Aside.silent (h : Aside settings s t) : Silent s t := by
  cases h with
  | sketch hsketch => exact hsketch.silent
  | resolveReturn | track => rfl

end Session

theorem Inference.along_silent (n : Nat) :
    (upTo c n).Along c (.reaching Session.Silent) := by
  induction n with
  | zero => exact along_exhausted (Infer.Manner.admits_reaching Session.Aside.silent)
  | succ n ih =>
    exact {
      sketches := ih.sketches
      asides := ih.asides
      inferVariable var _ :=
        moves_variableType ih (Infer.Manner.admits_reaching Session.Remark.silent)
          (fun _ _ _ => Infer.moves_modify rfl) var
      inferReturn function _ := moves_returnType ih.toTypes ih.asides function
      visitFunction function _ := moves_visit ih function
      propagate var _ := moves_propagateVariable ih
        (fun s param type => Infer.moves_adopt (Session.silent_adopt s param type)) var }

theorem Infer.silent_propagateTracked {s t : Session}
    (h : (propagateTracked c).run s = .ok ((), t)) : s.Silent t := by
  have hmoves : Moves Session.Silent s (propagateTracked c) :=
    along_propagateTracked (Inference.along_silent _)
  exact Session.silent_of_moves (hmoves.reaches h)

theorem Session.filter_refusedDeclarations_unresolved (s : Session) :
    s.refusedDeclarations.filter (fun d => d.kind = .unresolvableCall) = [] := by
  simp only [refusedDeclarations, List.filter_eq_nil_iff, List.mem_map]
  rintro _ ⟨e, _, rfl⟩
  exact nofun

theorem Run.word_of_createStruct {settings : Settings} {r run : Run} {id : StructId}
    (h : r.createStruct settings = .ok (id, run)) : id.index + 1 < Word.bound := by
  obtain ⟨⟨_, o⟩, ho, hrun⟩ := Checked.bind_eq_ok.1 h
  obtain ⟨n, hadd, hcreate⟩ := Checked.bind_eq_ok.1 ho
  obtain ⟨hword, _⟩ := Word.add_eq_ok_iff.1 hadd
  cases hcreate
  cases hrun
  exact hword

/-- The structs of the overlay have words for ids. -/
def Session.Worded (s : Session) : Prop :=
  ∀ id l, s.db.structs.get? id = some l → id.index + 1 < Word.bound

namespace Session

variable {settings : Settings} {s t : Session}

theorem worded_start (db : Database) : (start db).Worded := nofun

theorem Worded.step (h : s.Worded) (hs : s.Unwritten) (hstep : Step settings s t) : t.Worded := by
  cases hstep with
  | draft hdraft =>
    cases hdraft with
    | report | retract => exact h
    | create hcreate =>
      have hnew := Run.word_of_createStruct hcreate
      obtain ⟨_, rfl⟩ := Run.createStruct_eq_ok hcreate
      intro other l hl
      rcases Table.eq_or_of_get?_insert hl with ⟨rfl, _⟩ | hl
      · exact hnew
      · exact h other l hl
    | @reshape id _ _ _ e hid hl he =>
      intro other l hother
      simp only [TypeStore.setLayout, Table.get?_insert] at hother
      split at hother
      case isTrue heq =>
        -- a struct that was created is in the overlay already
        have hcontains : s.db.structs.contains id = true := by
          rw [hs.held]
          unfold Overlay.isProvisional at hid
          rwa [hs.created] at hid
        obtain ⟨old, hold⟩ := Table.contains_iff.1 hcontains
        exact heq ▸ h id old hold
      case isFalse => exact h other l hother
  | resolve | resolveReturn | track => exact h

theorem Worded.turn (h : s.Worded) (hs : s.Unwritten) (hturn : Turn settings s t) : t.Worded := by
  cases hturn with
  | step hstep => exact h.step hs hstep
  | handOver => exact h
  | commit hcommit =>
    obtain ⟨rfl, _⟩ := hs.of_commit_eq_ok hcommit
    exact worded_start _
  | clear => exact worded_start _

theorem worded_of_leads (hs : s.Unwritten) (h : s.Worded) (hleads : Leads settings s t) :
    t.Worded := by
  induction hleads with
  | refl => exact h
  | tail hbefore hturn ih => exact ih.turn (hs.leads hbefore) hturn

theorem Unwritten.commit_of_worded (h : s.Unwritten) (hword : s.Worded) (edges : List CallEdge) :
    (Infer.commit edges).run.run s = .ok (.ok {
      callEdges := edges
      variablesTyped := s.declarations.size
      structsCommitted := s.newTypes.toList
      diagnostics := s.diagnostics ++ s.refusedDeclarations },
      Session.start s.declaredOverlay.committed) := by
  have htargets : s.declaredOverlay.callTargets = .empty := h.callTargets
  exact h.commit_eq_ok (Overlay.commit_eq_committed (o := s.declaredOverlay) h.own
    (fun hl => hword _ _ hl) h.committed_structs (by simp [htargets])) edges

end Session

/-- Once types are propagated, only the calls can keep a session from being applied. -/
theorem Infer.accounted_of_apply {s found : Session}
    (hpass : c.settings.isEnabled .implicitCalls = true)
    (hfound : (propagateTracked c).run s = .ok ((), found)) (hunwritten : found.Unwritten)
    (hworded : found.Worded) :
    (∃ (summary : Summary) (t : Session) (ds : List Diagnostic),
      (apply c).run.run s = .ok (.ok summary, t) ∧
      Accounted c found.toRun
        ((touchedFunctions c found.trackedVariables).flatMap c.program.indirectCalls)
        summary.callEdges ds ∧
      summary.diagnostics.filter (fun d => d.kind = .unresolvableCall) =
        s.unresolvedCalls ++ ds) ∨
    ∃ fault, (apply c).run.run s = .error fault ∧
      ∃ p ∈ (touchedFunctions c found.trackedVariables).flatMap c.program.indirectCalls,
        p.2.Faults found.toRun fault := by
  have hends := accounts_resolveCalls (s := found) hpass found.diagnostics
  have hrun : (apply c).run.run s =
      (resolveCalls c).run found >>= fun q => (commit q.1).run.run q.2 := by
    rw [run_apply, hfound]
    rfl
  cases hresolve : (resolveCalls c).run found with
  | error fault =>
    rw [hresolve] at hrun
    exact .inr ⟨fault, hrun, hends.stops fault hresolve⟩
  | ok q =>
    obtain ⟨edges, later⟩ := q
    obtain ⟨ds, hds, rfl⟩ := hends.of_ok hresolve
    have hlater : Session.Unwritten { found with diagnostics := found.diagnostics ++ ds } :=
      hunwritten.frame rfl rfl
    have hcommit := hlater.commit_of_worded hworded edges
    rw [hresolve] at hrun
    refine .inl ⟨_, _, ds, hrun.trans hcommit, hds, ?_⟩
    have hsilent : found.unresolvedCalls = s.unresolvedCalls := silent_propagateTracked hfound
    have hreports : ds.filter (fun d => d.kind = .unresolvableCall) = ds :=
      List.filter_eq_self.2 (by simpa using hds.kind_eq)
    rw [List.filter_append, Session.filter_refusedDeclarations_unresolved, List.append_nil,
      List.filter_append, hreports, ← hsilent]
    rfl

namespace Operation

open Infer Session

/-- A session that was reached in any way is applied. If types are propagated without a fault, each
indirect call of each function that the session touched gives one edge or one report, unless one of
these calls has a chain that cannot be walked to its end, or a type that cannot be written. The
functions touched are those that own a local or use a global that is tracked after propagation.
Edges and reports come by ascending function and in the order of its body, and there are no
others. -/
theorem indirect_calls_accounted (c : Context) (db : Database) (ops : List Operation)
    (replies : List Reply) (s : Session)
    (hreached : (performAll c ops).run (Session.start db) = .ok (replies, s))
    (hpass : c.settings.isEnabled .implicitCalls = true) :
    (∀ fault, (propagateTracked c).run s = .error fault →
      (Infer.apply c).run.run s = .error fault) ∧
    ∀ found, (propagateTracked c).run s = .ok ((), found) →
      ∃ touched : List Nat, touched.Pairwise (· < ·) ∧
        (∀ function, function ∈ touched ↔
          (∃ slot, found.vars.contains (.local function slot) = true) ∨
          ∃ address, found.vars.contains (.global address) = true ∧
            function ∈ c.program.callsTo address) ∧
        ((∃ (summary : Summary) (t : Session) (ds : List Diagnostic),
            (Infer.apply c).run.run s = .ok (.ok summary, t) ∧
            Accounted c found.toRun (touched.flatMap c.program.indirectCalls)
              summary.callEdges ds ∧
            summary.diagnostics.filter (fun d => d.kind = .unresolvableCall) =
              s.unresolvedCalls ++ ds) ∨
          ∃ fault, (Infer.apply c).run.run s = .error fault ∧ fault.Genuine ∧
            ∃ p ∈ touched.flatMap c.program.indirectCalls, p.2.Faults found.toRun fault) := by
  have hidle : s.Idle c := (ends_performAll ops (idle_start c db)).of_ok hreached
  have hleads := leads_of_performAll hreached
  refine ⟨fun fault hfault => by rw [run_apply, hfault]; rfl, fun found hfound => ?_⟩
  have hfoundLeads := hleads.trans (leads_of_moves (trails_propagateTracked.reaches hfound))
  have hunwritten := (unwritten_start db).leads hfoundLeads
  have hworded := worded_of_leads (unwritten_start db) (worded_start db) hfoundLeads
  refine ⟨touchedFunctions c found.trackedVariables, KeySet.toList_sorted _,
    fun _ => mem_touchedFunctions, ?_⟩
  rcases accounted_of_apply hpass hfound hunwritten hworded with hreturns | ⟨fault, hfault, hcall⟩
  · exact .inl hreturns
  · have hgenuine := (ends_writeBack (c := c) hidle.callTargets).genuine
    exact .inr ⟨fault, hfault, hgenuine fault hfault, hcall⟩

/-- One target is recorded, one is written in a comment, and one call has no known origin. The
second function is touched only because it reads a global. -/
theorem indirect_calls_accounted_mixed :
    let p : Variable := .local 4096 0
    let g : Variable := .global 20480
    let recorded : Call := { address := 4104, target := .implicit (some ⟨p, [.add 8, .deref]⟩) }
    let lost : Call := { address := 4112, target := .implicit none }
    let written : Call := { address := 12296, target := .implicit (some ⟨g, [.add 16, .deref]⟩) }
    let run : Member := { offset := 8, name := "run", type := .pointer .void, size := 8 }
    let stop : Member := { run with offset := 16, name := "sub_1", comment := some "see sub_2000" }
    let node : Layout := {
      id := ⟨0⟩
      name := "node"
      members := .ofList [(8, run), (16, stop)]
      size := 24 }
    let db : Database := {
      structs := .ofList [(⟨0⟩, node)]
      declared := .ofList [(p, .structPointer ⟨0⟩), (g, .structPointer ⟨0⟩)]
      callTargets := { targets := .ofList [(⟨⟨0⟩, 8⟩, 8192)] }
      nextId := 1 }
    let first : FunctionBody := {
      address := 4096
      locals := [{ name := "a1", isArg := true }]
      calls := [recorded, lost] }
    let second : FunctionBody := {
      address := 12288
      reads := [{ var := g, chain := [.deref] }]
      calls := [written] }
    let c : Context := {
      program := ((Program.addFunction {} first).addFunction { address := 8192 }).addFunction second
      settings := {} }
    let type : Ty := .structPointer ⟨0⟩
    let s : Session := { Session.start db with
      vars := .ofList [(p, .resolved type), (g, .resolved type)] }
    let summary : Summary := {
      callEdges := [⟨4096, 4104, 8192⟩, ⟨12288, 12296, 8192⟩]
      variablesTyped := 2
      structsCommitted := []
      diagnostics := [lost.unresolved "pointer origin unknown"] }
    (performAll c [.typeVariable p, .typeVariable g]).run (Session.start db) =
        .ok ([.type type, .type type], s) ∧
      (Infer.apply c).run.run s = .ok (.ok summary, Session.start db) ∧
      ∃ touched : List Nat, Accounted c s.toRun (touched.flatMap c.program.indirectCalls)
        summary.callEdges summary.diagnostics := by
  intro p g recorded lost written run stop node db first second c type s summary
  have hreached : (performAll c [.typeVariable p, .typeVariable g]).run (Session.start db) =
      .ok ([.type type, .type type], s) := rfl
  have happly : (Infer.apply c).run.run s = .ok (.ok summary, Session.start db) := by
    decide +kernel
  refine ⟨hreached, happly, ?_⟩
  obtain ⟨touched, _, _, ⟨_, _, ds, happly', hcalls, hreports⟩ | ⟨fault, hfault, _⟩⟩ :=
    (indirect_calls_accounted c db _ _ s hreached rfl).2 s rfl
  · rw [happly] at happly'
    cases happly'
    have hds : summary.diagnostics = ds := hreports
    exact ⟨touched, hds ▸ hcalls⟩
  · rw [happly] at hfault
    cases hfault

/-- The size of an array that a pointer leads to is not a machine word, so the call through it gives
neither an edge nor a report. -/
theorem oversized_array_stops_apply :
    let g : Variable := .global 20480
    let call : Call := { address := 4104, target := .implicit (some ⟨g, [.deref]⟩) }
    let f : FunctionBody := {
      address := 4096
      reads := [{ var := g, chain := [.deref] }]
      calls := [call] }
    let c : Context := { program := Program.addFunction {} f, settings := {} }
    let type : Ty := .pointer (.array (.struct ⟨0⟩) (some 4611686018427387904))
    let db : Database := {
      structs := .ofList [(⟨0⟩, { id := ⟨0⟩, name := "node", size := 16 })]
      declared := .ofList [(g, type)]
      nextId := 1 }
    ∃ s, (performAll c [.typeVariable g]).run (Session.start db) = .ok ([.type type], s) ∧
      (propagateTracked c).run s = .ok ((), s) ∧ c.program.indirectCalls 4096 = [(4096, call)] ∧
      call.Faults s.toRun (.overflow .multiply) ∧
      (Infer.apply c).run.run s = .error (.overflow .multiply) := by
  intro g call f c type db
  refine ⟨{ Session.start db with vars := .ofList [(g, .resolved type)] }, ?_, ?_, rfl, ?_, ?_⟩
  · rfl
  · rfl
  · exact ⟨⟨g, [.deref]⟩, rfl, .inl rfl⟩
  · decide +kernel

end Operation
end TypeRecovery
