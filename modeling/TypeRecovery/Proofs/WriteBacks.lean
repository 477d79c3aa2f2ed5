import TypeRecovery.Proofs.Commits
import TypeRecovery.Proofs.Numerals
import TypeRecovery.Proofs.Operations

/-!
# Writing a session back

While a session infers, its overlay holds the structs of the run and nothing else: no copy of an
older struct, no deletion, no declaration, no call target. This is what lets a commit add exactly
the structs of the run, and what lets it judge declarations once and for all.
-/
namespace TypeRecovery

theorem Run.createStruct_eq_ok {settings : Settings} {r run : Run} {id : StructId}
    (h : r.createStruct settings = .ok (id, run)) :
    id = ⟨r.db.next⟩ ∧ run = { r with
      db := { r.db with
        nextId := r.db.next + 1
        structs := r.db.structs.insert id { id, name := settings.structName r.db.next }
        created := r.db.created.add id }
      newTypes := r.newTypes.add id } := by
  obtain ⟨⟨_, o⟩, ho, hrun⟩ := Checked.bind_eq_ok.1 h
  obtain ⟨n, hadd, hcreate⟩ := Checked.bind_eq_ok.1 ho
  obtain ⟨_, rfl⟩ := Word.add_eq_ok_iff.1 hadd
  cases hcreate
  cases hrun
  exact ⟨rfl, rfl⟩

/-- The overlay holds the structs of the run and nothing else: no copy of an older struct, no
deletion, no declaration, no call target. -/
structure Session.Unwritten (s : Session) : Prop where
  deleted : s.db.deleted = .empty
  declared : s.db.declared = .empty
  callTargets : s.db.callTargets = .empty
  created : s.db.created = s.newTypes
  held : ∀ id, s.db.structs.contains id = s.isNewType id
  own : ∀ {id l}, s.db.structs.get? id = some l → l.id = id
  below : ∀ {id l}, s.db.structs.get? id = some l → id.index < s.db.nextId

/-- Over `db` the session has found what it holds, and nothing has been written back. -/
structure Session.Staged (db : Database) (s : Session) : Prop extends s.Unwritten where
  consistent : s.db.Consistent
  inner : s.db.inner = db
  reports : ∀ d ∈ s.diagnostics, d.subsystem ≠ .writeBack

namespace Session

variable {db : Database} {settings : Settings} {s s' : Session}

theorem unwritten_start (db : Database) : (start db).Unwritten where
  deleted := rfl
  declared := rfl
  callTargets := rfl
  created := rfl
  held _ := rfl
  own h := nomatch h
  below h := nomatch h

theorem staged_start (hdb : db.WellKeyed) : (start db).Staged db where
  toUnwritten := unwritten_start db
  consistent := Overlay.consistent_ofDatabase hdb
  inner := rfl
  reports _ hd := nomatch hd

namespace Unwritten

theorem layout?_eq (h : s.Unwritten) (id : StructId) :
    s.db.layout? id = (s.db.structs.get? id <|> s.db.inner.structs.get? id) :=
  Overlay.layout?_of_not_deleted (by rw [h.deleted]; rfl)

theorem isNewType_of_provisional (h : s.Unwritten) {id : StructId}
    (hid : s.db.isProvisional id = true) : s.isNewType id = true := by
  unfold Run.isNewType
  rw [← h.created]
  exact hid

theorem isProvisional_of_isNewType (h : s.Unwritten) {id : StructId}
    (hid : s.isNewType id = true) : s.db.isProvisional id = true := by
  unfold Overlay.isProvisional
  rw [h.created]
  exact hid

theorem structs_of_isNewType (h : s.Unwritten) {id : StructId} {l : Layout}
    (hid : s.isNewType id = true) (hl : s.db.layout? id = some l) :
    s.db.structs.get? id = some l := by
  obtain ⟨held, hheld⟩ := Table.contains_iff.1 ((h.held id).trans hid)
  rw [h.layout?_eq, hheld] at hl
  have heq : held = l := Option.some.inj hl
  rw [hheld, heq]

theorem layout?_of_isNewType (h : s.Unwritten) {id : StructId} (hid : s.isNewType id = true) :
    ∃ l, s.db.layout? id = some l := by
  obtain ⟨held, hheld⟩ := Table.contains_iff.1 ((h.held id).trans hid)
  exact ⟨held, by rw [h.layout?_eq, hheld]; rfl⟩

theorem frame (h : s.Unwritten) (hoverlay : s'.db = s.db) (hnew : s'.newTypes = s.newTypes) :
    s'.Unwritten := by
  constructor <;> simp only [hoverlay, Run.isNewType, hnew]
  · exact h.deleted
  · exact h.declared
  · exact h.callTargets
  · exact h.created
  · exact h.held
  · exact h.own
  · exact h.below

theorem create (h : s.Unwritten) {id : StructId} {run : Run}
    (hcreate : s.toRun.createStruct settings = .ok (id, run)) :
    Unwritten { s with toRun := run } := by
  obtain ⟨rfl, rfl⟩ := Run.createStruct_eq_ok hcreate
  have hnext : s.db.nextId ≤ s.db.next := Nat.le_max_left _ _
  refine ⟨h.deleted, h.declared, h.callTargets, ?_, ?_, ?_, ?_⟩
  · simp [h.created]
  · intro id
    have hheld := h.held id
    unfold Run.isNewType at hheld ⊢
    simp [Table.contains_insert, KeySet.contains_add, hheld]
  · intro id l hl
    rcases Table.eq_or_of_get?_insert hl with ⟨rfl, rfl⟩ | hl
    · rfl
    · exact h.own hl
  · intro id l hl
    rcases Table.eq_or_of_get?_insert hl with ⟨rfl, _⟩ | hl
    · exact Nat.lt_succ_self _
    · have hlt := h.below hl
      simp only
      omega

theorem reshape (h : s.Unwritten) {id : StructId} {l l' : Layout} {e : LayoutEdit}
    {answer : Except Refusal Answer} (hid : s.db.isProvisional id = true)
    (hl : s.db.layout? id = some l) (he : e.perform.run.run l = .ok (answer, l')) :
    Unwritten { s with db := TypeStore.setLayout s.db id l' } := by
  have hnew : s.newTypes.contains id = true := h.isNewType_of_provisional hid
  have hold := h.structs_of_isNewType hnew hl
  refine ⟨h.deleted, h.declared, h.callTargets, h.created, ?_, ?_, ?_⟩
  · intro id'
    have hheld := h.held id'
    unfold Run.isNewType at hheld ⊢
    by_cases heq : id' = id <;> simp [TypeStore.setLayout, Table.contains_insert, heq, hheld, hnew]
  · intro id' k hk
    simp only [TypeStore.setLayout, Table.get?_insert] at hk
    split at hk
    case isTrue hsame =>
      cases hk
      rw [hsame, LayoutEdit.perform_id he]
      exact h.own hold
    case isFalse => exact h.own hk
  · intro id' k hk
    simp only [TypeStore.setLayout, Table.get?_insert] at hk
    split at hk
    case isTrue hsame =>
      rw [hsame]
      exact h.below hold
    case isFalse => exact h.below hk

theorem draft (h : s.Unwritten) (hdraft : Draft settings s s') : s'.Unwritten := by
  cases hdraft with
  | report _ => exact h.frame rfl rfl
  | retract _ => exact h.frame rfl rfl
  | create hcreate => exact h.create hcreate
  | reshape e hid hl he => exact h.reshape hid hl he

theorem step (h : s.Unwritten) (hstep : Step settings s s') : s'.Unwritten := by
  cases hstep with
  | draft hdraft => exact h.draft hdraft
  | _ => exact h.frame rfl rfl

end Unwritten

namespace Staged

theorem frame (h : s.Staged db) (hoverlay : s'.db = s.db) (hnew : s'.newTypes = s.newTypes)
    (hreports : ∀ d ∈ s'.diagnostics, d.subsystem ≠ .writeBack) : s'.Staged db := by
  refine ⟨h.toUnwritten.frame hoverlay hnew, ?_, ?_, hreports⟩ <;> rw [hoverlay]
  · exact h.consistent
  · exact h.inner

theorem note (h : s.Staged db) {ds : List Diagnostic} (hds : ∀ d ∈ ds, d.subsystem ≠ .writeBack) :
    Staged db { s with diagnostics := s.diagnostics ++ ds } := by
  refine h.frame rfl rfl ?_
  intro d hmem
  rcases List.mem_append.1 hmem with hmem | hmem
  · exact h.reports d hmem
  · exact hds d hmem

theorem create (h : s.Staged db) {id : StructId} {run : Run}
    (hcreate : s.toRun.createStruct settings = .ok (id, run)) :
    Staged db { s with toRun := run } := by
  obtain ⟨⟨id', o⟩, ho, hrun⟩ := Checked.bind_eq_ok.1 hcreate
  have hunwritten := h.toUnwritten.create hcreate
  rw [h.consistent.create_eq_hold] at ho
  obtain ⟨n, hadd, hhold⟩ := Checked.bind_eq_ok.1 ho
  obtain ⟨hword, _⟩ := Word.add_eq_ok_iff.1 hadd
  cases hhold
  cases hrun
  refine ⟨hunwritten, h.consistent.hold ?_ hword n, h.inner, h.reports⟩
  rfl

theorem draft (h : s.Staged db) (hdraft : Draft settings s s') : s'.Staged db := by
  cases hdraft with
  | report hd => exact h.note (by simpa using hd)
  | retract subject =>
    refine h.frame rfl rfl ?_
    intro d hmem
    exact h.reports d (List.mem_filter.1 hmem).1
  | create hcreate => exact h.create hcreate
  | reshape e hid hl he =>
    exact ⟨h.toUnwritten.reshape hid hl he,
      h.consistent.setLayout hl (LayoutEdit.perform_id he), h.inner, h.reports⟩

theorem step (h : s.Staged db) (hstep : Step settings s s') : s'.Staged db := by
  cases hstep with
  | draft hdraft => exact h.draft hdraft
  | _ => exact h.frame rfl rfl h.reports

theorem moves (h : s.Staged db) (hmoves : Relation.ReflTransGen (Step settings) s s') :
    s'.Staged db := by
  induction hmoves with
  | refl => exact h
  | tail _ hstep ih => exact ih.step hstep

theorem perform (hdb : db.WellKeyed) {c : Context} {op : Operation} (happly : op ≠ .apply)
    {reply : Reply} (h : s.Staged db) (hop : (op.perform c).run s = .ok (reply, s')) :
    s'.Staged db := by
  by_cases hreports : op = .takeDiagnostics
  · subst hreports
    cases hop
    exact h.frame rfl rfl nofun
  by_cases hclear : op = .clear
  · subst hclear
    cases hop
    have hstart : s.clear = start db := congrArg start h.inner
    rw [hstart]
    exact staged_start hdb
  · exact h.moves ((Operation.trails_perform hreports happly hclear).reaches hop)

theorem performAll (hdb : db.WellKeyed) {c : Context} {ops : List Operation}
    (hops : ∀ op ∈ ops, op ≠ .apply) {replies : List Reply} (h : s.Staged db)
    (hs : (Operation.performAll c ops).run s = .ok (replies, s')) : s'.Staged db := by
  induction ops generalizing s replies with
  | nil =>
    cases hs
    exact h
  | cons op rest ih =>
    obtain ⟨reply, u, _, hop, hrest, _⟩ := Operation.performAll_cons_eq_ok.1 hs
    have hu := h.perform hdb (hops op (by simp)) hop
    exact ih (fun other hother => hops other (by simp [hother])) hu hrest

end Staged
end Session

namespace Run

def known? : Resolution → Option Ty
  | .inProgress => none
  | .resolved t => if t.isUnknown then none else some t

/-- The variables of known type, with their types. -/
def knownTypes (r : Run) : Table Variable Ty := r.vars.filterMap fun _ => known?

open Overlay (accepted refusals)

theorem declareResolved_foldl (r : Run) (es : List (Variable × Resolution)) :
    es.foldl (fun r e => r.declareResolved e.1 e.2) r =
      let ts := es.filterMap fun e => (known? e.2).map fun t => (e.1, t)
      { r with
        db := { r.db with declared := r.db.declared.merge (accepted r.db ts) }
        diagnostics := r.diagnostics ++
          (refusals r.db ts).map fun e => refusedWriteBack e.1 e.2 } := by
  induction es generalizing r with
  | nil => simp [accepted, refusals, Table.merge]
  | cons e rest ih =>
    obtain ⟨var, resolution⟩ := e
    rw [List.foldl_cons, ih]
    cases resolution with
    | inProgress => rfl
    | resolved t =>
      cases ht : t.isUnknown with
      | true => simp [declareResolved, known?, ht]
      | false =>
        cases hr : TypeStore.refusal? r.db var t with
        | some cause =>
          simp [declareResolved, known?, ht, TypeStore.declare_eq, hr, accepted, refusals, report]
        | none =>
          -- declarations do not matter to what is declared after them
          have hcongr : ∀ var' t', TypeStore.refusal? (TypeStore.setDeclared r.db var t) var' t' =
              TypeStore.refusal? r.db var' t' := TypeStore.refusal?_congr fun _ => rfl
          have hdeclare : r.declareResolved var (.resolved t) =
              { r with db := TypeStore.setDeclared r.db var t } := by
            simp [declareResolved, ht, TypeStore.declare_eq, hr]
          simp only [hdeclare, accepted, refusals, hcongr]
          simp [known?, ht, hr, TypeStore.setDeclared, Table.merge]

end Run

namespace Session

open Overlay (accepted refusals)

/-- The declarations that a commit makes: known types that the overlay accepts. -/
def declarations (s : Session) : Table Variable Ty :=
  s.knownTypes.filter fun var t => (TypeStore.refusal? s.db var t).isNone

/-- The reports on those that it does not accept. -/
def refusedDeclarations (s : Session) : List Diagnostic :=
  (refusals s.db s.knownTypes.entries).map fun e => Run.refusedWriteBack e.1 e.2

/-- The overlay as it is committed. -/
def declaredOverlay (s : Session) : Overlay := { s.db with declared := s.declarations }

variable {db : Database} {s : Session}

theorem known_of_knownTypes {var : Variable} {t : Ty} (h : s.knownTypes.get? var = some t) :
    s.vars.get? var = some (.resolved t) ∧ t.isUnknown = false := by
  unfold Run.knownTypes at h
  rw [Table.get?_filterMap] at h
  obtain ⟨resolution, hget, hknown⟩ := Option.bind_eq_some_iff.1 h
  cases resolution with
  | inProgress => cases hknown
  | resolved t' =>
    simp only [Run.known?] at hknown
    split at hknown
    · cases hknown
    case isFalse ht =>
      cases hknown
      exact ⟨hget, by simpa using ht⟩

theorem get?_declarations (s : Session) (var : Variable) : s.declarations.get? var =
    (s.knownTypes.get? var).filter fun t => (TypeStore.refusal? s.db var t).isNone :=
  Table.get?_filter _ _ _

theorem Staged.declaredOverlay (h : s.Staged db) : s.declaredOverlay.Consistent := by
  refine ⟨h.consistent.inner, h.consistent.created, h.consistent.own, h.consistent.word,
    h.consistent.held, h.consistent.deleted, ?_, h.consistent.targets⟩
  intro var t ht
  have hdeclared : s.declarations.get? var = some t := ht
  rw [get?_declarations, Option.filter_eq_some_iff] at hdeclared
  exact (known_of_knownTypes hdeclared.1).2

theorem refusal?_declaredOverlay (s : Session) (var : Variable) (t : Ty) :
    TypeStore.refusal? s.declaredOverlay var t = TypeStore.refusal? s.db var t :=
  TypeStore.refusal?_congr (fun _ => rfl) var t

theorem accepted_of_mem_declarations {e : Variable × Ty} (he : e ∈ s.declarations.entries) :
    TypeStore.refusal? s.declaredOverlay e.1 e.2 = none := by
  have hmem : e ∈ s.knownTypes.entries.filter fun e => (TypeStore.refusal? s.db e.1 e.2).isNone :=
    he
  rw [refusal?_declaredOverlay]
  simpa using (List.mem_filter.1 hmem).2

theorem accepted_declarations : accepted s.declaredOverlay s.declarations.entries =
    s.declarations.entries := by
  apply List.filter_eq_self.2
  intro e he
  rw [accepted_of_mem_declarations he]
  rfl

theorem refusals_declarations : refusals s.declaredOverlay s.declarations.entries = [] := by
  apply List.filterMap_eq_nil_iff.2
  intro e he
  rw [accepted_of_mem_declarations he]
  rfl

theorem Unwritten.declare_all (h : s.Unwritten) (edges : List CallEdge) :
    s.vars.entries.foldl (fun r e => r.declareResolved e.1 e.2)
        { s.toRun with newEdges := edges, vars := .empty } =
      { s.toRun with
        newEdges := edges
        vars := .empty
        db := s.declaredOverlay
        diagnostics := s.diagnostics ++ s.refusedDeclarations } := by
  have hdeclared : s.db.declared.merge (accepted s.db s.knownTypes.entries) = s.declarations := by
    rw [h.declared]
    exact Table.merge_empty s.declarations
  have hoverlay : { s.db with
      declared := s.db.declared.merge (accepted s.db s.knownTypes.entries) } =
      s.declaredOverlay := by
    rw [hdeclared]
    rfl
  rw [Run.declareResolved_foldl, ← hoverlay]
  rfl

theorem Unwritten.committed_structs (h : s.Unwritten) (id : StructId) :
    s.declaredOverlay.committed.structs.get? id = s.db.layout? id := by
  refine Overlay.committed_structs ?_ id
  intro id hdeleted
  have hempty : s.declaredOverlay.deleted = .empty := h.deleted
  rw [hempty] at hdeleted
  cases hdeleted

theorem Unwritten.commit_eq_ok (h : s.Unwritten) {p : Except Refusal CommitReport × Overlay}
    (hp : Overlay.commit.run.run s.declaredOverlay = .ok p) (edges : List CallEdge) :
    (Infer.commit edges).run.run s = .ok (.ok {
      callEdges := edges
      variablesTyped := s.declarations.size
      structsCommitted := s.newTypes.toList
      diagnostics := s.diagnostics ++ s.refusedDeclarations },
      Session.start s.declaredOverlay.committed) := by
  have hkeys : s.declaredOverlay.structs.keys = s.newTypes.toList :=
    Table.keys_eq_of_contains h.held
  have htargets : s.declaredOverlay.callTargets = .empty := h.callTargets
  have hword : ∀ {id l}, s.declaredOverlay.structs.get? id = some l → id.index + 1 < Word.bound :=
    Overlay.word_of_commit (o := s.declaredOverlay) h.own hp
  have hcommit := Overlay.commit_eq_committed (o := s.declaredOverlay) h.own hword
    h.committed_structs (by simp [htargets])
  have haccepted : accepted s.declaredOverlay s.declaredOverlay.declared.entries =
      s.declarations.entries := accepted_declarations
  have hrefusals : refusals s.declaredOverlay s.declaredOverlay.declared.entries = [] :=
    refusals_declarations
  rw [haccepted, hrefusals, hkeys] at hcommit
  have hrun : Run.commit.run.run { s.toRun with newEdges := edges } = .ok (.ok {
      variablesTyped := s.declarations.size
      structsCommitted := s.newTypes.toList
      callEdges := edges },
      { Run.start s.declaredOverlay.committed with
        diagnostics := s.diagnostics ++ s.refusedDeclarations }) := by
    have hsize : (s.declarations.entries.map (·.1)).length = s.declarations.size :=
      List.length_map _
    simp only [Run.commit, Edit.run_get_bind, Edit.run_lift_bind, h.declare_all edges, hcommit]
    rw [← hsize]
    rfl
  simp only [Infer.commit, Edit.run_get_bind, Edit.run_lift_bind, hrun]
  rfl

theorem Staged.commit_eq_ok (h : s.Staged db) (edges : List CallEdge) :
    (Infer.commit edges).run.run s = .ok (.ok {
      callEdges := edges
      variablesTyped := s.declarations.size
      structsCommitted := s.newTypes.toList
      diagnostics := s.diagnostics ++ s.refusedDeclarations },
      Session.start s.declaredOverlay.committed) :=
  h.toUnwritten.commit_eq_ok h.declaredOverlay.commit_eq_ok edges

/-- A commit that stops at no fault leaves a new session over the database it has written. -/
theorem Unwritten.of_commit_eq_ok (h : s.Unwritten) {edges : List CallEdge}
    {answer : Except Refusal Summary} {t : Session}
    (hcommit : (Infer.commit edges).run.run s = .ok (answer, t)) :
    t = Session.start s.declaredOverlay.committed ∧ ∃ summary, answer = .ok summary ∧
      summary.structsCommitted = s.newTypes.toList := by
  have hoverlay : ∃ p, Overlay.commit.run.run s.declaredOverlay = .ok p := by
    simp only [Infer.commit, Run.commit, Edit.run_get_bind, Edit.run_lift_bind,
      h.declare_all edges] at hcommit
    obtain ⟨_, hrun, _⟩ := Checked.bind_eq_ok.1 hcommit
    obtain ⟨p, hp, _⟩ := Checked.bind_eq_ok.1 hrun
    exact ⟨p, hp⟩
  obtain ⟨p, hp⟩ := hoverlay
  rw [h.commit_eq_ok hp edges] at hcommit
  cases hcommit
  exact ⟨rfl, _, rfl, rfl⟩

theorem Staged.layout?_new (h : s.Staged db) {id : StructId} (hid : s.isNewType id = true) :
    db.structs.get? id = none ∧ (s.db.layout? id).isSome = true := by
  have hnone : db.structs.get? id = none := by
    rw [← h.inner]
    exact h.consistent.created (by rw [h.created]; exact hid)
  have hheld : (s.db.structs.get? id).isSome = true := (h.held id).trans hid
  refine ⟨hnone, ?_⟩
  rw [h.layout?_eq, h.inner, hnone]
  simpa using hheld

theorem Staged.layout?_old (h : s.Staged db) {id : StructId} (hid : s.isNewType id = false) :
    s.db.layout? id = db.structs.get? id := by
  have hnone := Table.contains_eq_false_iff.1 ((h.held id).trans hid)
  rw [h.layout?_eq, h.inner, hnone]
  rfl

theorem Unwritten.committed_callTargets (h : s.Unwritten) :
    s.declaredOverlay.committed.callTargets = s.db.inner.callTargets := by
  have hdeleted : s.declaredOverlay.deleted = .empty := h.deleted
  have htargets : s.declaredOverlay.callTargets = .empty := h.callTargets
  have hinner : s.declaredOverlay.inner = s.db.inner := rfl
  unfold Overlay.committed
  rw [hdeleted, htargets, hinner]
  rfl

theorem committed_nextId (s : Session) : s.declaredOverlay.committed.nextId =
    Overlay.nextAfter s.db.inner.nextId s.db.structs.values := by
  rw [← (Overlay.deleteAll_frame s.db.inner s.db.deleted.toList).2.2.1]
  rfl

theorem committed_declared (s : Session) (var : Variable) :
    s.declaredOverlay.committed.declared.get? var =
      (s.declarations.get? var <|> s.db.inner.declared.get? var) := by
  have hinner : s.declaredOverlay.inner = s.db.inner := rfl
  have hdeclared : s.declaredOverlay.declared = s.declarations := rfl
  rw [Overlay.committed_declared, hinner, hdeclared]
  cases ht : s.declarations.get? var with
  | none => rfl
  | some t =>
    have hnone := accepted_of_mem_declarations (Table.get?_eq_some_iff.1 ht)
    simp [Option.filter, hnone]

theorem filter_refusedDeclarations (s : Session) (var : Variable) :
    s.refusedDeclarations.filter (fun d => d.subsystem = .writeBack ∧ d.subject = var.text) =
      (((s.knownTypes.get? var).bind (TypeStore.refusal? s.db var)).map
        (Run.refusedWriteBack var)).toList := by
  have hfilter : s.refusedDeclarations.filter
      (fun d => d.subsystem = .writeBack ∧ d.subject = var.text) =
      (s.knownTypes.entries.filter fun e => decide (e.1 = var)).filterMap fun e =>
        (TypeStore.refusal? s.db e.1 e.2).map (Run.refusedWriteBack e.1) := by
    unfold refusedDeclarations refusals
    rw [List.map_filterMap, List.filter_filterMap, List.filterMap_filter]
    congr 1
    funext e
    -- the text of a variable names no other
    have htext : e.1.text = var.text ↔ e.1 = var := Variable.text_injective.eq_iff
    cases TypeStore.refusal? s.db e.1 e.2 with
    | none => simp
    | some cause =>
      have hsubject : (Run.refusedWriteBack e.1 cause).subject = e.1.text := rfl
      have hsubsystem : (Run.refusedWriteBack e.1 cause).subsystem = .writeBack := rfl
      simp [Option.filter, hsubject, hsubsystem, htext]
  rw [hfilter, Table.filter_entries]
  cases s.knownTypes.get? var with
  | none => rfl
  | some t => cases hr : TypeStore.refusal? s.db var t <;> simp [hr]

end Session

/-- Whether a type can be declared: it is known, and reaches no struct or one that exists. -/
def Overlay.admits (o : Overlay) (t : Ty) : Bool :=
  t.isKnown && t.finalStruct?.all (TypeStore.has o)

/-- The refused declarations of a variable that are reported. -/
def Summary.writeBacks (summary : Summary) (var : Variable) : List Diagnostic :=
  summary.diagnostics.filter fun d => d.subsystem = .writeBack ∧ d.subject = var.text

theorem TypeStore.refusal?_eq_none_iff {o : Overlay} {var : Variable} {t : Ty} :
    TypeStore.refusal? o var t = none ↔ o.admits t = true := by
  unfold TypeStore.refusal? Overlay.admits Ty.isKnown
  cases t.isUnknown with
  | true => simp
  | false => cases t.finalStruct? <;> simp [Option.filter]

theorem Overlay.known_of_admits {o : Overlay} {t : Ty} (h : o.admits t = true) :
    t.isUnknown = false := by
  unfold Overlay.admits Ty.isKnown at h
  simpa using (Bool.and_eq_true_iff.1 h).1

theorem TypeStore.refusal?_of_not_admits {o : Overlay} (var : Variable) {t : Ty}
    (ht : t.isUnknown = false) (ho : o.admits t = false) :
    ∃ id, t.finalStruct? = some id ∧ TypeStore.refusal? o var t = some (.unknownStruct id) := by
  unfold Overlay.admits Ty.isKnown at ho
  rw [ht] at ho
  cases hid : t.finalStruct? with
  | none => simp [hid] at ho
  | some id =>
    have hhas : TypeStore.has o id = false := by simpa [hid] using ho
    exact ⟨id, rfl, by simp [TypeStore.refusal?, ht, hid, Option.filter, hhas]⟩

/-- What a commit of the session `found` over `db` leaves behind, and what its summary says. -/
structure Session.WrittenBack (db : Database) (found : Session) (summary : Summary)
    (last : Session) : Prop where
  /-- Every struct that was there keeps its layout. -/
  kept : ∀ id l, db.structs.get? id = some l → last.db.inner.structs.get? id = some l
  /-- The structs of the run were not there, and they are all that is added. -/
  fresh : ∀ id, found.isNewType id = true →
    db.structs.get? id = none ∧ (found.db.layout? id).isSome = true
  added : ∀ id, db.structs.get? id = none → last.db.inner.structs.get? id =
    if found.isNewType id then found.db.layout? id else none
  committed : ∀ id, id ∈ summary.structsCommitted ↔ found.isNewType id = true
  ascending : summary.structsCommitted.Pairwise fun a b => a.index < b.index
  typed : ∀ var t, found.vars.get? var = some (.resolved t) → found.db.admits t = true →
    last.db.inner.declared.get? var = some t ∧ summary.writeBacks var = []
  refused : ∀ var t, found.vars.get? var = some (.resolved t) → t.isKnown = true →
    found.db.admits t = false →
      last.db.inner.declared.get? var = db.declared.get? var ∧
      ∃ id, t.finalStruct? = some id ∧
        summary.writeBacks var = [Run.refusedWriteBack var (.unknownStruct id)]
  untouched : ∀ var, (∀ t, found.vars.get? var = some (.resolved t) → t.isUnknown = true) →
    last.db.inner.declared.get? var = db.declared.get? var ∧ summary.writeBacks var = []
  callTargets : last.db.inner.callTargets = db.callTargets
  counted : summary.variablesTyped =
    found.vars.entries.countP fun e => found.db.admits e.2.type
  clean : last.isClean = true

namespace Session

variable {db : Database} {s : Session} {var : Variable} {t : Ty}

theorem get?_knownTypes (h : s.vars.get? var = some (.resolved t)) (ht : t.isUnknown = false) :
    s.knownTypes.get? var = some t := by
  unfold Run.knownTypes
  rw [Table.get?_filterMap, h]
  simp [Run.known?, ht]

theorem declaration_of_resolution (s : Session) (var : Variable) (r : Resolution) :
    ((Run.known? r).map fun t => (var, t)).filter
        (fun e => (TypeStore.refusal? s.db e.1 e.2).isNone) =
      if s.db.admits r.type then some (var, r.type) else none := by
  cases r with
  | inProgress => rfl
  | resolved t =>
    cases ht : t.isUnknown with
    | true => simp [Run.known?, ht, Resolution.type, Overlay.admits, Ty.isKnown]
    | false =>
      cases ha : s.db.admits t with
      | true =>
        have hnone : TypeStore.refusal? s.db var t = none := TypeStore.refusal?_eq_none_iff.2 ha
        simp [Run.known?, ht, Resolution.type, ha, Option.filter, hnone]
      | false =>
        obtain ⟨id, _, hsome⟩ := TypeStore.refusal?_of_not_admits var ht ha
        simp [Run.known?, ht, Resolution.type, ha, Option.filter, hsome]

theorem size_declarations (s : Session) :
    s.declarations.size = s.vars.entries.countP fun e => s.db.admits e.2.type := by
  have hentries : s.declarations.entries =
      (s.vars.entries.filterMap fun e => (Run.known? e.2).map fun t => (e.1, t)).filter
        fun e => (TypeStore.refusal? s.db e.1 e.2).isNone := rfl
  unfold Table.size
  rw [hentries, List.filter_filterMap]
  simp only [declaration_of_resolution]
  induction s.vars.entries with
  | nil => rfl
  | cons e rest ih => cases ha : s.db.admits e.2.type <;> simp [ha, ih]

theorem Staged.writeBacks (h : s.Staged db) (var : Variable) :
    (s.diagnostics ++ s.refusedDeclarations).filter
        (fun d => d.subsystem = .writeBack ∧ d.subject = var.text) =
      (((s.knownTypes.get? var).bind (TypeStore.refusal? s.db var)).map
        (Run.refusedWriteBack var)).toList := by
  have hnone : s.diagnostics.filter
      (fun d => d.subsystem = .writeBack ∧ d.subject = var.text) = [] := by
    rw [List.filter_eq_nil_iff]
    intro d hd
    simp [h.reports d hd]
  rw [List.filter_append, hnone, List.nil_append, filter_refusedDeclarations]

/-- What is written back does not depend on the reports of the session. -/
theorem WrittenBack.of_note {ds : List Diagnostic} {summary : Summary} {last : Session}
    (h : WrittenBack db { s with diagnostics := ds } summary last) : s.WrittenBack db summary last :=
  ⟨h.kept, h.fresh, h.added, h.committed, h.ascending, h.typed, h.refused, h.untouched,
    h.callTargets, h.counted, h.clean⟩

theorem Staged.writtenBack (h : s.Staged db) (edges : List CallEdge) :
    s.WrittenBack db {
      callEdges := edges
      variablesTyped := s.declarations.size
      structsCommitted := s.newTypes.toList
      diagnostics := s.diagnostics ++ s.refusedDeclarations }
      (Session.start s.declaredOverlay.committed) := by
  have hstructs : ∀ id, s.declaredOverlay.committed.structs.get? id = s.db.layout? id :=
    h.committed_structs
  have hdeclared : ∀ var, s.declaredOverlay.committed.declared.get? var =
      (s.declarations.get? var <|> db.declared.get? var) := by
    rw [← h.inner]
    exact s.committed_declared
  constructor
  case kept =>
    intro id l hl
    have hold : s.isNewType id = false := by
      rw [Bool.eq_false_iff]
      intro hnew
      rw [(h.layout?_new hnew).1] at hl
      cases hl
    exact (hstructs id).trans ((h.layout?_old hold).trans hl)
  case fresh =>
    intro id hid
    exact h.layout?_new hid
  case added =>
    intro id hnone
    refine (hstructs id).trans ?_
    cases hid : s.isNewType id with
    | true => rfl
    | false => exact (h.layout?_old hid).trans hnone
  case committed =>
    intro id
    exact Table.mem_keys_iff
  case ascending => exact (Table.keys_sorted s.newTypes).imp Key.lt_nat.1
  case typed =>
    intro var t hvar hadmits
    have hknown := get?_knownTypes hvar (Overlay.known_of_admits hadmits)
    have hnone : TypeStore.refusal? s.db var t = none := TypeStore.refusal?_eq_none_iff.2 hadmits
    refine ⟨(hdeclared var).trans ?_, (h.writeBacks var).trans ?_⟩
    · simp [get?_declarations, hknown, Option.filter, hnone]
    · simp [hknown, hnone]
  case refused =>
    intro var t hvar ht hadmits
    have hunknown : t.isUnknown = false := by simpa [Ty.isKnown] using ht
    have hknown := get?_knownTypes hvar hunknown
    obtain ⟨id, hid, hrefusal⟩ := TypeStore.refusal?_of_not_admits var hunknown hadmits
    refine ⟨(hdeclared var).trans ?_, id, hid, (h.writeBacks var).trans ?_⟩
    · simp [get?_declarations, hknown, Option.filter, hrefusal]
    · simp [hknown, hrefusal]
  case untouched =>
    intro var hvar
    have hnone : s.knownTypes.get? var = none := by
      cases hknown : s.knownTypes.get? var with
      | none => rfl
      | some t =>
        obtain ⟨hget, ht⟩ := known_of_knownTypes hknown
        rw [hvar t hget] at ht
        cases ht
    refine ⟨(hdeclared var).trans ?_, (h.writeBacks var).trans ?_⟩
    · simp [get?_declarations, hnone]
    · simp [hnone]
  case callTargets => exact h.committed_callTargets.trans (by rw [h.inner])
  case counted => exact size_declarations s
  case clean => rfl

end Session

namespace Infer

variable {c : Context} {s : Session}

theorem run_apply (c : Context) (s : Session) :
    (apply c).run.run s = (do
      let p ← (propagateTracked c).run s
      let q ← (resolveCalls c).run p.2
      (commit q.1).run.run q.2) := by
  have hrun : (apply c).run.run s = (propagateTracked c).run s >>= fun p =>
      (resolveCalls c).run p.2 >>= fun q => (change (commit q.1)).run q.2 := rfl
  simp only [hrun, run_change]

/-- A session that is applied stops only where its own propagation or the resolution of its calls
stops. Otherwise the known types, as they stand after propagation, and the structs of the run are
written back, and nothing else changes. -/
theorem apply_writes_back (c : Context) (db : Database) (hdb : db.WellKeyed)
    (ops : List Operation) (hops : ∀ op ∈ ops, op ≠ .apply) (replies : List Reply) (s : Session)
    (hs : (Operation.performAll c ops).run (Session.start db) = .ok (replies, s)) :
    (∀ fault, (propagateTracked c).run s = .error fault → (apply c).run.run s = .error fault) ∧
    ∀ found, (propagateTracked c).run s = .ok ((), found) →
      (∀ fault, (resolveCalls c).run found = .error fault →
        (apply c).run.run s = .error fault) ∧
      ∀ edges later, (resolveCalls c).run found = .ok (edges, later) →
        ∃ summary last, (apply c).run.run s = .ok (.ok summary, last) ∧
          found.WrittenBack db summary last := by
  have hstaged : s.Staged db := (Session.staged_start hdb).performAll hdb hops hs
  refine ⟨?_, ?_⟩
  · intro fault hfault
    rw [run_apply, hfault]
    rfl
  · intro found hfound
    have hfoundStaged := hstaged.moves (trails_propagateTracked.reaches hfound)
    have hrest : (apply c).run.run s = (resolveCalls c).run found >>= fun q =>
        (commit q.1).run.run q.2 := by
      rw [run_apply, hfound]
      rfl
    refine ⟨?_, ?_⟩
    · intro fault hfault
      rw [hrest, hfault]
      rfl
    · intro edges later hlater
      obtain ⟨ds, hds, rfl⟩ := resolveCalls_eq_ok hlater
      have hnoted := hfoundStaged.note hds
      refine ⟨_, _, ?_, (hnoted.writtenBack edges).of_note⟩
      rw [hrest, hlater]
      exact hnoted.commit_eq_ok edges

/-- One variable points to a struct of the run, the other to a struct that does not exist. -/
theorem apply_writes_back_refused :
    let p : Variable := .local 4096 0
    let q : Variable := .local 4096 1
    let c : Context := {
      program := Program.addFunction {} {
        address := 4096
        locals := [{ name := "p", isArg := true }, { name := "q" }]
        writes := [
          { var := p, chain := [.deref], value := .num 1 4 },
          { var := p, chain := [.add 8, .deref], value := .num 2 4 },
          { var := q, chain := [], value := .cast (.num 0 8) (.structPointer ⟨99⟩) }] }
      settings := {} }
    let node : Layout := { id := ⟨0⟩, name := "node", size := 8 }
    let db : Database := { structs := .ofList [(⟨0⟩, node)], nextId := 1 }
    db.WellKeyed ∧ ∃ replies s summary last,
      (Operation.performAll c [.visitAll]).run (Session.start db) = .ok (replies, s) ∧
      (apply c).run.run s = .ok (.ok summary, last) ∧
      last.db.inner.structs.get? ⟨0⟩ = some node ∧
      last.db.inner.declared.get? p = some (.structPointer ⟨1⟩) ∧
      last.db.inner.declared.get? q = none ∧
      summary.writeBacks q = [Run.refusedWriteBack q (.unknownStruct ⟨99⟩)] ∧
      last.isClean = true := by
  intro p q c node db
  have hdb : db.WellKeyed := Database.wellKeyed_of_entries (by decide) (by decide)
  have heval : (do
      let s ← (Operation.performAll c [.visitAll]).run (Session.start db)
      let found ← (propagateTracked c).run s.2
      let later ← (resolveCalls c).run found.2
      pure (found.2.vars.get? p, found.2.vars.get? q,
        found.2.db.admits (.structPointer ⟨1⟩), found.2.db.admits (.structPointer ⟨99⟩))) =
      (.ok (some (.resolved (.structPointer ⟨1⟩)), some (.resolved (.structPointer ⟨99⟩)),
        true, false) : Checked _) := by
    decide +kernel
  obtain ⟨⟨replies, s⟩, hs, heval⟩ := Checked.bind_eq_ok.1 heval
  obtain ⟨⟨⟨⟩, found⟩, hfound, heval⟩ := Checked.bind_eq_ok.1 heval
  obtain ⟨⟨edges, later⟩, hlater, heval⟩ := Checked.bind_eq_ok.1 heval
  simp only [Checked.pure_eq_ok, Prod.mk.injEq] at heval
  obtain ⟨hp, hq, hnew, hgone⟩ := heval
  obtain ⟨summary, last, happly, hwritten⟩ :=
    ((apply_writes_back c db hdb _ (by simp) replies s hs).2 found hfound).2 edges later hlater
  obtain ⟨hkept, id, hid, hreport⟩ := hwritten.refused q _ hq rfl hgone
  cases hid
  exact ⟨hdb, replies, s, summary, last, hs, happly, hwritten.kept _ _ rfl, (hwritten.typed p _ hp hnew).1,
    hkept, hreport, hwritten.clean⟩

/-- Propagation can overflow: a parameter that is not followed as a pointer is typed by it, and only
then meets a member that would end past the last word. -/
theorem apply_overflows_propagating :
    let p : Variable := .local 4096 0
    let q : Variable := .local 8192 0
    let call : Call := { address := 4112, target := .explicit 8192 }
    let c : Context := {
      program := ((Program.addFunction {} {
        address := 4096
        locals := [{ name := "p", isArg := true }]
        writes := [
          { var := p, chain := [.deref], value := .num 1 4 },
          { var := p, chain := [.add 8, .deref], value := .num 2 4 }]
        casts := [{ var := p, chain := [], argIndex := 0, call }]
        calls := [call] }).addFunction {
        address := 8192
        locals := [{ name := "q", isArg := true }]
        reads := [{ var := q, chain := [.addressOf] }]
        writes := [{ var := q, chain := [.add 1, .deref], value := .num 3 Word.max }] })
      settings := {} }
    ∃ replies s,
      (Operation.performAll c [.typeVariable p]).run (Session.start {}) = .ok (replies, s) ∧
      (apply c).run.run s = .error (.overflow .add) := by
  intro p q call c
  have heval : (do
      let s ← (Operation.performAll c [.typeVariable p]).run (Session.start {})
      pure (((apply c).run.run s.2).map fun _ => ())) =
      (.ok (.error (.overflow .add)) : Checked (Checked Unit)) := by
    decide +kernel
  obtain ⟨⟨replies, s⟩, hs, heval⟩ := Checked.bind_eq_ok.1 heval
  refine ⟨replies, s, hs, ?_⟩
  rw [Checked.pure_eq_ok] at heval
  cases happly : (apply c).run.run s with
  | error fault =>
    rw [happly] at heval
    cases heval
    rfl
  | ok p =>
    rw [happly] at heval
    cases heval

end Infer
end TypeRecovery
