import TypeRecovery.Inference.IndirectCall
import TypeRecovery.Proofs.Faults
import TypeRecovery.Proofs.Overlays

/-!
# Descents through nested structs

A member is looked for, and merged, in the innermost struct around it. Each level of such a descent
lowers the offset, or keeps it and enters a struct that the one before begins with. Unless structs
are nested in a circle, levels of the second kind follow one another at most as often as there are
structs, so the levels that are allowed are enough.
-/
namespace TypeRecovery

section Levels

variable {nesting : List (Nat × Nat)} {ids : List StructId} {id nested : StructId}
  {offset lower : Nat}

open Classical in
/-- How many of the structs are reached from one of them, itself included. -/
noncomputable def rank (nesting : List (Nat × Nat)) (ids : List StructId) (id : StructId) : Nat :=
  ids.countP fun other =>
    decide (Relation.ReflTransGen (fun a b => (a, b) ∈ nesting) id.index other.index)

theorem rank_lt (hc : ¬ Cyclic nesting) (hid : id ∈ ids)
    (hnested : (id.index, nested.index) ∈ nesting) :
    rank nesting ids nested < rank nesting ids id := by
  refine Table.countP_lt_countP ?_ hid ?_ (by simp [Relation.ReflTransGen.refl])
  · intro other _ hother
    simp only [decide_eq_true_eq] at hother ⊢
    exact hother.head hnested
  · -- the way back would close a circle
    simp only [decide_eq_false_iff_not]
    intro hback
    exact hc ⟨id.index, Relation.TransGen.head' hnested hback⟩

/-- A bound on the levels of a descent from an offset of a struct. -/
noncomputable def levels (nesting : List (Nat × Nat)) (ids : List StructId) (id : StructId)
    (offset : Nat) : Nat :=
  offset * (ids.length + 1) + rank nesting ids id

theorem levels_lt : levels nesting ids id offset < (ids.length + 1) * (offset + 1) := by
  have hrank : rank nesting ids id ≤ ids.length := List.countP_le_length
  calc levels nesting ids id offset
    _ = (ids.length + 1) * offset + rank nesting ids id := by rw [levels, Nat.mul_comm]
    _ < (ids.length + 1) * offset + (ids.length + 1) := by omega
    _ = (ids.length + 1) * (offset + 1) := (Nat.mul_succ _ _).symm

theorem levels_lt_of_lower (h : lower < offset) :
    levels nesting ids nested lower < levels nesting ids id offset := by
  have hrank : rank nesting ids nested ≤ ids.length := List.countP_le_length
  have hmul : (lower + 1) * (ids.length + 1) ≤ offset * (ids.length + 1) :=
    Nat.mul_le_mul_right _ h
  unfold levels
  rw [Nat.add_mul] at hmul
  omega

theorem levels_lt_of_member (hc : ¬ Cyclic nesting) (hid : id ∈ ids) {l : Layout}
    (hl : ∀ nested ∈ l.begins, (id.index, nested.index) ∈ nesting) {a : Nat} {m : Member}
    (hm : l.members.get? a = some m) (htype : m.type.structId? = some nested)
    (hle : m.offset ≤ offset) :
    levels nesting ids nested (offset - m.offset) < levels nesting ids id offset := by
  by_cases hzero : m.offset = 0
  · have hbegins : nested ∈ l.begins := by
      refine List.mem_filterMap.2 ⟨m, ?_, by simp [hzero, htype]⟩
      exact List.mem_map.2 ⟨(a, m), Table.get?_eq_some_iff.1 hm, rfl⟩
    have hrank := rank_lt hc hid (hl nested hbegins)
    unfold levels
    rw [hzero, Nat.sub_zero]
    omega
  · exact levels_lt_of_lower (by omega)

end Levels

theorem Layout.get?_of_memberAt {l : Layout} {offset : Nat} {m : Member}
    (h : l.memberAt offset = .ok (some m)) : ∃ a, l.members.get? a = some m := by
  rcases memberAt_eq_ok h with ⟨_, hfound⟩ | ⟨a, n, hfloor, _, hfound⟩
  · cases hfound
  · split at hfound
    · cases hfound
      exact ⟨a, (Table.of_floor?_eq_some hfloor).1⟩
    · cases hfound

namespace TypeStore

variable {σ : Type} [TypeStore σ] {s : σ}

/-- Every struct that has a layout is listed. -/
def Lists (s : σ) : Prop := ∀ {id l}, layout? s id = some l → id ∈ structIds s

theorem mem_nesting {id nested : StructId} {l : Layout} (hid : id ∈ structIds s)
    (hl : layout? s id = some l) (hnested : nested ∈ l.begins) :
    (id.index, nested.index) ∈ nesting s := by
  refine List.mem_flatMap.2 ⟨id, hid, ?_⟩
  rw [hl]
  exact List.mem_map.2 ⟨nested, hnested, rfl⟩

/-- A struct has another one by value at its start. -/
def StartsWith (s : σ) (outer inner : StructId) : Prop :=
  ∃ l, layout? s outer = some l ∧ inner ∈ l.begins

theorem startsWith_of_mem_nesting {outer inner : Nat} (h : (outer, inner) ∈ nesting s) :
    StartsWith s ⟨outer⟩ ⟨inner⟩ := by
  obtain ⟨id, _, hnested⟩ := List.mem_flatMap.1 h
  cases hl : layout? s id with
  | none =>
    rw [hl] at hnested
    cases hnested
  | some l =>
    rw [hl] at hnested
    obtain ⟨nested, hbegins, hpair⟩ := List.mem_map.1 hnested
    cases hpair
    exact ⟨l, hl, hbegins⟩

theorem circle_of_cyclic (h : Cyclic (nesting s)) :
    ∃ id, Relation.TransGen (StartsWith s) id id := by
  obtain ⟨index, hcircle⟩ := h
  refine ⟨⟨index⟩, ?_⟩
  exact Relation.TransGen.lift StructId.mk (fun _ _ => startsWith_of_mem_nesting) _ _ hcircle

end TypeStore

section Steps

open Checked (stops_pure stops_optionBind)

variable {σ : Type} [TypeStore σ] {s : σ} {F : Fault → Prop}
  (hmember : ∀ id offset, Checked.Stops F (memberStartingAt s id offset).run)
  (hsize : ∀ t, Checked.Stops F (TypeStore.sizeOf s t))
include hmember

include hsize in
theorem Cursor.stops_step (c : Cursor) (step : UseStep) :
    Checked.Stops F (c.step s step).run := by
  cases step with
  | add n => exact stops_pure _
  | addressOf => exact stops_pure _
  | deref =>
    refine stops_optionBind (stops_pure _) fun target _ => ?_
    dsimp only
    by_cases hpending : c.pending < 0
    · simp only [hpending, if_true]
      split
      · exact stops_pure none
      · exact stops_pure none
    · simp only [hpending, if_false]
      split
      · exact stops_optionBind (hmember _ _) fun _ _ => stops_pure _
      · refine stops_optionBind (hsize target) fun size _ => ?_
        split
        · exact stops_pure none
        · exact stops_pure _

theorem Cursor.stops_finish (c : Cursor) : Checked.Stops F (c.finish s).run := by
  unfold Cursor.finish
  split
  · exact stops_pure _
  · split
    · exact stops_pure none
    · refine stops_optionBind (stops_pure _) fun id _ => ?_
      exact stops_optionBind (hmember id _) fun _ _ => stops_pure _

include hsize in
theorem Chain.stops_walk_of (chain : Chain) (start : Ty) :
    Checked.Stops F (chain.walk s start).run := by
  refine stops_optionBind ?_ fun c _ => c.stops_finish hmember
  generalize ({ type := start } : Cursor) = cursor
  induction chain generalizing cursor with
  | nil => exact stops_pure _
  | cons step rest ih =>
    rw [List.foldlM_cons]
    exact stops_optionBind (cursor.stops_step hmember hsize step) fun next _ => ih next

end Steps

section Walks

open Checked (stops_pure stops_bind stops_optionBind)

variable {σ : Type} [TypeStore σ] {s : σ} {F : Fault → Prop} (hs : TypeStore.Lists s)
  (hend : Cyclic (TypeStore.nesting s) → F (.endless (TypeStore.nesting s)))

section Members

variable (hadd : F (.overflow .add))
  (hsub : ∀ {id l m offset}, TypeStore.layout? s id = some l → l.memberAt offset = .ok (some m) →
    Checked.Stops F (Word.sub offset m.offset))
include hs hend hadd hsub

theorem stops_memberStartingWithin (fuel : Nat) (id : StructId) (offset : Nat)
    (hfuel : ¬ Cyclic (TypeStore.nesting s) →
      levels (TypeStore.nesting s) (TypeStore.structIds s) id offset < fuel) :
    Checked.Stops F (memberStartingWithin s fuel id offset).run := by
  induction fuel generalizing id offset with
  | zero =>
    rintro _ ⟨⟩
    refine hend ?_
    by_contra hc
    exact absurd (hfuel hc) (by omega)
  | succ fuel ih =>
    refine stops_optionBind (stops_pure _) fun l hl => ?_
    have hlayout : TypeStore.layout? s id = some l := Except.ok.inj hl
    refine stops_optionBind (Layout.stops_memberAt_of hadd l offset) fun m hm => ?_
    split
    · exact stops_pure _
    · refine stops_optionBind (stops_pure _) fun nested hnested => ?_
      have htype : m.type.structId? = some nested := Except.ok.inj hnested
      refine stops_optionBind ?_ fun lower hlower => ?_
      · exact stops_bind (hsub hlayout hm) fun _ _ => stops_pure _
      · obtain ⟨_, hlower, heq⟩ := Checked.bind_eq_ok.1 hlower
        cases heq
        obtain ⟨hle, rfl⟩ := Word.sub_eq_ok_iff.1 hlower
        obtain ⟨a, ha⟩ := Layout.get?_of_memberAt hm
        refine ih nested _ fun hc => ?_
        have hlt := levels_lt_of_member hc (hs hlayout)
          (fun _ h => TypeStore.mem_nesting (hs hlayout) hlayout h) ha htype hle
        have hbound := hfuel hc
        omega

theorem stops_memberStartingAt (id : StructId) (offset : Nat) :
    Checked.Stops F (memberStartingAt s id offset).run :=
  stops_memberStartingWithin hs hend hadd hsub _ id offset fun _ => levels_lt

end Members

variable [Fault.Overflows F]
include hs hend

/-- A walk stops without an answer only over structs that are nested in a circle, or at an
overflow. -/
theorem Chain.stops_walk (chain : Chain) (start : Ty) :
    Checked.Stops F (chain.walk s start).run :=
  chain.stops_walk_of (stops_memberStartingAt hs hend (Fault.Overflows.overflow _)
    fun _ _ => Word.stops_sub _ _) (TypeStore.stops_sizeOf s) start

omit hend [Fault.Overflows F] in
theorem Chain.genuine_walk (chain : Chain) (start : Ty) :
    Checked.Genuine (chain.walk s start).run :=
  Chain.stops_walk hs id chain start

end Walks

theorem Overlay.lists (o : Overlay) : TypeStore.Lists o := by
  intro id l hl
  have hdeleted : o.deleted.contains id = false := by
    by_contra hd
    rw [Bool.not_eq_false] at hd
    exact absurd hl (by simp [TypeStore.layout?, layout?, hd])
  have hsome : (o.structs.get? id <|> o.inner.structs.get? id) = some l := by
    rw [← layout?_of_not_deleted hdeleted]
    exact hl
  refine Table.mem_keys_iff.2 ?_
  simp only [KeySet.ofKeys, KeySet.contains_addAll, Bool.or_eq_true, decide_eq_true_eq,
    List.mem_filter, Table.mem_keys_iff, hdeleted, Bool.not_false, and_true]
  cases hown : o.structs.get? id with
  | some _ => exact .inl (Table.contains_of_get? hown)
  | none =>
    rw [hown] at hsome
    exact .inr (.inl (Table.contains_of_get? hsome))

theorem stops_targetOfOrigin {F : Fault → Prop} [Fault.Overflows F] {r : Run}
    (hend : Cyclic (TypeStore.nesting r.db) → F (.endless (TypeStore.nesting r.db))) (c : Context)
    (origin : Option PointerOrigin) : Checked.Stops F (targetOfOrigin c r origin) := by
  cases origin with
  | none => exact Checked.stops_pure _
  | some origin =>
    unfold targetOfOrigin
    dsimp only
    split
    · exact Checked.stops_pure _
    · refine Checked.stops_bind (Chain.stops_walk r.db.lists hend _ _) fun target _ => ?_
      split
      · exact Checked.stops_pure _
      · split <;> exact Checked.stops_pure _

theorem CallFailure.stops_message {F : Fault → Prop} [Fault.Overflows F] (db : Overlay)
    (failure : CallFailure) : Checked.Stops F (failure.message db) := by
  cases failure with
  | noMember chain type =>
    exact Checked.stops_bind (TypeStore.stops_render db type) fun _ _ => Checked.stops_pure _
  | _ => exact Checked.stops_pure _

/-- Nothing changes but structs, of which no new one is forgotten, and diagnostics. -/
def Session.Kept (s t : Session) : Prop :=
  ∃ db newTypes diagnostics, (∀ id, s.newTypes.contains id = true → newTypes.contains id = true) ∧
    t = { s with db, newTypes, diagnostics }

instance : Std.Refl Session.Kept where
  refl s := ⟨s.db, s.newTypes, s.diagnostics, fun _ h => h, rfl⟩

instance : IsTrans Session Session.Kept where
  trans := by
    rintro s _ _ ⟨_, _, _, h, rfl⟩ ⟨db, newTypes, diagnostics, h', rfl⟩
    exact ⟨db, newTypes, diagnostics, fun id hid => h' id (h id hid), rfl⟩

theorem Session.kept_report (s : Session) (d : Diagnostic) :
    s.Kept { s with toRun := s.toRun.report d } :=
  ⟨s.db, s.newTypes, _, fun _ h => h, rfl⟩

/-- Every struct was there in `o` and begins with nothing that it did not begin with there. -/
def Overlay.Within (o o' : Overlay) : Prop :=
  ∀ {id l'}, o'.layout? id = some l' →
    ∃ l, o.layout? id = some l ∧ ∀ nested ∈ l'.begins, nested ∈ l.begins

theorem Layout.begins_of_addMember {l l' : Layout} {offset : Nat} {answer : Except Refusal Bool}
    (h : (addMember offset).run.run l = .ok (answer, l')) :
    ∀ nested ∈ l'.begins, nested ∈ l.begins := by
  rcases addMember_eq_ok h with ⟨_, _, rfl⟩ | ⟨_, _, _, rfl⟩
  · exact fun _ hnested => hnested
  · intro nested hnested
    obtain ⟨m, hm, hbegin⟩ := List.mem_filterMap.1 hnested
    obtain ⟨⟨a, _⟩, ha, rfl⟩ := List.mem_map.1 hm
    have hget := Table.get?_eq_some_iff.2 ha
    rw [Table.get?_insert] at hget
    split at hget
    · -- a placeholder has no type yet
      cases hget
      have hnone : (Member.placeholder offset).type.structId? = none := rfl
      simp [hnone] at hbegin
    · exact List.mem_filterMap.2
        ⟨_, List.mem_map.2 ⟨(a, _), Table.get?_eq_some_iff.1 hget, rfl⟩, hbegin⟩

theorem Overlay.Within.addMember {o o' o'' : Overlay} {id : StructId} {offset : Nat}
    {answer : Except Refusal Bool} (ho : o.Within o')
    (h : (provisional id (TypeStore.addMember id offset)).run.run o' = .ok (answer, o'')) :
    o.Within o'' := by
  simp only [provisional, Edit.run_get_bind] at h
  split at h
  case isFalse =>
    cases h
    exact ho
  case isTrue =>
    rcases TypeStore.editLayout_eq_ok h with ⟨_, _, rfl⟩ | ⟨l', l'', hl', hadd, rfl⟩
    · exact ho
    · intro id' l hl
      rw [layout?_setLayout hl'] at hl
      split at hl
      case isTrue heq =>
        cases hl
        subst heq
        obtain ⟨l₀, hl₀, hbegins⟩ := ho hl'
        exact ⟨l₀, hl₀, fun _ hn => hbegins _ (Layout.begins_of_addMember hadd _ hn)⟩
      case isFalse => exact ho hl

theorem Merge.enclosing_eq_some {l : Layout} {offset size relative : Nat} {nested : StructId}
    (h : enclosing l offset size = .ok (some (nested, relative))) :
    ∃ a m, l.members.get? a = some m ∧ m.type.structId? = some nested ∧
      Word.sub offset m.offset = .ok relative := by
  obtain ⟨found, hfound, h⟩ := Checked.bind_eq_ok.1 h
  cases found with
  | none => cases h
  | some m =>
    obtain ⟨a, hm⟩ := Layout.get?_of_memberAt hfound
    dsimp only at h
    split at h
    · cases h
    case h_2 htype =>
      split at h
      · obtain ⟨_, hsub, h⟩ := Checked.bind_eq_ok.1 h
        cases h
        exact ⟨a, m, hm, htype, hsub⟩
      · cases h

/-- A plan does nothing without a layout or a size. Otherwise it refuses what lies in the way, and
then looks for a struct member around the offset. -/
theorem Merge.plan_eq_ok {db : Overlay} {id : StructId} {offset : Nat} {type : Ty} {merge : Merge}
    (h : plan db id offset type = .ok merge) :
    (merge = .nothing ∧ (db.layout? id = none ∨ TypeStore.sizeOf db type = .ok none ∨
      TypeStore.sizeOf db type = .ok (some 0))) ∨
    ∃ l size, db.layout? id = some l ∧ TypeStore.sizeOf db type = .ok (some size) ∧ 0 < size ∧
      ((∃ next message, obstacle l offset size = .ok (some next) ∧
          merge = .refuse (subject l.name offset) message) ∨
        obstacle l offset size = .ok none ∧ ∃ found, enclosing l offset size = .ok found ∧
          merge = match found with
            | some (nested, relative) => .descend nested relative
            | none => .place l.name) := by
  unfold plan at h
  split at h
  case isTrue hunknown =>
    cases h
    cases type <;> cases hunknown
    exact .inl ⟨rfl, .inr (.inl rfl)⟩
  case isFalse =>
    obtain ⟨size, hsize, h⟩ := Checked.bind_eq_ok.1 h
    cases size with
    | none =>
      cases h
      exact .inl ⟨rfl, .inr (.inl hsize)⟩
    | some size =>
      cases hl : db.layout? id with
      | none =>
        rw [hl] at h
        cases h
        exact .inl ⟨rfl, .inl rfl⟩
      | some l =>
        rw [hl] at h
        dsimp only at h
        split at h
        case isTrue hzero =>
          cases h
          exact .inl ⟨rfl, .inr (.inr (hzero ▸ hsize))⟩
        case isFalse hpos =>
          refine .inr ⟨l, size, rfl, hsize, Nat.pos_of_ne_zero hpos, ?_⟩
          obtain ⟨next, hnext, h⟩ := Checked.bind_eq_ok.1 h
          cases next with
          | some next =>
            obtain ⟨text, _, h⟩ := Checked.bind_eq_ok.1 h
            cases h
            exact .inl ⟨next, _, hnext, rfl⟩
          | none =>
            obtain ⟨found, hfound, h⟩ := Checked.bind_eq_ok.1 h
            refine .inr ⟨hnext, found, hfound, ?_⟩
            cases found with
            | none => exact (Except.ok.inj h).symm
            | some found => exact (Except.ok.inj h).symm

theorem Merge.plan_eq_descend {db : Overlay} {id nested : StructId} {offset relative : Nat}
    {type : Ty} (h : plan db id offset type = .ok (.descend nested relative)) :
    ∃ l a m, db.layout? id = some l ∧ l.members.get? a = some m ∧
      m.type.structId? = some nested ∧ m.offset ≤ offset ∧ relative = offset - m.offset := by
  rcases plan_eq_ok h with ⟨hmerge, _⟩ | ⟨l, size, hl, _, _, ⟨_, _, _, hmerge⟩ |
    ⟨_, found, hfound, hmerge⟩⟩
  · cases hmerge
  · cases hmerge
  · cases found with
    | none => cases hmerge
    | some found =>
      cases hmerge
      obtain ⟨a, m, hm, htype, hsub⟩ := enclosing_eq_some hfound
      obtain ⟨hle, hrelative⟩ := Word.sub_eq_ok_iff.1 hsub
      exact ⟨l, a, m, hl, hm, htype, hle, hrelative⟩

namespace Infer

variable {α : Type} {s : Session} {F : Fault → Prop}

theorem ends_report (d : Diagnostic) : EndsAt F s (report d) fun _ t => s.Kept t :=
  ends_modify (s.kept_report d)

theorem ends_takeDiagnostics : Ends s takeDiagnostics fun _ t => s.Kept t :=
  ends_get_bind (ends_set_bind (ends_pure ⟨s.db, s.newTypes, [], fun _ h => h, rfl⟩))

theorem ends_edit {change : Edit Overlay α} (h : change.Stops F) :
    EndsAt F s (edit change) fun r t => change.run.run s.db = .ok (r, t.db) ∧ s.Kept t := by
  refine ends_get_bind (ends_lift_bind (h s.db) ?_)
  rintro ⟨r, db⟩ hrun
  refine ends_bind (ends_set (Q := fun _ t => t = { s with db }) rfl) ?_
  rintro _ _ rfl
  exact ends_pure ⟨hrun, db, s.newTypes, s.diagnostics, fun _ h => h, rfl⟩

theorem ends_addMemberTypeWithin [Fault.Overflows F] {o : Overlay}
    (hend : Cyclic (TypeStore.nesting o) → F (.endless (TypeStore.nesting o))) (fuel : Nat)
    (id : StructId) (offset : Nat) (type : Ty) (ho : o.Within s.db)
    (hfuel : ¬ Cyclic (TypeStore.nesting o) →
      levels (TypeStore.nesting o) o.structIds id offset < fuel) :
    EndsAt F s (addMemberTypeWithin (TypeStore.nesting o) fuel id offset type)
      fun _ t => s.Kept t := by
  induction fuel generalizing s id offset with
  | zero =>
    refine hend ?_
    by_contra hc
    exact absurd (hfuel hc) (by omega)
  | succ fuel ih =>
    apply ends_get_bind
    split
    · exact ends_bind (ends_report _) fun _ t ht => ends_pure ht
    · have hadd := ends_edit (F := F) (s := s) (Overlay.stops_provisional id
        (TypeStore.stops_editLayout id (Layout.stops_addMember offset)))
      refine ends_bind hadd ?_
      rintro r t ⟨hrun, hst⟩
      cases r with
      | error cause => exact (ends_report _).imp fun _ u htu => IsTrans.trans _ _ _ hst htu
      | ok added =>
        refine ends_get_bind (ends_lift_bind (Merge.stops_plan _ _ _ _) fun merge hplan => ?_)
        have hwithin : o.Within t.db := ho.addMember hrun
        cases merge with
        | nothing => exact ends_pure hst
        | refuse subject message =>
          exact (ends_report _).imp fun _ u htu => IsTrans.trans _ _ _ hst htu
        | descend nested relative =>
          obtain ⟨l', a, m, hl', hm, htype, hle, rfl⟩ := Merge.plan_eq_descend hplan
          obtain ⟨l, hl, hbegins⟩ := hwithin hl'
          have hid : id ∈ o.structIds := o.lists hl
          have hdescent := ih nested (offset - m.offset) hwithin fun hc => by
            have hlt := levels_lt_of_member hc hid
              (fun _ hn => TypeStore.mem_nesting hid hl (hbegins _ hn)) hm htype hle
            have hbound := hfuel hc
            omega
          exact hdescent.imp fun _ u htu => IsTrans.trans _ _ _ hst htu
        | place name =>
          have hset := ends_edit (F := F) (s := t) (Overlay.stops_provisional id
            (TypeStore.stops_setMemberType id offset type))
          refine ends_bind hset ?_
          rintro r u ⟨_, htu⟩
          have hsu : s.Kept u := IsTrans.trans _ _ _ hst htu
          cases r with
          | ok _ => exact ends_pure hsu
          | error cause => exact (ends_report _).imp fun _ v huv => IsTrans.trans _ _ _ hsu huv

theorem endsAt_addMemberType [Fault.Overflows F]
    (hend : Cyclic (TypeStore.nesting s.db) → F (.endless (TypeStore.nesting s.db)))
    (id : StructId) (offset : Nat) (type : Ty) :
    EndsAt F s (addMemberType id offset type) fun _ t => s.Kept t :=
  ends_get_bind (ends_addMemberTypeWithin hend _ id offset type
    (fun hl => ⟨_, hl, fun _ hn => hn⟩) fun _ => levels_lt)

theorem ends_addMemberType (id : StructId) (offset : Nat) (type : Ty) :
    Ends s (addMemberType id offset type) fun _ t => s.Kept t :=
  endsAt_addMemberType (fun h => h) id offset type

theorem ends_sizeFromCast (id : StructId) (argType : Ty) :
    Ends s (sizeFromCast id argType) fun _ t => s.Kept t := by
  apply ends_get_bind
  split
  · exact ends_pure (refl s)
  · split
    · exact ends_pure (refl s)
    · split
      · exact ends_pure (refl s)
      · split
        · exact ends_pure (refl s)
        · refine ends_bind (ends_edit (Overlay.stops_provisional id
            (TypeStore.stops_editLayout id (Layout.stops_maximizeSize _)))) ?_
          rintro _ t ⟨_, ht⟩
          exact ends_pure ht

theorem ends_addWrite (id : StructId) (w : Write) :
    Ends s (addWrite id w) fun _ t => s.Kept t := by
  unfold addWrite
  split
  · exact ends_addMemberType id _ _
  · exact ends_addMemberType id _ _
  · exact ends_pure (refl s)

theorem ends_addRead (id : StructId) (r : Read) :
    Ends s (addRead id r) fun _ t => s.Kept t := by
  unfold addRead
  split
  · exact ends_addMemberType id _ _
  · exact ends_addMemberType id _ _
  · exact ends_addMemberType id _ _
  · exact ends_pure (refl s)
  · exact ends_pure (refl s)

theorem ends_addCast (id : StructId) (k : Cast) :
    Ends s (addCast id k) fun _ t => s.Kept t := by
  unfold addCast
  split
  · exact ends_sizeFromCast id _
  · exact ends_addMemberType id _ _
  · exact ends_addMemberType id _ _
  · exact ends_addMemberType id _ _
  · exact ends_pure (refl s)

theorem ends_addUses (uses : Uses) (type : Ty) :
    Ends s (addUses uses type) fun _ t => s.Kept t := by
  unfold addUses
  split
  · exact ends_pure (refl s)
  case h_2 id _ =>
    refine ends_bind (ends_forM_move fun w _ t _ => ends_addWrite id w) fun _ t hst => ?_
    refine ends_bind (ends_forM_move fun r _ t _ => ends_addRead id r) fun _ u htu => ?_
    refine (ends_forM_move fun k _ t _ => ends_addCast id k).imp fun _ v huv => ?_
    exact IsTrans.trans _ _ _ hst (IsTrans.trans _ _ _ htu huv)

theorem ends_createStruct [Fault.Overflows F] (settings : Settings) :
    EndsAt F s (createStruct settings) fun _ t => s.Kept t := by
  refine ends_get_bind (ends_lift_bind (Run.stops_createStruct settings _) ?_)
  rintro ⟨id, run⟩ hcreate
  obtain ⟨⟨_, db⟩, _, hrun⟩ := Checked.bind_eq_ok.1 hcreate
  cases hrun
  refine ends_set_bind (ends_pure ⟨db, _, s.diagnostics, ?_, rfl⟩)
  intro other hother
  exact KeySet.contains_add_of_contains hother id

theorem ends_typeByUses [Fault.Overflows F] (settings : Settings) (var : Variable) (uses : Uses) :
    EndsAt F s (typeByUses settings var uses) fun _ t => s.Kept t := by
  refine ends_get_bind (ends_lift_bind (Verdict.stops_ofUses _ _) fun verdict _ => ?_)
  cases verdict with
  | type t => exact ends_pure (refl s)
  | unknown reason => exact ends_bind (ends_report _) fun _ t ht => ends_pure ht
  | newStruct => exact ends_bind (ends_createStruct settings) fun _ t ht => ends_pure ht

theorem ends_callee? (c : Context) (call : Call) :
    Ends s (callee? c call) fun _ t => t = s := by
  unfold callee?
  split
  · exact ends_pure rfl
  · exact ends_pure rfl
  · split
    · exact ends_pure rfl
    · refine ends_get_bind (ends_lift_bind (stops_targetOfOrigin id _ _) fun found _ => ?_)
      cases found with
      | ok target => exact ends_pure rfl
      | error failure => exact ends_pure rfl

theorem ends_indirectTarget (c : Context) (call : Call) :
    Ends s (indirectTarget c call) fun _ t => s.Kept t := by
  unfold indirectTarget
  split
  · refine ends_get_bind (ends_lift_bind (stops_targetOfOrigin id _ _) fun found _ => ?_)
    cases found with
    | ok target => exact ends_pure (refl s)
    | error failure =>
      refine ends_lift_bind (failure.stops_message s.db) fun message _ => ?_
      exact ends_bind (ends_report _) fun _ t ht => ends_pure ht
  · exact ends_pure (refl s)

end Infer
end TypeRecovery
