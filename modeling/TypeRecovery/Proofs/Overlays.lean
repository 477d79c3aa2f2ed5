import TypeRecovery.Store.Overlay
import TypeRecovery.Proofs.Stores

/-!
# Overlays as databases

An overlay spreads one map of structs over four collections and the database below. `Consistent`
says how these fit together after any run of changes. Under it an overlay answers every question
like a database to which the same changes were made directly.
-/
namespace TypeRecovery

/-- Structs are stored under their own ids, below the id that comes next, which is a word. -/
structure Database.WellKeyed (db : Database) : Prop where
  own : ∀ {id l}, db.structs.get? id = some l → l.id = id
  below : ∀ {id l}, db.structs.get? id = some l → id.index < db.nextId
  word : db.nextId < Word.bound

theorem Database.wellKeyed_of_entries {db : Database}
    (h : ∀ e ∈ db.structs.entries, e.2.id = e.1 ∧ e.1.index < db.nextId)
    (hword : db.nextId < Word.bound) : db.WellKeyed where
  own hl := (h _ (Table.get?_eq_some_iff.1 hl)).1
  below hl := (h _ (Table.get?_eq_some_iff.1 hl)).2
  word := hword

namespace Overlay

structure Consistent (o : Overlay) : Prop where
  inner : o.inner.WellKeyed
  /-- What counts as created is new. -/
  created : ∀ {id}, o.created.contains id = true → o.inner.structs.get? id = none
  own : ∀ {id l}, o.structs.get? id = some l → l.id = id
  word : ∀ {id l}, o.structs.get? id = some l → id.index + 1 < Word.bound
  /-- What is held here is new or a copy. -/
  held : ∀ {id l}, o.structs.get? id = some l →
    o.created.contains id = true ∨ o.inner.structs.contains id = true
  /-- Only structs of the database are deleted, and none of them is held here. -/
  deleted : ∀ {id}, o.deleted.contains id = true →
    o.inner.structs.contains id = true ∧ o.structs.get? id = none
  declared : ∀ {var t}, o.declared.get? var = some t → t.isUnknown = false
  targets : ∀ {r n}, o.callTargets.get? r = some n → (o.layout? r.struct).isSome = true

variable {o o' : Overlay} {id : StructId}

theorem layout?_of_not_deleted (h : o.deleted.contains id = false) :
    o.layout? id = (o.structs.get? id <|> o.inner.structs.get? id) := by
  simp [layout?, h]

theorem layout?_of_deleted (h : o.deleted.contains id = true) : o.layout? id = none := by
  simp [layout?, h]

theorem not_deleted_of_layout? {l : Layout} (h : o.layout? id = some l) :
    o.deleted.contains id = false := by
  cases hd : o.deleted.contains id with
  | false => rfl
  | true =>
    rw [layout?_of_deleted hd] at h
    cases h

theorem deleted_of_layout? (hin : o.inner.structs.contains id = true)
    (hnone : (o.layout? id).isSome = false) : o.deleted.contains id = true := by
  cases hd : o.deleted.contains id with
  | true => rfl
  | false =>
    rw [layout?_of_not_deleted hd] at hnone
    rw [Table.contains] at hin
    cases hs : o.structs.get? id <;> simp [hs, hin] at hnone

theorem Consistent.not_deleted_of_fresh (ho : o.Consistent) (h : o.inner.structs.get? id = none) :
    o.deleted.contains id = false := by
  cases hd : o.deleted.contains id with
  | false => rfl
  | true =>
    have hin := (ho.deleted hd).1
    rw [Table.contains, h] at hin
    cases hin

theorem Consistent.next_fresh (ho : o.Consistent) : o.inner.structs.get? ⟨o.next⟩ = none := by
  cases h : o.inner.structs.get? ⟨o.next⟩ with
  | none => rfl
  | some l =>
    have hlt := ho.inner.below h
    simp only [next] at hlt
    omega

theorem Consistent.layout_own (ho : o.Consistent) {l : Layout} (h : o.layout? id = some l) :
    l.id = id ∧ id.index + 1 < Word.bound := by
  rw [layout?_of_not_deleted (not_deleted_of_layout? h)] at h
  cases hs : o.structs.get? id with
  | some l' =>
    rw [hs] at h
    obtain rfl : l' = l := Option.some.inj h
    exact ⟨ho.own hs, ho.word hs⟩
  | none =>
    rw [hs] at h
    have hin : o.inner.structs.get? id = some l := h
    have hlt := ho.inner.below hin
    have hword := ho.inner.word
    exact ⟨ho.inner.own hin, by omega⟩

/-- What is set here belongs to a struct that exists, so not to a deleted one. -/
theorem Consistent.callTargets_of_deleted (ho : o.Consistent) {r : MemberRef}
    (hd : o.deleted.contains r.struct = true) : o.callTargets.get? r = none := by
  cases ht : o.callTargets.get? r with
  | none => rfl
  | some n =>
    have hsome := ho.targets ht
    rw [layout?_of_deleted hd] at hsome
    cases hsome

theorem consistent_ofDatabase {db : Database} (h : db.WellKeyed) : (ofDatabase db).Consistent where
  inner := h
  created h := nomatch h
  own h := nomatch h
  word h := nomatch h
  held h := nomatch h
  deleted h := nomatch h
  declared h := nomatch h
  targets h := nomatch h

/-- Holds a layout here, whatever was done to the struct before. Creating, inserting and changing a
struct all come down to this. -/
def hold (o : Overlay) (id : StructId) (l : Layout) (nextId : Nat) : Overlay :=
  { o with
    created := if o.inner.structs.contains id then o.created else o.created.add id
    deleted := o.deleted.erase id
    nextId
    structs := o.structs.insert id l }

theorem insert_eq_hold (o : Overlay) (l : Layout) : o.insert l =
    (do return o.hold l.id l (max o.nextId (← Word.add l.id.index 1))) := rfl

theorem Consistent.create_eq_hold (ho : o.Consistent) (name : Option String) :
    o.create name = (do
      let nextId ← Word.add o.next 1
      let name := name.getD (defaultStructName o.next)
      return (⟨o.next⟩, o.hold ⟨o.next⟩ { id := ⟨o.next⟩, name } nextId)) := by
  have hfresh := ho.next_fresh
  have hcreated : o.inner.structs.contains ⟨o.next⟩ = false := Table.contains_eq_false_iff.2 hfresh
  have hdeleted := Table.erase_eq_self (ho.not_deleted_of_fresh hfresh)
  simp [create, hold, hcreated, hdeleted]

theorem Consistent.setLayout_eq_hold (ho : o.Consistent) {l : Layout} (h : o.layout? id = some l)
    (l' : Layout) : TypeStore.setLayout o id l' = o.hold id l' o.nextId := by
  have hnot := not_deleted_of_layout? h
  have hdeleted := Table.erase_eq_self hnot
  have hcreated : (if o.inner.structs.contains id then o.created else o.created.add id) =
      o.created := by
    split
    case isTrue => rfl
    case isFalse hin =>
      apply KeySet.add_eq_self
      rw [layout?_of_not_deleted hnot] at h
      have hnone : o.inner.structs.get? id = none :=
        Table.contains_eq_false_iff.1 (by simpa using hin)
      have hs : o.structs.get? id = some l := by simpa [hnone] using h
      rcases ho.held hs with hc | hc
      · exact hc
      · exact absurd hc hin
  unfold hold
  rw [hcreated, hdeleted]
  rfl

theorem layout?_setLayout {l : Layout} (hl : o.layout? id = some l) (l' : Layout)
    (id' : StructId) : layout? (TypeStore.setLayout o id l') id' =
      if id' = id then some l' else o.layout? id' := by
  have hdeleted := not_deleted_of_layout? hl
  simp only [layout?, TypeStore.setLayout, Table.get?_insert]
  by_cases heq : id' = id
  · simp [heq, hdeleted]
  · simp [heq]

theorem layout?_hold (o : Overlay) (id : StructId) (l : Layout) (n : Nat) (id' : StructId) :
    (o.hold id l n).layout? id' = if id' = id then some l else o.layout? id' := by
  unfold layout? hold
  simp only [Table.contains_erase, Table.get?_insert]
  by_cases h : id' = id
  · simp [h]
  · simp [h]

theorem Consistent.hold (ho : o.Consistent) {l : Layout} (hown : l.id = id)
    (hword : id.index + 1 < Word.bound) (n : Nat) : (o.hold id l n).Consistent where
  inner := ho.inner
  created {id'} h := by
    simp only [Overlay.hold] at h ⊢
    split at h
    case isTrue => exact ho.created h
    case isFalse hin =>
      rw [KeySet.contains_add, Bool.or_eq_true, decide_eq_true_iff] at h
      rcases h with rfl | h
      · exact Table.contains_eq_false_iff.1 (by simpa using hin)
      · exact ho.created h
  own {id' l'} h := by
    simp only [Overlay.hold, Table.get?_insert] at h
    split at h
    case isTrue heq =>
      cases h
      rw [hown, heq]
    case isFalse => exact ho.own h
  word {id' l'} h := by
    simp only [Overlay.hold, Table.get?_insert] at h
    split at h
    case isTrue heq => rwa [heq]
    case isFalse => exact ho.word h
  held {id' l'} h := by
    simp only [Overlay.hold, Table.get?_insert] at h ⊢
    split at h
    case isTrue heq =>
      subst heq
      cases hin : o.inner.structs.contains id' with
      | true => exact .inr rfl
      | false => simp [KeySet.contains_add]
    case isFalse =>
      rcases ho.held h with hc | hc
      · refine .inl ?_
        split
        · exact hc
        · simp [KeySet.contains_add, hc]
      · exact .inr hc
  deleted {id'} h := by
    simp only [Overlay.hold, Table.contains_erase, Bool.and_eq_true, decide_eq_true_iff,
      Table.get?_insert] at h ⊢
    rw [if_neg h.1]
    exact ho.deleted h.2
  declared := ho.declared
  targets {r target} h := by
    rw [layout?_hold]
    split
    · rfl
    · exact ho.targets h

theorem Consistent.setLayout (ho : o.Consistent) {l l' : Layout} (h : o.layout? id = some l)
    (hid : l'.id = l.id) : (TypeStore.setLayout o id l').Consistent := by
  obtain ⟨hown, hword⟩ := ho.layout_own h
  rw [ho.setLayout_eq_hold h]
  exact ho.hold (hid.trans hown) hword _

theorem delete_eq_ok : o.delete id = .ok o' ↔ (o.layout? id).isSome = true ∧ o' = { o with
    structs := o.structs.erase id
    callTargets := o.callTargets.filter fun r _ => r.struct != id
    created := o.created.erase id
    deleted := if o.created.contains id then o.deleted else o.deleted.add id } := by
  unfold delete
  split
  case isTrue hsome => exact ⟨fun h => ⟨hsome, (Except.ok.inj h).symm⟩, fun h => congrArg _ h.2.symm⟩
  case isFalse hsome => exact ⟨fun h => (nomatch h), fun h => absurd h.1 hsome⟩

theorem setCallTarget_eq_ok {r : MemberRef} {target : Nat} :
    o.setCallTarget r target = .ok o' ↔ (o.layout? r.struct).isSome = true ∧
      o' = { o with callTargets := o.callTargets.insert r target } := by
  unfold setCallTarget
  split
  case isTrue hsome => exact ⟨fun h => ⟨hsome, (Except.ok.inj h).symm⟩, fun h => congrArg _ h.2.symm⟩
  case isFalse hsome => exact ⟨fun h => (nomatch h), fun h => absurd h.1 hsome⟩

theorem Consistent.layout?_delete (ho : o.Consistent) (h : o.delete id = .ok o')
    (id' : StructId) : o'.layout? id' = if id' = id then none else o.layout? id' := by
  obtain ⟨_, rfl⟩ := delete_eq_ok.1 h
  unfold layout?
  simp only [Table.get?_erase]
  by_cases heq : id' = id
  · subst heq
    cases hc : o.created.contains id' with
    | true => simp [ho.created hc]
    | false => simp [KeySet.contains_add]
  · cases hc : o.created.contains id with
    | true => simp [heq]
    | false => simp [heq, KeySet.contains_add]

theorem Consistent.delete (ho : o.Consistent) (h : o.delete id = .ok o') : o'.Consistent := by
  have hlayout := ho.layout?_delete h
  obtain ⟨hsome, rfl⟩ := delete_eq_ok.1 h
  obtain ⟨l, hl⟩ := Option.isSome_iff_exists.1 hsome
  have hkeep : ∀ {id' l'}, (o.structs.erase id).get? id' = some l' →
      id' ≠ id ∧ o.structs.get? id' = some l' := by
    intro id' l' h
    rw [Table.get?_erase] at h
    split at h
    · cases h
    case isFalse hne => exact ⟨hne, h⟩
  refine ⟨ho.inner, ?_, fun h => ho.own (hkeep h).2, fun h => ho.word (hkeep h).2, ?_, ?_,
    ho.declared, ?_⟩
  · intro id' h
    rw [Table.contains_erase, Bool.and_eq_true] at h
    exact ho.created h.2
  · intro id' l' h
    obtain ⟨hne, h⟩ := hkeep h
    rcases ho.held h with hc | hc
    · exact .inl (by rw [Table.contains_erase]; simp [hne, hc])
    · exact .inr hc
  · -- a struct of the database is deleted, one created here is only dropped
    intro id' h
    simp only [Table.get?_erase]
    split at h
    case isTrue hc =>
      obtain ⟨hin, hnone⟩ := ho.deleted h
      exact ⟨hin, by simp [hnone]⟩
    case isFalse hc =>
      rw [KeySet.contains_add, Bool.or_eq_true, decide_eq_true_iff] at h
      rcases h with rfl | h
      · refine ⟨?_, by simp⟩
        rw [layout?_of_not_deleted (not_deleted_of_layout? hl)] at hl
        cases hs : o.structs.get? id' with
        | none =>
          rw [hs] at hl
          exact Table.contains_of_get? hl
        | some l' =>
          rcases ho.held hs with hc' | hin
          · exact absurd hc' hc
          · exact hin
      · obtain ⟨hin, hnone⟩ := ho.deleted h
        exact ⟨hin, by simp [hnone]⟩
  · intro r target h
    rw [Table.get?_filter, Option.filter_eq_some_iff] at h
    rw [hlayout, if_neg (by simpa using h.2)]
    exact ho.targets h.1

theorem Consistent.setDeclared (ho : o.Consistent) (var : Variable) {t : Ty}
    (ht : t.isUnknown = false) : (TypeStore.setDeclared o var t).Consistent := by
  refine ⟨ho.inner, ho.created, ho.own, ho.word, ho.held, ho.deleted, ?_, ho.targets⟩
  intro var' t' h
  simp only [TypeStore.setDeclared, Table.get?_insert] at h
  split at h
  · cases h
    exact ht
  · exact ho.declared h

theorem Consistent.setCallTarget (ho : o.Consistent) {r : MemberRef} (target : Nat)
    (hr : (o.layout? r.struct).isSome = true) :
    Consistent { o with callTargets := o.callTargets.insert r target } := by
  refine ⟨ho.inner, ho.created, ho.own, ho.word, ho.held, ho.deleted, ho.declared, ?_⟩
  intro r' target' h
  simp only [Table.get?_insert] at h
  split at h
  case isTrue heq =>
    subst heq
    exact hr
  case isFalse => exact ho.targets h

/-- An overlay mirrors a database when it is consistent and holds what the database holds. -/
structure Mirrors (o : Overlay) (db : Database) : Prop where
  consistent : o.Consistent
  pointerSize : o.inner.pointerSize = db.pointerSize
  next : o.next = db.nextId
  layout : ∀ id, o.layout? id = db.structs.get? id
  declared : ∀ var, TypeStore.declared? o var = TypeStore.declared? db var

theorem Consistent.structIds_eq (ho : o.Consistent) {db : Database}
    (h : ∀ id, o.layout? id = db.structs.get? id) : o.structIds = db.structs.keys := by
  unfold structIds KeySet.toList KeySet.ofKeys
  apply Table.keys_eq_of_contains
  intro id
  rw [KeySet.contains_addAll, KeySet.contains_addAll, Bool.eq_iff_iff]
  have hsome : db.structs.contains id = (o.layout? id).isSome := by rw [Table.contains, h]
  simp only [Table.contains_empty, Bool.or_false, Bool.or_eq_true, decide_eq_true_iff,
    List.mem_filter, Table.mem_keys_iff, hsome]
  cases hd : o.deleted.contains id with
  | true =>
    have hnone := (ho.deleted hd).2
    simp [layout?_of_deleted hd, Table.contains, hnone]
  | false =>
    rw [layout?_of_not_deleted hd]
    cases hs : o.structs.get? id <;> simp [Table.contains, hs]

namespace Mirrors

variable {db : Database}

theorem has_eq (h : o.Mirrors db) (id : StructId) : TypeStore.has o id = TypeStore.has db id :=
  congrArg Option.isSome (h.layout id)

theorem sizeOf_eq (h : o.Mirrors db) (t : Ty) : TypeStore.sizeOf o t = TypeStore.sizeOf db t := by
  have hl : TypeStore.layout? o = TypeStore.layout? db := funext h.layout
  unfold TypeStore.sizeOf
  rw [hl]
  exact congrArg (fun n => t.sizeWith n _) h.pointerSize

theorem render_eq (h : o.Mirrors db) (t : Ty) : TypeStore.render o t = TypeStore.render db t := by
  have hl : TypeStore.layout? o = TypeStore.layout? db := funext h.layout
  unfold TypeStore.render TypeStore.name?
  rw [hl]

theorem hold (h : o.Mirrors db) {l : Layout} (hown : l.id = id)
    (hword : id.index + 1 < Word.bound) {n m : Nat} (hnext : max n o.inner.nextId = m) :
    (o.hold id l n).Mirrors { db with structs := db.structs.insert id l, nextId := m } where
  consistent := h.consistent.hold hown hword n
  pointerSize := h.pointerSize
  next := hnext
  layout id' := by
    rw [layout?_hold, Table.get?_insert, h.layout]
  declared := h.declared

/-- Related outcomes of a change: the same answer, and stores that still mirror one another. -/
abbrev Outcome {α : Type} (p : Except Refusal α × Overlay) (q : Except Refusal α × Database) :
    Prop :=
  p.1 = q.1 ∧ p.2.Mirrors q.2

theorem map {α β : Type} {x : Edit Overlay α} {y : Edit Database α} (f : α → β)
    (h : Checked.Agree Outcome (x.run.run o) (y.run.run db)) :
    Checked.Agree Outcome ((f <$> x).run.run o) ((f <$> y).run.run db) := by
  rw [Edit.run_map, Edit.run_map]
  refine h.bind ?_
  rintro ⟨answer, o'⟩ ⟨answer', db'⟩ ⟨rfl, h'⟩
  exact ⟨rfl, h'⟩

theorem editLayout {α : Type} (h : o.Mirrors db) (id : StructId) (change : Edit Layout α)
    (hchange : ∀ {l answer l'}, change.run.run l = .ok (answer, l') → l'.id = l.id) :
    Checked.Agree Outcome ((TypeStore.editLayout id change).run.run o)
      ((TypeStore.editLayout id change).run.run db) := by
  rw [TypeStore.run_editLayout, TypeStore.run_editLayout]
  have hlayout : TypeStore.layout? o id = TypeStore.layout? db id := h.layout id
  rw [← hlayout]
  cases hl : TypeStore.layout? o id with
  | none => exact ⟨rfl, h⟩
  | some l =>
    refine Checked.Agree.bind_self ?_
    rintro ⟨answer, l'⟩ he
    obtain ⟨hown, hword⟩ := h.consistent.layout_own hl
    have hown' : l'.id = id := (hchange he).trans hown
    have hhold := h.hold hown' hword h.next
    rw [← h.consistent.setLayout_eq_hold hl] at hhold
    exact ⟨rfl, hhold⟩

theorem setMemberType (h : o.Mirrors db) (id : StructId) (offset : Nat) (t : Ty) :
    Checked.Agree Outcome ((TypeStore.setMemberType id offset t).run.run o)
      ((TypeStore.setMemberType id offset t).run.run db) := by
  rw [TypeStore.run_setMemberType, TypeStore.run_setMemberType, h.has_eq, h.sizeOf_eq, h.render_eq]
  cases TypeStore.has db id with
  | false => exact ⟨rfl, h⟩
  | true =>
    refine Checked.Agree.bind_self ?_
    intro size _
    cases size with
    | none => exact Checked.Agree.bind_self fun text _ => ⟨rfl, h⟩
    | some size => exact h.editLayout id _ Layout.setMemberType_id

theorem declare (h : o.Mirrors db) (var : Variable) (t : Ty) :
    Checked.Agree Outcome ((Edit.replace (TypeStore.declare o var t)).run.run o)
      ((Edit.replace (TypeStore.declare db var t)).run.run db) := by
  have hset : t.isUnknown = false →
      (TypeStore.setDeclared o var t).Mirrors (TypeStore.setDeclared db var t) := by
    intro ht
    refine ⟨h.consistent.setDeclared var ht, h.pointerSize, h.next, h.layout, ?_⟩
    intro var'
    have hvar := h.declared var'
    simp only [TypeStore.declared?, TypeStore.setDeclared, Table.get?_insert] at hvar ⊢
    by_cases heq : var' = var <;> simp [heq, hvar]
  unfold TypeStore.declare
  cases ht : t.isUnknown with
  | true => exact ⟨rfl, h⟩
  | false =>
    cases hid : t.finalStruct? with
    | none => exact ⟨rfl, hset ht⟩
    | some id =>
      simp only [Bool.false_eq_true, ↓reduceIte, h.has_eq]
      cases TypeStore.has db id with
      | true => exact ⟨rfl, hset ht⟩
      | false => exact ⟨rfl, h⟩

theorem create (h : o.Mirrors db) (name : Option String) :
    Checked.Agree Outcome ((StoreEdit.create name).perform.run.run o)
      ((StoreEdit.create name).perform.run.run db) := by
  simp only [StoreEdit.perform, Edit.run_get_bind, Edit.run_lift_bind, TypeStore.create]
  rw [h.consistent.create_eq_hold, Database.create, ← h.next]
  refine Checked.Agree.bind (R := fun p q => p.1 = q.1 ∧ p.2.Mirrors q.2)
    (Checked.Agree.bind_self ?_) ?_
  · intro nextId hadd
    obtain ⟨hword, rfl⟩ := Word.add_eq_ok_iff.1 hadd
    have hown : ({ id := ⟨o.next⟩, name := name.getD (defaultStructName o.next) } : Layout).id =
        ⟨o.next⟩ := rfl
    refine ⟨rfl, h.hold hown hword ?_⟩
    unfold Overlay.next
    omega
  · rintro ⟨id, s⟩ ⟨id', s'⟩ ⟨rfl, hs⟩
    exact ⟨rfl, hs⟩

theorem insert (h : o.Mirrors db) (l : Layout) :
    Checked.Agree Outcome ((StoreEdit.insert l).perform.run.run o)
      ((StoreEdit.insert l).perform.run.run db) := by
  simp only [StoreEdit.perform, Edit.run_get_bind, Edit.run_lift_bind, TypeStore.insert]
  rw [insert_eq_hold, Database.insert, ← h.next]
  refine Checked.Agree.bind (R := Mirrors) (Checked.Agree.bind_self ?_) ?_
  · intro after hadd
    obtain ⟨hword, rfl⟩ := Word.add_eq_ok_iff.1 hadd
    refine h.hold rfl hword ?_
    unfold Overlay.next
    omega
  · intro s s' hs
    exact ⟨rfl, hs⟩

theorem delete (h : o.Mirrors db) (id : StructId) :
    Checked.Agree Outcome ((Edit.replace (TypeStore.delete o id)).run.run o)
      ((Edit.replace (TypeStore.delete db id)).run.run db) := by
  have hhas : (o.layout? id).isSome = db.structs.contains id := h.has_eq id
  cases hc : db.structs.contains id with
  | true =>
    have hdel := delete_eq_ok.2 ⟨hhas.trans hc, rfl⟩
    simp only [TypeStore.delete, hdel, Database.delete, hc]
    refine ⟨rfl, h.consistent.delete hdel, h.pointerSize, h.next, ?_, h.declared⟩
    intro id'
    rw [h.consistent.layout?_delete hdel, Table.get?_erase, h.layout]
  | false =>
    simp only [TypeStore.delete, Overlay.delete, Database.delete, hhas, hc]
    exact ⟨rfl, h⟩

theorem setCallTarget (h : o.Mirrors db) (r : MemberRef) (target : Nat) :
    Checked.Agree Outcome ((Edit.replace (TypeStore.setCallTarget o r target)).run.run o)
      ((Edit.replace (TypeStore.setCallTarget db r target)).run.run db) := by
  have hhas : (o.layout? r.struct).isSome = db.structs.contains r.struct := h.has_eq r.struct
  simp only [TypeStore.setCallTarget, Overlay.setCallTarget, Database.setCallTarget, hhas]
  cases hc : db.structs.contains r.struct with
  | true =>
    exact ⟨rfl, h.consistent.setCallTarget target (hhas.trans hc), h.pointerSize, h.next, h.layout,
      h.declared⟩
  | false => exact ⟨rfl, h⟩

/-- Every change has the same outcome on an overlay and on a database that it mirrors. -/
theorem perform (h : o.Mirrors db) (e : StoreEdit) :
    Checked.Agree Outcome (e.perform.run.run o) (e.perform.run.run db) := by
  cases e with
  | declare var t => exact h.declare var t
  | create name => exact h.create name
  | insert l => exact h.insert l
  | delete id => exact h.delete id
  | setCallTarget r target => exact h.setCallTarget r target
  | change id edit =>
    simp only [StoreEdit.perform, Edit.run_get_bind, h.has_eq]
    cases TypeStore.has db id with
    | false => exact ⟨rfl, h⟩
    | true => exact h.editLayout id _ LayoutEdit.perform_id
  | addMember id offset => exact map _ (h.editLayout id _ Layout.addMember_id)
  | setMemberType id offset t => exact map _ (h.setMemberType id offset t)
  | maximizeSize id size => exact map _ (h.editLayout id _ Layout.maximizeSize_id)

end Mirrors

theorem mirrors_ofDatabase {db : Database} (h : db.WellKeyed) : (ofDatabase db).Mirrors db where
  consistent := consistent_ofDatabase h
  pointerSize := rfl
  next := Nat.max_self _
  layout _ := rfl
  declared _ := rfl

/-- The same answers to every question about structs, declarations, sizes and names. -/
structure AnswersLike (o : Overlay) (db : Database) : Prop where
  layout : ∀ id, TypeStore.layout? o id = TypeStore.layout? db id
  structIds : TypeStore.structIds o = TypeStore.structIds db
  nextId : TypeStore.nextId o = TypeStore.nextId db
  declared : ∀ var, TypeStore.declared? o var = TypeStore.declared? db var
  sizeOf : ∀ t, TypeStore.sizeOf o t = TypeStore.sizeOf db t
  render : ∀ t, TypeStore.render o t = TypeStore.render db t

theorem Mirrors.answersLike {db : Database} (h : o.Mirrors db) : o.AnswersLike db where
  layout := h.layout
  structIds := h.consistent.structIds_eq h.layout
  nextId := h.next
  declared := h.declared
  sizeOf := h.sizeOf_eq
  render := h.render_eq

/-- Every run of changes goes the same way on an overlay as on the database below it: a fault in one
where there is a fault in the other, the same answers and refusals, and stores that answer alike. A
run may end after any step, so they answer alike after every step. -/
theorem overlay_run_agrees (db : Database) (hdb : db.WellKeyed) (es : List StoreEdit) :
    Checked.Agree (fun p q => p.1 = q.1 ∧ p.2.AnswersLike q.2)
      (Edit.runAll StoreEdit.perform (ofDatabase db) es)
      (Edit.runAll StoreEdit.perform db es) := by
  have hrun := Edit.runAll_agree (fun e o db h => Mirrors.perform h e) es (mirrors_ofDatabase hdb)
  apply hrun.imp
  rintro ⟨answers, o⟩ ⟨answers', db'⟩ ⟨hanswers, h⟩
  exact ⟨hanswers, h.answersLike⟩

/-- A struct that is deleted, inserted again, grown and deleted once more, between others. -/
theorem overlay_run_agrees_reinserted :
    let db : Database :=
      { structs := .ofList [(⟨0⟩, { id := ⟨0⟩, name := "node", size := 8 })], nextId := 1 }
    let es : List StoreEdit :=
      [.create none, .delete ⟨0⟩, .insert { id := ⟨0⟩, name := "list" }, .maximizeSize ⟨0⟩ 16,
        .declare (.global 64) (.structPointer ⟨0⟩), .delete ⟨0⟩, .delete ⟨0⟩]
    db.WellKeyed ∧ ∃ o db',
      Edit.runAll StoreEdit.perform (ofDatabase db) es = .ok
        ([.ok (.created ⟨1⟩), .ok .done, .ok .done, .ok (.changed true), .ok .done, .ok .done,
          .error (.unknownStruct ⟨0⟩)], o) ∧
      Edit.runAll StoreEdit.perform db es = .ok
        ([.ok (.created ⟨1⟩), .ok .done, .ok .done, .ok (.changed true), .ok .done, .ok .done,
          .error (.unknownStruct ⟨0⟩)], db') ∧ o.AnswersLike db' := by
  intro db es
  have hdb : db.WellKeyed := Database.wellKeyed_of_entries (by decide) (by decide)
  exact ⟨hdb, _, _, rfl, rfl, (overlay_run_agrees db hdb es).2⟩

end Overlay
end TypeRecovery
