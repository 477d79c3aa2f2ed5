import TypeRecovery.Proofs.Commits

/-!
# Call targets seen through an overlay

Deleting a struct of the database drops its call targets there, while an overlay only hides them
with the struct. So the two differ after a struct has been deleted and inserted again: the targets
that the struct had in the database below are seen once more, where nothing has been set since.
`overlay_callTargets_agree` says that this is the only difference after any run of changes.
-/
namespace TypeRecovery

/-- The struct is deleted in the run and inserted again later on. -/
def StoreEdit.Reinserts (es : List StoreEdit) (id : StructId) : Prop :=
  ∃ l : Layout, l.id = id ∧ List.Sublist [.delete id, .insert l] es

theorem StoreEdit.Reinserts.append {es : List StoreEdit} {id : StructId}
    (h : StoreEdit.Reinserts es id) (more : List StoreEdit) :
    StoreEdit.Reinserts (es ++ more) id := by
  obtain ⟨l, hl, hsub⟩ := h
  exact ⟨l, hl, hsub.trans (List.sublist_append_left es more)⟩

theorem StoreEdit.reinserts_of_mem {es : List StoreEdit} {l : Layout}
    (h : StoreEdit.delete l.id ∈ es) : StoreEdit.Reinserts (es ++ [.insert l]) l.id :=
  ⟨l, rfl, (List.singleton_sublist.2 h).append (List.Sublist.refl [StoreEdit.insert l])⟩

theorem StoreEdit.delete_mem_append_iff (es : List StoreEdit) {e : StoreEdit}
    (he : ∀ id, e ≠ .delete id) (id : StructId) :
    StoreEdit.delete id ∈ es ++ [e] ↔ StoreEdit.delete id ∈ es := by
  simp [(he id).symm]

/-- Call targets belong to structs that exist. -/
def Database.TargetsOwned (db : Database) : Prop :=
  ∀ {r n}, db.callTargets.get? r = some n → db.structs.contains r.struct = true

theorem Database.targetsOwned_of_entries {db : Database}
    (h : ∀ e ∈ db.callTargets.targets.entries, db.structs.contains e.1.struct = true) :
    db.TargetsOwned :=
  fun hr => h _ (Table.get?_eq_some_iff.1 hr)

theorem Database.delete_eq_ok {db db' : Database} {id : StructId} : db.delete id = .ok db' ↔
    db.structs.contains id = true ∧ db' = { db with
      structs := db.structs.erase id
      callTargets := db.callTargets.removeStruct id } := by
  unfold delete
  split
  case isTrue hin => exact ⟨fun h => ⟨hin, (Except.ok.inj h).symm⟩, fun h => congrArg _ h.2.symm⟩
  case isFalse hin => exact ⟨fun h => (nomatch h), fun h => absurd h.1 hin⟩

theorem Database.setCallTarget_eq_ok {db db' : Database} {r : MemberRef} {target : Nat} :
    db.setCallTarget r target = .ok db' ↔ db.structs.contains r.struct = true ∧
      db' = { db with callTargets := db.callTargets.insert r target } := by
  unfold setCallTarget
  split
  case isTrue hin => exact ⟨fun h => ⟨hin, (Except.ok.inj h).symm⟩, fun h => congrArg _ h.2.symm⟩
  case isFalse hin => exact ⟨fun h => (nomatch h), fun h => absurd h.1 hin⟩

theorem TypeStore.Effect.callTargets_eq {db db' : Database} {e : StoreEdit} (h : Effect db e db')
    (hdelete : ∀ id, e ≠ .delete id) (htarget : ∀ r n, e ≠ .setCallTarget r n) :
    db'.callTargets = db.callTargets := by
  cases h with
  | declare var t => rfl
  | create h =>
    obtain ⟨n, _, hn⟩ := Checked.bind_eq_ok.1 h
    cases hn
    rfl
  | insert h =>
    obtain ⟨n, _, hn⟩ := Checked.bind_eq_ok.1 h
    cases hn
    rfl
  | delete h => exact absurd rfl (hdelete _)
  | setCallTarget h => exact absurd rfl (htarget _ _)
  | reshape => rfl
  | none => rfl

namespace Overlay

/-- How the call targets of an overlay and of a database are related, when the same changes were
made to both. What the overlay sets, the database has; of the targets below, the database has lost
those of every struct that was ever deleted. -/
structure Retains (past : List StoreEdit) (o : Overlay) (db : Database) : Prop where
  mirrors : o.Mirrors db
  owned : o.inner.TargetsOwned
  targets : ∀ r, db.callTargets.get? r = (o.callTargets.get? r <|>
    if StoreEdit.delete r.struct ∈ past then none else o.inner.callTargets.get? r)
  deleted : ∀ {id}, o.deleted.contains id = true → StoreEdit.delete id ∈ past
  /-- A struct that was deleted still is, or has been inserted again. -/
  gone : ∀ {id}, o.inner.structs.contains id = true → StoreEdit.delete id ∈ past →
    o.deleted.contains id = true ∨ StoreEdit.Reinserts past id

theorem retains_ofDatabase {db : Database} (h : db.WellKeyed) (howned : db.TargetsOwned) :
    Retains [] (ofDatabase db) db where
  mirrors := mirrors_ofDatabase h
  owned := howned
  targets _ := rfl
  deleted h := nomatch h
  gone _ h := nomatch h

variable {past : List StoreEdit} {o o' : Overlay} {db db' : Database} {e : StoreEdit}

namespace Retains

theorem callTarget? (h : Retains past o db) (r : MemberRef) :
    o.callTarget? r = db.callTargets.get? r ∨
      (StoreEdit.Reinserts past r.struct ∧ db.callTargets.get? r = none ∧
        o.callTarget? r = o.inner.callTargets.get? r) := by
  have htargets := h.targets r
  unfold Overlay.callTarget?
  cases hd : o.deleted.contains r.struct with
  | true =>
    rw [h.mirrors.consistent.callTargets_of_deleted hd, if_pos (h.deleted hd)] at htargets
    exact .inl htargets.symm
  | false =>
    by_cases hpast : StoreEdit.delete r.struct ∈ past
    · rw [if_pos hpast] at htargets
      cases hset : o.callTargets.get? r with
      | some n =>
        rw [hset] at htargets
        exact .inl htargets.symm
      | none =>
        rw [hset] at htargets
        cases hinner : o.inner.callTargets.get? r with
        | none => exact .inl htargets.symm
        | some n =>
          rcases h.gone (h.owned hinner) hpast with hdeleted | hagain
          · rw [hd] at hdeleted
            cases hdeleted
          · exact .inr ⟨hagain, htargets, rfl⟩
    · rw [if_neg hpast] at htargets
      exact .inl htargets.symm

theorem frame (h : Retains past o db) (hmirrors : o'.Mirrors db') (hinner : o'.inner = o.inner)
    (he : ∀ id, e ≠ .delete id) (htargets : o'.callTargets = o.callTargets)
    (hdeleted : o'.deleted = o.deleted) (hdirect : db'.callTargets = db.callTargets) :
    Retains (past ++ [e]) o' db' := by
  have hmem := StoreEdit.delete_mem_append_iff past he
  refine ⟨hmirrors, by rw [hinner]; exact h.owned, fun r => ?_, fun {id} hd => ?_,
    fun {id} hin hpast => ?_⟩
  · rw [hdirect, htargets, hinner, h.targets r]
    simp only [hmem]
  · rw [hdeleted] at hd
    exact (hmem id).2 (h.deleted hd)
  · rw [hinner] at hin
    rw [hdeleted]
    exact (h.gone hin ((hmem id).1 hpast)).imp_right fun hagain => hagain.append [e]

theorem insert (h : Retains past o db) {l : Layout} (hmirrors : o'.Mirrors db')
    (ho : o.insert l = .ok o') (hdirect : db'.callTargets = db.callTargets) :
    Retains (past ++ [.insert l]) o' db' := by
  obtain ⟨n, _, hn⟩ := Checked.bind_eq_ok.1 ho
  cases hn
  have hmem := StoreEdit.delete_mem_append_iff past (e := .insert l) nofun
  refine ⟨hmirrors, h.owned, fun r => ?_, fun {id} hd => ?_, fun {id} hin hpast => ?_⟩
  · simp only [hmem, hdirect]
    exact h.targets r
  · rw [Table.contains_erase, Bool.and_eq_true] at hd
    exact (hmem id).2 (h.deleted hd.2)
  · by_cases heq : id = l.id
    · subst heq
      exact .inr (StoreEdit.reinserts_of_mem ((hmem _).1 hpast))
    · rw [Table.contains_erase, decide_eq_true (show id ≠ l.id from heq), Bool.true_and]
      exact (h.gone hin ((hmem id).1 hpast)).imp_right fun hagain => hagain.append _

theorem delete (h : Retains past o db) {id : StructId} (hmirrors : o'.Mirrors db')
    (ho : o.delete id = .ok o') (hdb : db.delete id = .ok db') :
    Retains (past ++ [.delete id]) o' db' := by
  have hcreated : o.inner.structs.contains id = true → o.created.contains id = false := by
    intro hin
    by_contra hc
    rw [Table.contains, h.mirrors.consistent.created (by simpa using hc)] at hin
    cases hin
  obtain ⟨_, rfl⟩ := delete_eq_ok.1 ho
  obtain ⟨_, rfl⟩ := Database.delete_eq_ok.1 hdb
  have hmem : ∀ other, StoreEdit.delete other ∈ past ++ [.delete id] ↔
      StoreEdit.delete other ∈ past ∨ other = id := by
    intro other
    simp
  refine ⟨hmirrors, h.owned, fun r => ?_, fun {other} hd => ?_, fun {other} hin hpast => ?_⟩
  · have hset : (o.callTargets.filter fun r _ => r.struct != id).get? r =
        if r.struct = id then none else o.callTargets.get? r :=
      TargetTable.get?_removeStruct { targets := o.callTargets } id r
    rw [TargetTable.get?_removeStruct, hset]
    by_cases heq : r.struct = id
    · simp [heq]
    · simp only [hmem, heq, or_false, if_false]
      exact h.targets r
  · refine (hmem other).2 ?_
    split at hd
    · exact .inl (h.deleted hd)
    · rw [KeySet.contains_add, Bool.or_eq_true, decide_eq_true_iff] at hd
      exact hd.symm.imp_left h.deleted
  · by_cases heq : other = id
    · subst heq
      rw [hcreated hin]
      exact .inl (KeySet.contains_add_self _ _)
    · have hbefore := h.gone hin (((hmem other).1 hpast).resolve_right heq)
      refine hbefore.imp (fun hd => ?_) fun hagain => hagain.append _
      split
      · exact hd
      · exact KeySet.contains_add_of_contains hd id

/-- A deletion that finds no struct: if the database below has one, it was deleted before. -/
theorem delete_refused (h : Retains past o db) {id : StructId}
    (hnone : (o.layout? id).isSome = false) : Retains (past ++ [.delete id]) o db := by
  have hbefore : ∀ {other}, o.inner.structs.contains other = true →
      StoreEdit.delete other ∈ past ++ [.delete id] → StoreEdit.delete other ∈ past := by
    intro other hin hpast
    rcases List.mem_append.1 hpast with hpast | hlast
    · exact hpast
    · obtain rfl : other = id := by simpa using hlast
      exact h.deleted (deleted_of_layout? hin hnone)
  refine ⟨h.mirrors, h.owned, fun r => ?_, fun hd => ?_, fun hin hpast => ?_⟩
  · rw [h.targets r]
    cases hinner : o.inner.callTargets.get? r with
    | none => simp
    | some n =>
      have hiff : StoreEdit.delete r.struct ∈ past ++ [.delete id] ↔
          StoreEdit.delete r.struct ∈ past :=
        ⟨hbefore (h.owned hinner), fun hpast => List.mem_append_left _ hpast⟩
      simp only [hiff]
  · exact List.mem_append_left _ (h.deleted hd)
  · exact (h.gone hin (hbefore hin hpast)).imp_right fun hagain => hagain.append _

theorem setCallTarget (h : Retains past o db) {r : MemberRef} {target : Nat}
    (hmirrors : o'.Mirrors db') (ho : o.setCallTarget r target = .ok o')
    (hdb : db.setCallTarget r target = .ok db') :
    Retains (past ++ [.setCallTarget r target]) o' db' := by
  obtain ⟨_, rfl⟩ := setCallTarget_eq_ok.1 ho
  obtain ⟨_, rfl⟩ := Database.setCallTarget_eq_ok.1 hdb
  have hmem := StoreEdit.delete_mem_append_iff past (e := .setCallTarget r target) nofun
  refine ⟨hmirrors, h.owned, fun r' => ?_, fun hd => (hmem _).2 (h.deleted hd),
    fun hin hpast => (h.gone hin ((hmem _).1 hpast)).imp_right fun hagain => hagain.append _⟩
  have hbefore := h.targets r'
  simp only [TargetTable.get?, TargetTable.insert, Table.get?_insert, hmem] at hbefore ⊢
  by_cases heq : r' = r
  · simp [heq]
  · simp [heq, hbefore]

theorem perform_delete (h : Retains past o db) {id : StructId} (hmirrors : o'.Mirrors db')
    (ho : TypeStore.Effect o (.delete id) o') (hdb : TypeStore.Effect db (.delete id) db') :
    Retains (past ++ [.delete id]) o' db' := by
  have hhas : (o.layout? id).isSome = db.structs.contains id := h.mirrors.has_eq id
  cases ho with
  | delete ho =>
    cases hdb with
    | delete hdb => exact h.delete hmirrors ho hdb
    | reshape he => cases he
    | none hdelete =>
      have hin := hhas.symm.trans (delete_eq_ok.1 ho).1
      exact absurd (Database.delete_eq_ok.2 ⟨hin, rfl⟩) (hdelete _ _ rfl)
  | reshape he => cases he
  | none hdelete =>
    have hnone : (o.layout? id).isSome = false := by
      by_contra hsome
      exact hdelete _ _ rfl (delete_eq_ok.2 ⟨by simpa [Option.isSome_iff_ne_none] using hsome, rfl⟩)
    cases hdb with
    | delete hdb =>
      have hin := hhas.trans (Database.delete_eq_ok.1 hdb).1
      cases hnone.symm.trans hin
    | reshape he => cases he
    | none => exact h.delete_refused hnone

theorem perform_setCallTarget (h : Retains past o db) {r : MemberRef} {target : Nat}
    (hmirrors : o'.Mirrors db') (ho : TypeStore.Effect o (.setCallTarget r target) o')
    (hdb : TypeStore.Effect db (.setCallTarget r target) db') :
    Retains (past ++ [.setCallTarget r target]) o' db' := by
  have hhas : (o.layout? r.struct).isSome = db.structs.contains r.struct :=
    h.mirrors.has_eq r.struct
  cases ho with
  | setCallTarget ho =>
    cases hdb with
    | setCallTarget hdb => exact h.setCallTarget hmirrors ho hdb
    | reshape he => cases he
    | none _ htarget =>
      have hin := hhas.symm.trans (setCallTarget_eq_ok.1 ho).1
      exact absurd (Database.setCallTarget_eq_ok.2 ⟨hin, rfl⟩) (htarget _ _ _ rfl)
  | reshape he => cases he
  | none _ htarget =>
    cases hdb with
    | setCallTarget hdb =>
      have hin := hhas.trans (Database.setCallTarget_eq_ok.1 hdb).1
      exact absurd (setCallTarget_eq_ok.2 ⟨hin, rfl⟩) (htarget _ _ _ rfl)
    | reshape he => cases he
    | none => exact h.frame hmirrors rfl nofun rfl rfl rfl

/-- No other change touches call targets, and only an insertion brings back what was deleted. -/
theorem perform_other (h : Retains past o db) (hdelete : ∀ id, e ≠ .delete id)
    (htarget : ∀ r n, e ≠ .setCallTarget r n) (hmirrors : o'.Mirrors db')
    (ho : TypeStore.Effect o e o') (hdb : TypeStore.Effect db e db') :
    Retains (past ++ [e]) o' db' := by
  have hdirect := hdb.callTargets_eq hdelete htarget
  cases ho with
  | declare var t => exact h.frame hmirrors rfl hdelete rfl rfl hdirect
  | create ho =>
    obtain ⟨n, _, hn⟩ := Checked.bind_eq_ok.1 ho
    cases hn
    exact h.frame hmirrors rfl hdelete rfl rfl hdirect
  | insert ho => exact h.insert hmirrors ho hdirect
  | delete ho => exact absurd rfl (hdelete _)
  | setCallTarget ho => exact absurd rfl (htarget _ _)
  | reshape he hl l' => exact h.frame hmirrors rfl hdelete rfl rfl hdirect
  | none => exact h.frame hmirrors rfl hdelete rfl rfl hdirect

theorem perform (h : Retains past o db) (e : StoreEdit) :
    Checked.Agree (fun p q => p.1 = q.1 ∧ Retains (past ++ [e]) p.2 q.2)
      (e.perform.run.run o) (e.perform.run.run db) := by
  refine (h.mirrors.perform e).with_ok ?_
  rintro ⟨answer, o'⟩ ⟨answer', db'⟩ ho hdb ⟨rfl, hmirrors⟩
  refine ⟨rfl, ?_⟩
  have hstaged := TypeStore.effect_of_perform ho
  have hdirect := TypeStore.effect_of_perform hdb
  cases e with
  | delete id => exact h.perform_delete hmirrors hstaged hdirect
  | setCallTarget r target => exact h.perform_setCallTarget hmirrors hstaged hdirect
  | _ => exact h.perform_other nofun nofun hmirrors hstaged hdirect

end Retains

/-- Every run of changes has the same outcome on an overlay as on the database below it, and after
every step both show the same call targets, but for one case: where a struct was deleted and has
been inserted again, a member without a target may show the one that it had before the run. -/
theorem overlay_callTargets_agree (db : Database) (hdb : db.WellKeyed) (howned : db.TargetsOwned)
    (es : List StoreEdit) :
    Checked.Agree (fun p q => p.1 = q.1 ∧ ∀ r,
        TypeStore.callTarget? p.2 r = TypeStore.callTarget? q.2 r ∨
          (StoreEdit.Reinserts es r.struct ∧ TypeStore.callTarget? q.2 r = none ∧
            TypeStore.callTarget? p.2 r = TypeStore.callTarget? db r))
      (Edit.runAll StoreEdit.perform (ofDatabase db) es)
      (Edit.runAll StoreEdit.perform db es) := by
  have hrun := Edit.runAll_agree_after (R := Retains) (fun _ e _ _ h => h.perform e) [] es
    (retains_ofDatabase hdb howned)
  refine hrun.with_ok ?_
  rintro ⟨answers, o⟩ ⟨answers', db'⟩ ho _ ⟨hanswers, h⟩
  obtain ⟨_, hinner⟩ := run_consistent hdb ho
  refine ⟨hanswers, fun r => ?_⟩
  have hr := h.callTarget? r
  rwa [hinner] at hr

/-- Targets of two structs: one is overridden, one goes with its struct, and no struct comes back. -/
theorem overlay_callTargets_agree_deleted :
    let db : Database :=
      { structs := .ofList [(⟨0⟩, { id := ⟨0⟩, name := "ops", size := 16 }),
          (⟨1⟩, { id := ⟨1⟩, name := "node", size := 8 })]
        callTargets := { targets := .ofList [(⟨⟨0⟩, 0⟩, 4096), (⟨⟨0⟩, 8⟩, 4352), (⟨⟨1⟩, 0⟩, 8192)] }
        nextId := 2 }
    let es : List StoreEdit :=
      [.setCallTarget ⟨⟨0⟩, 8⟩ 12288, .delete ⟨1⟩, .create none, .setCallTarget ⟨⟨1⟩, 0⟩ 4096,
        .addMember ⟨0⟩ 16, .setCallTarget ⟨⟨2⟩, 0⟩ 4352]
    db.WellKeyed ∧ db.TargetsOwned ∧ ∃ answers o db',
      Edit.runAll StoreEdit.perform (ofDatabase db) es = .ok (answers, o) ∧
      Edit.runAll StoreEdit.perform db es = .ok (answers, db') ∧
      (∀ r, TypeStore.callTarget? o r = TypeStore.callTarget? db' r) ∧
      TypeStore.callTarget? o ⟨⟨0⟩, 8⟩ = some 12288 ∧ TypeStore.callTarget? o ⟨⟨1⟩, 0⟩ = none := by
  intro db es
  have hdb : db.WellKeyed := Database.wellKeyed_of_entries (by decide) (by decide)
  have howned : db.TargetsOwned := Database.targetsOwned_of_entries (by decide)
  refine ⟨hdb, howned, _, _, _, rfl, rfl, fun r => ?_, by decide, by decide⟩
  refine ((overlay_callTargets_agree db hdb howned es).2 r).resolve_right ?_
  rintro ⟨⟨l, _, hsub⟩, _⟩
  have hinsert : StoreEdit.insert l ∈ es := hsub.subset (by simp)
  simp [es] at hinsert

/-- A struct is deleted and another one inserted under its id. Through the overlay its member has
the call target of the deleted struct; in the database it has none. -/
theorem deleted_target_shown_again :
    let db : Database :=
      { structs := .ofList [(⟨0⟩, { id := ⟨0⟩, name := "node", size := 8 })]
        callTargets := { targets := .ofList [(⟨⟨0⟩, 0⟩, 4096)] }
        nextId := 1 }
    let es : List StoreEdit := [.delete ⟨0⟩, .insert { id := ⟨0⟩, name := "list" }]
    db.WellKeyed ∧ db.TargetsOwned ∧ ∃ o db',
      Edit.runAll StoreEdit.perform (ofDatabase db) es = .ok ([.ok .done, .ok .done], o) ∧
      Edit.runAll StoreEdit.perform db es = .ok ([.ok .done, .ok .done], db') ∧
      TypeStore.callTarget? o ⟨⟨0⟩, 0⟩ = some 4096 ∧
      TypeStore.callTarget? db' ⟨⟨0⟩, 0⟩ = none := by
  intro db es
  have hdb : db.WellKeyed := Database.wellKeyed_of_entries (by decide) (by decide)
  have howned : db.TargetsOwned := Database.targetsOwned_of_entries (by decide)
  exact ⟨hdb, howned, _, _, rfl, rfl, by decide, by decide⟩

end Overlay
end TypeRecovery
