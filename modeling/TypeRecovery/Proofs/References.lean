import TypeRecovery.Proofs.Updates

/-!
# References to structs

A declaration is accepted only if it is known and the struct it reaches exists, and a call target
only for a member of a struct that exists. Deleting a struct takes its call targets along but leaves
the declarations, so a declaration can outlive the struct it reaches. `references_of_run` says that
this is the only way in which a reference comes to dangle.
-/
namespace TypeRecovery

namespace Database

/-- In the course of a run the struct was deleted while the variable was declared with that type,
and it was not inserted again. -/
def LeftBehind (start : Database) (us : List Update) (var : Variable) (t : Ty) (id : StructId) :
    Prop :=
  ∃ before after answers db, us = before ++ .edit (.delete id) :: after ∧
    Edit.runAll Update.perform start before = .ok (answers, db) ∧
    db.declared.get? var = some t ∧ db.structs.contains id = true ∧
    ∀ l, Update.edit (.insert l) ∈ after → l.id ≠ id

variable {start db db' : Database} {past us : List Update} {u : Update} {var : Variable} {t : Ty}
  {id : StructId} {answer : Except Refusal Answer} {answers : List (Except Refusal Answer)}

theorem LeftBehind.concat (h : LeftBehind start past var t id)
    (hu : ∀ l, u = .edit (.insert l) → l.id ≠ id) : LeftBehind start (past ++ [u]) var t id := by
  obtain ⟨before, after, answers, db, rfl, hrun, hdeclared, hin, hafter⟩ := h
  refine ⟨before, after ++ [u], answers, db, by simp, hrun, hdeclared, hin, ?_⟩
  intro l hl
  rcases List.mem_append.1 hl with hl | hl
  · exact hafter l hl
  · exact hu l (List.mem_singleton.1 hl).symm

namespace Change

theorem not_contains_of_delete (h : Change db (.edit (.delete id)) db') :
    db'.structs.contains id = false := by
  cases h with
  | delete => rw [Table.contains_erase, decide_eq_false (by simp), Bool.false_and]
  | create hu => cases hu
  | keep halike _ hdelete => rw [halike.contains, hdelete id rfl]

theorem contains_of_insert {l : Layout} (h : Change db (.edit (.insert l)) db') :
    db'.structs.contains l.id = true := by
  cases h with
  | insert h =>
    obtain ⟨_, rfl⟩ := insert_eq_ok.1 h
    exact Table.contains_insert_self _ _ _
  | create hu => cases hu
  | keep _ hu => exact absurd rfl (hu l)

theorem declared_cases (h : Change db u db') (hvar : db'.declared.get? var = some t) :
    db.declared.get? var = some t ∨ (t.isUnknown = false ∧
      ∀ id, t.finalStruct? = some id → db'.structs.contains id = true) := by
  cases h with
  | @declare var' t' hknown hreach =>
    rcases Table.eq_or_of_get?_insert hvar with ⟨_, rfl⟩ | hvar
    · exact .inr ⟨hknown, hreach⟩
    · exact .inl hvar
  | delete | setCallTarget => exact .inl hvar
  | insert h =>
    obtain ⟨_, rfl⟩ := insert_eq_ok.1 h
    exact .inl hvar
  | create _ h halike =>
    obtain ⟨_, _, rfl⟩ := create_eq_ok.1 h
    rw [halike.declared] at hvar
    exact .inl hvar
  | keep halike =>
    rw [halike.declared] at hvar
    exact .inl hvar

theorem targetsOwned (h : Change db u db') (howned : db.TargetsOwned) : db'.TargetsOwned := by
  intro r n hr
  cases h with
  | declare => exact howned hr
  | delete =>
    rw [TargetTable.get?_removeStruct] at hr
    split at hr
    case isTrue => cases hr
    case isFalse hne => rw [Table.contains_erase, howned hr, decide_eq_true hne, Bool.and_true]
  | @setCallTarget r' target hin =>
    by_cases heq : r = r'
    · rw [heq]
      exact hin
    · refine howned (n := n) ?_
      rw [← hr]
      exact (Table.get?_insert_of_ne _ heq _).symm
  | insert h =>
    obtain ⟨_, rfl⟩ := insert_eq_ok.1 h
    exact Table.contains_insert_of_contains (howned hr) _ _
  | create _ h halike =>
    rw [contains_of_create h halike]
    obtain ⟨_, _, rfl⟩ := create_eq_ok.1 h
    rw [halike.callTargets] at hr
    rw [howned hr, Bool.or_true]
  | keep halike =>
    rw [halike.callTargets] at hr
    rw [halike.contains, howned hr]

end Change

/-- What holds of the references in a database, given the run that led to it. -/
structure Referenced (start : Database) (past : List Update) (db : Database) : Prop where
  run : ∃ answers, Edit.runAll Update.perform start past = .ok (answers, db)
  below : ∀ {id}, db.structs.contains id = true → id.index < db.nextId
  owned : db.TargetsOwned
  known : ∀ {var t}, db.declared.get? var = some t → t.isUnknown = false
  reached : ∀ {var t id}, db.declared.get? var = some t → t.finalStruct? = some id →
    db.structs.contains id = true ∨ LeftBehind start past var t id

theorem referenced_empty (pointerSize : Nat) :
    Referenced { pointerSize } [] { pointerSize } where
  run := ⟨[], rfl⟩
  below h := nomatch h
  owned h := nomatch h
  known h := nomatch h
  reached h := nomatch h

/-- A struct that is reached stays, comes back, or is left behind from now on. -/
theorem Referenced.reached_step (h : Referenced start past db) (hchange : Change db u db')
    (hvar : db.declared.get? var = some t) (hid : t.finalStruct? = some id) :
    db'.structs.contains id = true ∨ LeftBehind start (past ++ [u]) var t id := by
  rcases h.reached hvar hid with hin | hleft
  · by_cases hdelete : u = .edit (.delete id)
    · subst hdelete
      obtain ⟨answers, hrun⟩ := h.run
      exact .inr ⟨past, [], answers, db, rfl, hrun, hvar, hin, nofun⟩
    · exact .inl (hchange.contains_kept hin hdelete)
  · by_cases hinsert : ∃ l, u = .edit (.insert l) ∧ l.id = id
    · obtain ⟨l, rfl, rfl⟩ := hinsert
      exact .inl hchange.contains_of_insert
    · exact .inr (hleft.concat fun l hl heq => hinsert ⟨l, hl, heq⟩)

theorem Referenced.step (h : Referenced start past db)
    (hu : u.perform.run.run db = .ok (answer, db')) : Referenced start (past ++ [u]) db' where
  run := by
    obtain ⟨answers, hrun⟩ := h.run
    exact ⟨answers ++ [answer], Edit.runAll_concat hrun hu⟩
  below {id} hin := by
    have hchange := change_of_perform hu
    rcases hchange.contains_or_below hin with hbefore | hnew
    · exact Nat.lt_of_lt_of_le (h.below hbefore) hchange.nextId_le
    · exact hnew
  owned := (change_of_perform hu).targetsOwned h.owned
  known hvar := by
    rcases (change_of_perform hu).declared_cases hvar with hbefore | ⟨hknown, _⟩
    · exact h.known hbefore
    · exact hknown
  reached {var t id} hvar hid := by
    have hchange := change_of_perform hu
    rcases hchange.declared_cases hvar with hbefore | ⟨_, hreach⟩
    · exact h.reached_step hchange hbefore hid
    · exact .inl (hreach id hid)

theorem referenced_of_run {pointerSize : Nat}
    (h : Edit.runAll Update.perform { pointerSize } us = .ok (answers, db)) :
    Referenced { pointerSize } us db :=
  Edit.runAll_induction_after (fun _ _ _ _ _ hpast hu => hpast.step hu) []
    (referenced_empty pointerSize) h

theorem not_contains_of_run (hout : db.structs.contains id = false) (hbelow : id.index < db.nextId)
    (hno : ∀ l, Update.edit (.insert l) ∈ us → l.id ≠ id)
    (h : Edit.runAll Update.perform db us = .ok (answers, db')) :
    db'.structs.contains id = false := by
  induction us generalizing db answers with
  | nil =>
    obtain ⟨_, rfl⟩ := Prod.mk.inj (Except.ok.inj h)
    exact hout
  | cons u rest ih =>
    obtain ⟨answer, next, more, hu, hrest, _⟩ := Edit.runAll_cons_eq_ok.1 h
    have hchange := change_of_perform hu
    have hgone := hchange.not_contains hout hbelow fun l hl => hno l (by simp [hl])
    exact ih hgone (Nat.lt_of_lt_of_le hbelow hchange.nextId_le)
      (fun l hl => hno l (by simp [hl])) hrest

theorem LeftBehind.not_contains {pointerSize : Nat}
    (hleft : LeftBehind { pointerSize } us var t id)
    (h : Edit.runAll Update.perform { pointerSize } us = .ok (answers, db)) :
    db.structs.contains id = false := by
  obtain ⟨before, after, _, middle, rfl, hbefore, _, hin, hafter⟩ := hleft
  obtain ⟨_, middle', _, hbefore', hrest, _⟩ := Edit.runAll_append_eq_ok.1 h
  obtain ⟨_, rfl⟩ := Prod.mk.inj (Except.ok.inj (hbefore.symm.trans hbefore'))
  obtain ⟨_, deleted, _, hdelete, hlast, _⟩ := Edit.runAll_cons_eq_ok.1 hrest
  have hchange := change_of_perform hdelete
  have hbelow := (referenced_of_run hbefore).below hin
  exact not_contains_of_run hchange.not_contains_of_delete
    (Nat.lt_of_lt_of_le hbelow hchange.nextId_le) hafter hlast

/-- After any sequence of updates of an empty database, every call target belongs to a struct that
exists, and every declared type is known. The struct that a declared type reaches exists, unless it
was deleted after the declaration and not inserted again. -/
theorem references_of_run (pointerSize : Nat) (us : List Update)
    (answers : List (Except Refusal Answer)) (db : Database)
    (h : Edit.runAll Update.perform { pointerSize } us = .ok (answers, db)) :
    (∀ r target, TypeStore.callTarget? db r = some target → TypeStore.has db r.struct = true) ∧
    ∀ var t, TypeStore.declared? db var = some t → t.isUnknown = false ∧
      ∀ id, t.finalStruct? = some id →
        (TypeStore.has db id = false ↔ LeftBehind { pointerSize } us var t id) := by
  have hdb := referenced_of_run h
  refine ⟨fun r target hr => hdb.owned hr, ?_⟩
  intro var t hvar
  refine ⟨hdb.known hvar, ?_⟩
  intro id hid
  constructor
  · intro hgone
    rcases hdb.reached hvar hid with hin | hleft
    · cases hgone.symm.trans hin
    · exact hleft
  · intro hleft
    exact hleft.not_contains h

/-- Of two structs one is deleted, and its call target with it; the other one is deleted and inserted
again. The declaration that reaches the first is left behind. -/
theorem references_of_run_deleted :
    let us : List Update :=
      [.define "node" 16 [(0, .structPointer ⟨0⟩), (8, .uint 8)], .edit (.create none),
        .edit (.declare (.global 4096) (.structPointer ⟨0⟩)),
        .edit (.declare (.local 4198400 0) (.array (.structPointer ⟨1⟩) (some 4))),
        .edit (.setCallTarget ⟨⟨0⟩, 8⟩ 4198656), .edit (.setCallTarget ⟨⟨1⟩, 0⟩ 4198656),
        .edit (.delete ⟨1⟩), .edit (.insert { id := ⟨1⟩, name := "list" }), .edit (.delete ⟨0⟩)]
    ∃ answers db, Edit.runAll Update.perform { pointerSize := 4 } us = .ok (answers, db) ∧
      (∀ r target, TypeStore.callTarget? db r = some target → TypeStore.has db r.struct = true) ∧
      TypeStore.declared? db (.local 4198400 0) = some (.array (.structPointer ⟨1⟩) (some 4)) ∧
      ¬ LeftBehind { pointerSize := 4 } us (.local 4198400 0) (.array (.structPointer ⟨1⟩) (some 4)) ⟨1⟩ ∧
      TypeStore.declared? db (.global 4096) = some (.structPointer ⟨0⟩) ∧
      LeftBehind { pointerSize := 4 } us (.global 4096) (.structPointer ⟨0⟩) ⟨0⟩ := by
  intro us
  refine ⟨_, _, rfl, (references_of_run 4 us _ _ rfl).1, by decide, ?_, by decide, ?_⟩
  · intro hleft
    have hgone := (((references_of_run 4 us _ _ rfl).2 _ _ (by decide)).2 ⟨1⟩ rfl).2 hleft
    revert hgone
    decide
  · exact (((references_of_run 4 us _ _ rfl).2 _ _ (by decide)).2 ⟨0⟩ rfl).1 (by decide)

/-- A struct is deleted while a variable is declared to point to it. The declaration stays and
reaches a struct that does not exist, although the same declaration is refused from then on. -/
theorem declaration_outlives_struct :
    let us : List Update :=
      [.define "node" 16 [(0, .uint 8)], .edit (.declare (.global 4096) (.structPointer ⟨0⟩)),
        .edit (.delete ⟨0⟩), .edit (.declare (.global 4096) (.structPointer ⟨0⟩))]
    ∃ db, Edit.runAll Update.perform {} us =
        .ok ([.ok (.created ⟨0⟩), .ok .done, .ok .done, .error (.unknownStruct ⟨0⟩)], db) ∧
      TypeStore.declared? db (.global 4096) = some (.structPointer ⟨0⟩) ∧
      (Ty.structPointer ⟨0⟩).finalStruct? = some ⟨0⟩ ∧ TypeStore.has db ⟨0⟩ = false := by
  intro us
  exact ⟨_, rfl, by decide, rfl, by decide⟩

end Database
end TypeRecovery
