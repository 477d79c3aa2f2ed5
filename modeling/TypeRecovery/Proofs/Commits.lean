import Mathlib.Data.List.Basic
import TypeRecovery.Proofs.Overlays

/-!
# Committing an overlay

A commit replays four collections in a fixed order. Each replay is brought into closed form first;
the closed forms together give the database that a commit leaves, and show that no consistent
overlay has anything in it that the database could refuse half way, declarations apart.
-/
namespace TypeRecovery

namespace TypeStore

variable {σ : Type} [TypeStore σ]

/-- Why a declaration is refused, if it is. -/
def refusal? (s : σ) (var : Variable) (t : Ty) : Option Refusal :=
  if t.isUnknown then some (.declaration var "unknown")
  else (t.finalStruct?.filter fun id => !has s id).map .unknownStruct

theorem declare_eq (s : σ) (var : Variable) (t : Ty) :
    declare s var t = match refusal? s var t with
      | none => .ok (setDeclared s var t)
      | some cause => .error cause := by
  unfold declare refusal?
  cases t.isUnknown with
  | true => rfl
  | false =>
    cases t.finalStruct? with
    | none => rfl
    | some id => cases h : has s id <;> simp [Option.filter, h]

theorem refusal?_congr {τ : Type} [TypeStore τ] {s : σ} {u : τ}
    (h : ∀ id, layout? s id = layout? u id) (var : Variable) (t : Ty) :
    refusal? s var t = refusal? u var t := by
  have hhas : has s = has u := funext fun id => congrArg Option.isSome (h id)
  unfold refusal?
  rw [hhas]

end TypeStore

theorem TargetTable.get?_removeStruct (t : TargetTable) (id : StructId) (r : MemberRef) :
    (t.removeStruct id).get? r = if r.struct = id then none else t.get? r := by
  unfold TargetTable.removeStruct TargetTable.get?
  rw [Table.get?_filter]
  cases t.targets.get? r <;> by_cases h : r.struct = id <;> simp [Option.filter, h]

namespace Overlay

section Declarations

variable {σ : Type} [TypeStore σ]

/-- The declarations that a store accepts. -/
def accepted (s : σ) (es : List (Variable × Ty)) : List (Variable × Ty) :=
  es.filter fun e => (TypeStore.refusal? s e.1 e.2).isNone

/-- The variables whose declarations a store refuses, with the causes. -/
def refusals (s : σ) (es : List (Variable × Ty)) : List (Variable × Refusal) :=
  es.filterMap fun e => (TypeStore.refusal? s e.1 e.2).map fun cause => (e.1, cause)

end Declarations

theorem delete_getD (db : Database) (id : StructId) : (db.delete id).toOption.getD db = { db with
    structs := db.structs.erase id
    callTargets := if db.structs.contains id then db.callTargets.removeStruct id
      else db.callTargets } := by
  unfold Database.delete
  cases h : db.structs.contains id with
  | true => rfl
  | false =>
    have herase := Table.erase_eq_self h
    rw [herase]
    rfl

theorem deleteAll_cons (db : Database) (id : StructId) (ids : List StructId) :
    deleteAll db (id :: ids) = deleteAll ((db.delete id).toOption.getD db) ids := rfl

theorem deleteAll_structs (db : Database) (ids : List StructId) (id : StructId) :
    (deleteAll db ids).structs.get? id = if id ∈ ids then none else db.structs.get? id := by
  induction ids generalizing db with
  | nil => rfl
  | cons x rest ih =>
    rw [deleteAll_cons, ih, delete_getD, Table.get?_erase]
    by_cases hx : id = x <;> by_cases hrest : id ∈ rest <;> simp [hx, hrest]

theorem deleteAll_callTargets (db : Database) (ids : List StructId) (r : MemberRef) :
    (deleteAll db ids).callTargets.get? r =
      if r.struct ∈ ids ∧ db.structs.contains r.struct = true then none
      else db.callTargets.get? r := by
  induction ids generalizing db with
  | nil => simp [deleteAll]
  | cons x rest ih =>
    rw [deleteAll_cons, ih, delete_getD, Table.contains_erase]
    by_cases hx : r.struct = x
    · subst hx
      cases hc : db.structs.contains r.struct with
      | false => simp
      | true => simp [TargetTable.get?_removeStruct]
    · have hget : (if db.structs.contains x then db.callTargets.removeStruct x
          else db.callTargets).get? r = db.callTargets.get? r := by
        split
        · rw [TargetTable.get?_removeStruct, if_neg hx]
        · rfl
      simp [hx, hget]

theorem deleteAll_frame (db : Database) (ids : List StructId) :
    (deleteAll db ids).pointerSize = db.pointerSize ∧
    (deleteAll db ids).declared = db.declared ∧ (deleteAll db ids).nextId = db.nextId ∧
    (deleteAll db ids).callTargets.version = db.callTargets.version := by
  induction ids generalizing db with
  | nil => exact ⟨rfl, rfl, rfl, rfl⟩
  | cons x rest ih =>
    have hstep := ih ((db.delete x).toOption.getD db)
    rw [deleteAll_cons]
    rw [delete_getD] at hstep ⊢
    refine ⟨hstep.1, hstep.2.1, hstep.2.2.1, hstep.2.2.2.trans ?_⟩
    split <;> rfl

/-- The id that comes next once layouts are stored. -/
def nextAfter (n : Nat) (ls : List Layout) : Nat := ls.foldl (fun n l => max n (l.id.index + 1)) n

theorem le_nextAfter (n : Nat) (ls : List Layout) : n ≤ nextAfter n ls := by
  induction ls generalizing n with
  | nil => exact Nat.le_refl n
  | cons l rest ih => exact Nat.le_trans (Nat.le_max_left _ _) (ih _)

theorem lt_nextAfter (n : Nat) {ls : List Layout} {l : Layout} (h : l ∈ ls) :
    l.id.index < nextAfter n ls := by
  induction ls generalizing n with
  | nil => cases h
  | cons first rest ih =>
    rcases List.mem_cons.1 h with rfl | hrest
    · exact Nat.le_trans (Nat.le_max_right n _) (le_nextAfter _ rest)
    · exact ih _ hrest

theorem nextAfter_lt {n bound : Nat} {ls : List Layout} (hn : n < bound)
    (hls : ∀ l ∈ ls, l.id.index + 1 < bound) : nextAfter n ls < bound := by
  induction ls generalizing n with
  | nil => exact hn
  | cons l rest ih =>
    have hl := hls l (by simp)
    exact ih (Nat.max_lt.2 ⟨hn, hl⟩) fun l' hl' => hls l' (by simp [hl'])

theorem insertAll_eq_ok (db : Database) {ls : List Layout}
    (hword : ∀ l ∈ ls, l.id.index + 1 < Word.bound) :
    insertAll db ls = .ok { db with
      structs := db.structs.merge (ls.map fun l => (l.id, l))
      nextId := nextAfter db.nextId ls } := by
  induction ls generalizing db with
  | nil => rfl
  | cons l rest ih =>
    have hl : Word.add l.id.index 1 = .ok (l.id.index + 1) :=
      Word.add_eq_ok_iff.2 ⟨hword l (by simp), rfl⟩
    have hrest := ih { db with
      nextId := max db.nextId (l.id.index + 1), structs := db.structs.insert l.id l }
      fun l' hl' => hword l' (by simp [hl'])
    unfold insertAll at hrest ⊢
    rw [List.foldlM_cons, Database.insert, hl]
    exact hrest

theorem word_of_insertAll {db db' : Database} {ls : List Layout}
    (h : insertAll db ls = .ok db') : ∀ l ∈ ls, l.id.index + 1 < Word.bound := by
  unfold insertAll at h
  induction ls generalizing db with
  | nil => simp
  | cons l rest ih =>
    rw [List.foldlM_cons] at h
    obtain ⟨stored, hstore, hrest⟩ := Checked.bind_eq_ok.1 h
    obtain ⟨after, hadd, _⟩ := Checked.bind_eq_ok.1 hstore
    have hword : l.id.index + 1 < Word.bound := (Word.add_eq_ok_iff.1 hadd).1
    intro k hk
    rcases List.mem_cons.1 hk with rfl | hk
    · exact hword
    · exact ih hrest k hk

theorem declareAll_eq (db : Database) (es : List (Variable × Ty)) :
    declareAll db es =
      ({ db with declared := db.declared.merge (accepted db es) }, (accepted db es).map (·.1),
        refusals db es) := by
  induction es generalizing db with
  | nil => rfl
  | cons e rest ih =>
    obtain ⟨var, t⟩ := e
    rw [declareAll, TypeStore.declare_eq]
    cases hr : TypeStore.refusal? db var t with
    | some cause =>
      simp only
      rw [ih]
      simp [accepted, refusals, hr]
    | none =>
      -- declarations do not matter to what is declared after them
      have hcongr : ∀ var' t', TypeStore.refusal? (TypeStore.setDeclared db var t) var' t' =
          TypeStore.refusal? db var' t' := TypeStore.refusal?_congr fun _ => rfl
      simp only
      rw [ih]
      simp only [accepted, refusals, hcongr]
      simp [hr, TypeStore.setDeclared, Table.merge]

theorem targetAll_eq (db : Database) (es : List (MemberRef × Nat))
    (hes : ∀ e ∈ es, db.structs.contains e.1.struct = true) :
    targetAll db es = ({ db with callTargets :=
      { db.callTargets with targets := db.callTargets.targets.merge es } }, none) := by
  induction es generalizing db with
  | nil => rfl
  | cons e rest ih =>
    obtain ⟨r, target⟩ := e
    have hr : db.structs.contains r.struct = true := hes (r, target) (by simp)
    have hset : db.setCallTarget r target =
        .ok { db with callTargets := db.callTargets.insert r target } := by
      simp [Database.setCallTarget, hr]
    rw [targetAll, hset]
    have hrest := ih { db with callTargets := db.callTargets.insert r target }
      fun e he => hes e (by simp [he])
    exact hrest

def committed (o : Overlay) : Database :=
  let db := deleteAll o.inner o.deleted.toList
  { db with
    structs := db.structs.merge o.structs.entries
    nextId := nextAfter db.nextId o.structs.values
    declared := db.declared.merge (accepted o o.declared.entries)
    callTargets := { db.callTargets with
      targets := db.callTargets.targets.merge o.callTargets.entries } }

variable {o : Overlay}

theorem mem_deleted {id : StructId} : id ∈ o.deleted.toList ↔ o.deleted.contains id = true :=
  Table.mem_keys_iff

theorem committed_structs
    (hdeleted : ∀ {id}, o.deleted.contains id = true → o.structs.get? id = none) (id : StructId) :
    o.committed.structs.get? id = o.layout? id := by
  unfold committed
  rw [Table.get?_merge, deleteAll_structs]
  cases hd : o.deleted.contains id with
  | true =>
    rw [if_pos (mem_deleted.2 hd), hdeleted hd, layout?_of_deleted hd]
    rfl
  | false =>
    rw [if_neg (by simp [mem_deleted, hd]), layout?_of_not_deleted hd]

theorem Consistent.committed_structs (ho : o.Consistent) (id : StructId) :
    o.committed.structs.get? id = o.layout? id :=
  Overlay.committed_structs (fun hd => (ho.deleted hd).2) id

theorem Consistent.committed_callTargets (ho : o.Consistent) (r : MemberRef) :
    o.committed.callTargets.get? r = o.callTarget? r := by
  have hinner := deleteAll_callTargets o.inner o.deleted.toList r
  unfold TargetTable.get? at hinner
  unfold committed callTarget? TargetTable.get?
  rw [Table.get?_merge, hinner]
  cases hd : o.deleted.contains r.struct with
  | true =>
    rw [if_pos ⟨mem_deleted.2 hd, (ho.deleted hd).1⟩, ho.callTargets_of_deleted hd]
    rfl
  | false =>
    rw [if_neg (by simp [mem_deleted, hd])]
    rfl

theorem committed_declared (var : Variable) :
    o.committed.declared.get? var =
      ((o.declared.get? var).filter (fun t => (TypeStore.refusal? o var t).isNone) <|>
        o.inner.declared.get? var) := by
  have haccepted : accepted o o.declared.entries =
      (o.declared.filter fun var t => (TypeStore.refusal? o var t).isNone).entries := rfl
  unfold committed
  rw [haccepted, Table.get?_merge, Table.get?_filter, (deleteAll_frame _ _).2.1]

theorem entries_own (hown : ∀ {id l}, o.structs.get? id = some l → l.id = id) :
    o.structs.values.map (fun l => (l.id, l)) = o.structs.entries := by
  unfold Table.values
  rw [List.map_map]
  refine (List.map_congr_left ?_).trans (List.map_id _)
  intro e he
  exact Prod.ext (hown (Table.get?_eq_some_iff.2 he)) rfl

/-- An overlay is committed without a fault or a refusal if its structs stand under their own ids,
which are words, and replace nothing that was deleted, and its call targets belong to structs. -/
theorem commit_eq_committed (hown : ∀ {id l}, o.structs.get? id = some l → l.id = id)
    (hword : ∀ {id l}, o.structs.get? id = some l → id.index + 1 < Word.bound)
    (hstructs : ∀ id, o.committed.structs.get? id = o.layout? id)
    (htargets : ∀ {r n}, o.callTargets.get? r = some n → (o.layout? r.struct).isSome = true) :
    commit.run.run o = .ok (.ok {
      structs := o.structs.keys
      declared := (accepted o o.declared.entries).map (·.1)
      refused := refusals o o.declared.entries }, ofDatabase o.committed) := by
  let db := deleteAll o.inner o.deleted.toList
  let stored : Database := { db with
    structs := db.structs.merge o.structs.entries, nextId := nextAfter db.nextId o.structs.values }
  have hlayout : ∀ id, TypeStore.layout? stored id = TypeStore.layout? o id := hstructs
  have hinsert : insertAll db o.structs.values = .ok stored := by
    have hwords : ∀ l ∈ o.structs.values, l.id.index + 1 < Word.bound := by
      intro l hl
      obtain ⟨⟨id, l⟩, he, rfl⟩ := List.mem_map.1 hl
      have hget := Table.get?_eq_some_iff.2 he
      rw [hown hget]
      exact hword hget
    rw [insertAll_eq_ok db hwords, entries_own hown]
  have hdeclare := declareAll_eq stored o.declared.entries
  have hrefusal := TypeStore.refusal?_congr hlayout
  have haccepted : accepted stored o.declared.entries = accepted o o.declared.entries := by
    simp only [accepted, hrefusal]
  have hrefusals : refusals stored o.declared.entries = refusals o o.declared.entries := by
    simp only [refusals, hrefusal]
  rw [haccepted, hrefusals] at hdeclare
  have htarget := targetAll_eq
    { stored with declared := stored.declared.merge (accepted o o.declared.entries) }
    o.callTargets.entries (by
      intro e he
      have hsome := htargets (Table.get?_eq_some_iff.2 he)
      rw [← hstructs] at hsome
      exact hsome)
  simp only [commit, Edit.run_get_bind, Edit.run_lift_bind]
  rw [hinsert]
  simp only [bind, Except.bind, hdeclare, htarget]
  rfl

theorem word_of_commit {p : Except Refusal CommitReport × Overlay}
    (hown : ∀ {id l}, o.structs.get? id = some l → l.id = id) (h : commit.run.run o = .ok p)
    {id : StructId} {l : Layout} (hl : o.structs.get? id = some l) :
    id.index + 1 < Word.bound := by
  simp only [commit, Edit.run_get_bind, Edit.run_lift_bind] at h
  obtain ⟨db, hinsert, _⟩ := Checked.bind_eq_ok.1 h
  have hmem : l ∈ o.structs.values := List.mem_map.2 ⟨_, Table.get?_eq_some_iff.1 hl, rfl⟩
  have hword := word_of_insertAll hinsert l hmem
  rwa [hown hl] at hword

theorem Consistent.commit_eq_ok (ho : o.Consistent) :
    commit.run.run o = .ok (.ok {
      structs := o.structs.keys
      declared := (accepted o o.declared.entries).map (·.1)
      refused := refusals o o.declared.entries }, ofDatabase o.committed) :=
  commit_eq_committed ho.own ho.word ho.committed_structs ho.targets

theorem Consistent.committed_wellKeyed (ho : o.Consistent) : o.committed.WellKeyed := by
  have hnext : o.committed.nextId = nextAfter o.inner.nextId o.structs.values := by
    unfold committed
    dsimp only
    rw [(deleteAll_frame _ _).2.2.1]
  constructor
  case own =>
    intro id l hl
    rw [ho.committed_structs] at hl
    exact (ho.layout_own hl).1
  case below =>
    intro id l hl
    rw [ho.committed_structs] at hl
    have hown := (ho.layout_own hl).1
    rw [layout?_of_not_deleted (not_deleted_of_layout? hl)] at hl
    rw [hnext]
    cases hheld : o.structs.get? id with
    | some l' =>
      rw [hheld] at hl
      cases hl
      rw [← hown]
      exact lt_nextAfter _ (List.mem_map.2 ⟨_, Table.get?_eq_some_iff.1 hheld, rfl⟩)
    | none =>
      rw [hheld] at hl
      exact Nat.lt_of_lt_of_le (ho.inner.below hl) (le_nextAfter _ _)
  case word =>
    rw [hnext]
    refine nextAfter_lt ho.inner.word fun l hl => ?_
    obtain ⟨⟨id, l⟩, he, rfl⟩ := List.mem_map.1 hl
    have hheld := Table.get?_eq_some_iff.2 he
    rw [ho.own hheld]
    exact ho.word hheld

/-- Staged declarations that reach a struct which is gone, with the refusals they earn. -/
def stale (o : Overlay) : List (Variable × Refusal) :=
  o.declared.entries.filterMap fun (var, t) =>
    (t.finalStruct?.filter fun id => !TypeStore.has o id).map fun id => (var, .unknownStruct id)

/-- Nothing unknown is ever staged, so a struct that is gone is the only cause left. -/
theorem Consistent.refusals_eq (ho : o.Consistent) : refusals o o.declared.entries = o.stale := by
  apply List.filterMap_congr
  rintro ⟨var, t⟩ he
  have hknown := ho.declared (Table.get?_eq_some_iff.2 he)
  simp [TypeStore.refusal?, hknown, Function.comp_def]

theorem mem_refusals {var : Variable} :
    var ∈ (refusals o o.declared.entries).map (·.1) ↔
      ∃ t, o.declared.get? var = some t ∧ (TypeStore.refusal? o var t).isSome = true := by
  simp only [refusals, List.map_filterMap, List.mem_filterMap]
  constructor
  · rintro ⟨⟨var', t⟩, he, hr⟩
    cases hcause : TypeStore.refusal? o var' t with
    | none => simp [hcause] at hr
    | some cause =>
      obtain rfl : var' = var := by simpa [hcause] using hr
      exact ⟨t, Table.get?_eq_some_iff.2 he, by simp [hcause]⟩
  · rintro ⟨t, ht, hr⟩
    obtain ⟨cause, hcause⟩ := Option.isSome_iff_exists.1 hr
    exact ⟨(var, t), Table.get?_eq_some_iff.1 ht, by simp [hcause]⟩

theorem committed_declared? (var : Variable) :
    TypeStore.declared? o.committed var =
      if var ∈ (refusals o o.declared.entries).map (·.1) then TypeStore.declared? o.inner var
      else TypeStore.declared? o var := by
  simp only [TypeStore.declared?, committed_declared]
  cases ht : o.declared.get? var with
  | none =>
    have hmem : ¬var ∈ (refusals o o.declared.entries).map (·.1) := by
      rw [mem_refusals, ht]
      rintro ⟨t, h, _⟩
      cases h
    rw [if_neg hmem]
    rfl
  | some t =>
    have hmem : var ∈ (refusals o o.declared.entries).map (·.1) ↔
        (TypeStore.refusal? o var t).isSome = true := by
      rw [mem_refusals, ht]
      simp
    cases hr : TypeStore.refusal? o var t with
    | none => simp [hmem, hr]
    | some cause => simp [hmem, hr, Option.filter]

theorem perform_inner {e : StoreEdit} {o' : Overlay} {answer : Except Refusal Answer}
    (h : e.perform.run.run o = .ok (answer, o')) : o'.inner = o.inner := by
  cases TypeStore.effect_of_perform h with
  | declare var t => rfl
  | create h =>
    obtain ⟨n, _, hn⟩ := Checked.bind_eq_ok.1 h
    cases hn
    rfl
  | insert h =>
    obtain ⟨n, _, hn⟩ := Checked.bind_eq_ok.1 h
    cases hn
    rfl
  | delete h =>
    obtain ⟨_, rfl⟩ := delete_eq_ok.1 h
    rfl
  | setCallTarget h =>
    obtain ⟨_, rfl⟩ := setCallTarget_eq_ok.1 h
    rfl
  | reshape => rfl
  | none => rfl

theorem run_consistent {db : Database} (hdb : db.WellKeyed) {es : List StoreEdit}
    {answers : List (Except Refusal Answer)}
    (hrun : Edit.runAll StoreEdit.perform (ofDatabase db) es = .ok (answers, o)) :
    o.Consistent ∧ o.inner = db := by
  constructor
  · have hagree := Edit.runAll_agree (fun e o db h => Mirrors.perform h e) es
      (mirrors_ofDatabase hdb)
    rw [hrun] at hagree
    cases hdirect : Edit.runAll StoreEdit.perform db es with
    | error fault =>
      rw [hdirect] at hagree
      exact hagree.elim
    | ok p =>
      rw [hdirect] at hagree
      exact hagree.2.consistent
  · refine Edit.runAll_induction (P := fun o => o.inner = db) ?_ rfl hrun
    intro e s answer s' hs hstep
    exact (perform_inner hstep).trans hs

/-- Whatever was staged, a commit goes through: the overlay is empty afterwards and the database
holds what the overlay showed, except for declarations that reach a struct which is gone. These are
reported and leave the database as it was. -/
theorem run_commit_agrees (db : Database) (hdb : db.WellKeyed) (es : List StoreEdit)
    (answers : List (Except Refusal Answer)) (o : Overlay)
    (hrun : Edit.runAll StoreEdit.perform (ofDatabase db) es = .ok (answers, o)) :
    ∃ report o', commit.run.run o = .ok (.ok report, o') ∧
      o'.isClean = true ∧ (∀ id, o'.isProvisional id = false) ∧
      (∀ id, TypeStore.layout? o'.inner id = TypeStore.layout? o id) ∧
      (∀ r, TypeStore.callTarget? o'.inner r = TypeStore.callTarget? o r) ∧
      report.refused = o.stale ∧
      ∀ var, TypeStore.declared? o'.inner var =
        if var ∈ o.stale.map (·.1) then TypeStore.declared? db var
        else TypeStore.declared? o var := by
  obtain ⟨ho, rfl⟩ := run_consistent hdb hrun
  refine ⟨_, _, ho.commit_eq_ok, rfl, fun _ => rfl, ho.committed_structs, ho.committed_callTargets,
    ho.refusals_eq, ?_⟩
  intro var
  rw [← ho.refusals_eq]
  exact committed_declared? var

/-- One declaration loses its struct, another one a struct that was only staged, and call targets
go with both. -/
theorem run_commit_agrees_stale :
    let db : Database :=
      { structs := .ofList [(⟨0⟩, { id := ⟨0⟩, name := "node", size := 8 })],
        declared := .ofList [(.global 64, .uint 4)]
        callTargets := { targets := .ofList [(⟨⟨0⟩, 0⟩, 4096)] }
        nextId := 1 }
    let es : List StoreEdit :=
      [.create none, .declare (.global 64) (.structPointer ⟨0⟩),
        .declare (.global 72) (.structPointer ⟨1⟩), .create none,
        .declare (.global 80) (.structPointer ⟨2⟩), .setCallTarget ⟨⟨2⟩, 8⟩ 4096,
        .delete ⟨0⟩, .delete ⟨2⟩, .maximizeSize ⟨1⟩ 16]
    db.WellKeyed ∧ ∃ answers o report o',
      Edit.runAll StoreEdit.perform (ofDatabase db) es = .ok (answers, o) ∧
      commit.run.run o = .ok (.ok report, o') ∧ o'.isClean = true ∧
      report.refused = [(.global 64, .unknownStruct ⟨0⟩), (.global 80, .unknownStruct ⟨2⟩)] ∧
      TypeStore.declared? o'.inner (.global 64) = some (.uint 4) ∧
      TypeStore.declared? o'.inner (.global 72) = some (.structPointer ⟨1⟩) ∧
      TypeStore.callTarget? o'.inner ⟨⟨0⟩, 0⟩ = none := by
  intro db es
  have hdb : db.WellKeyed := Database.wellKeyed_of_entries (by decide) (by decide)
  obtain ⟨report, o', hcommit, hclean, _, _, htargets, hrefused, hdeclared⟩ :=
    run_commit_agrees db hdb es _ _ rfl
  refine ⟨hdb, _, _, report, o', rfl, hcommit, hclean, hrefused.trans ?_, (hdeclared _).trans ?_,
    (hdeclared _).trans ?_, (htargets _).trans ?_⟩
  · decide
  · decide
  · decide
  · decide

end Overlay
end TypeRecovery
