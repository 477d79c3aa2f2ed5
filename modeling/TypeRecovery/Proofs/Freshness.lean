import TypeRecovery.Snapshot.Store
import TypeRecovery.Proofs.Turns
import TypeRecovery.Proofs.Updates

/-!
# Fresh ids

A new struct receives its id from a counter, which every store keeps apart from its structs. No
change of a database or of an overlay lets a struct get ahead of the counter, so an id that is given
out is new, unless the database was read with a counter that was behind its structs to begin with.
`created_structs_are_fresh` follows the ids through every run of updates, through every overlay with
its commits, and through every sequence of inferences.
-/
namespace TypeRecovery

/-- The struct is there, but its id is still to be given out. -/
def Database.Ahead (db : Database) (id : StructId) : Prop :=
  db.structs.contains id = true ∧ db.nextId ≤ id.index

/-- Every struct is behind the counter, but for those that were ahead at the start. -/
def Database.Counted (start db : Database) : Prop :=
  ∀ id, db.structs.contains id = true → id.index < db.nextId ∨ start.Ahead id

namespace Database

variable {start db db' : Database} {u : Update} {answer : Except Refusal Answer}
  {id : StructId}

theorem counted_self (db : Database) : db.Counted db := by
  intro id hin
  rcases Nat.lt_or_ge id.index db.nextId with hlt | hge
  · exact .inl hlt
  · exact .inr ⟨hin, hge⟩

theorem Counted.step (h : start.Counted db) (hu : u.perform.run.run db = .ok (answer, db')) :
    start.Counted db' := by
  have hchange := change_of_perform hu
  intro id hin
  rcases hchange.contains_or_below hin with hbefore | hnew
  · exact (h id hbefore).imp_left fun hlt => Nat.lt_of_lt_of_le hlt hchange.nextId_le
  · exact .inl hnew

theorem counted_of_run {us : List Update} {answers : List (Except Refusal Answer)}
    (h : Edit.runAll Update.perform start us = .ok (answers, db)) : start.Counted db :=
  Edit.runAll_induction (fun _ _ _ _ hdb hu => hdb.step hu) (counted_self start) h

end Database

namespace Overlay

/-- The ways to change an overlay: what every store accepts, on any struct or only on one created
here, and writing the changes down or dropping them. -/
inductive Update where
  | edit (e : StoreEdit)
  | provisional (id : StructId) (e : StoreEdit)
  | commit
  | discard
deriving DecidableEq

def Update.perform : Update → Edit Overlay Answer
  | edit e => e.perform
  | provisional id e => Overlay.provisional id e.perform
  | commit => (fun _ => .done) <$> Overlay.commit
  | discard => do
    modify Overlay.discard
    return .done

/-- The same of an overlay and of the database below it. -/
structure Counted (start : Database) (o : Overlay) : Prop where
  inner : start.Counted o.inner
  held : ∀ {id}, o.structs.contains id = true → id.index < o.next ∨ start.Ahead id
  deleted : ∀ {id}, o.deleted.contains id = true → id.index < o.next ∨ start.Ahead id

variable {start : Database} {o o' : Overlay} {id : StructId}

theorem counted_ofDatabase {db : Database} (h : start.Counted db) : Counted start (ofDatabase db) where
  inner := h
  held h := nomatch h
  deleted h := nomatch h

theorem inner_nextId_le (o : Overlay) : o.inner.nextId ≤ o.next := Nat.le_max_right _ _

theorem Counted.inner_lt (h : Counted start o) (hin : o.inner.structs.contains id = true) :
    id.index < o.next ∨ start.Ahead id :=
  (h.inner id hin).imp_left fun hlt => Nat.lt_of_lt_of_le hlt o.inner_nextId_le

theorem contains_of_layout? {l : Layout} (h : o.layout? id = some l) :
    o.structs.contains id = true ∨ o.inner.structs.contains id = true := by
  rw [layout?_of_not_deleted (not_deleted_of_layout? h)] at h
  cases hs : o.structs.get? id with
  | some held => exact .inl (Table.contains_of_get? hs)
  | none =>
    rw [hs] at h
    exact .inr (Table.contains_of_get? h)

theorem Counted.layout?_lt (h : Counted start o) {l : Layout} (hl : o.layout? id = some l) :
    id.index < o.next ∨ start.Ahead id := by
  rcases contains_of_layout? hl with hheld | hin
  · exact h.held hheld
  · exact h.inner_lt hin

theorem Counted.frame (h : Counted start o) (hinner : o'.inner = o.inner)
    (hnext : o.nextId ≤ o'.nextId)
    (hheld : ∀ {id}, o'.structs.contains id = true →
      o.structs.contains id = true ∨ id.index < o'.next ∨ start.Ahead id)
    (hdeleted : ∀ {id}, o'.deleted.contains id = true →
      o.deleted.contains id = true ∨ id.index < o'.next ∨ start.Ahead id) : Counted start o' := by
  have hle : o.next ≤ o'.next := by
    simp only [next, hinner]
    omega
  have hlater : ∀ {id : StructId}, id.index < o.next ∨ start.Ahead id →
      id.index < o'.next ∨ start.Ahead id := fun hid =>
    hid.imp_left fun hlt => Nat.lt_of_lt_of_le hlt hle
  constructor
  · rw [hinner]
    exact h.inner
  · intro id hid
    rcases hheld hid with hbefore | hnew
    · exact hlater (h.held hbefore)
    · exact hnew
  · intro id hid
    rcases hdeleted hid with hbefore | hnew
    · exact hlater (h.deleted hbefore)
    · exact hnew

theorem create_eq_ok {name : Option String} : o.create name = .ok (id, o') ↔
    o.next + 1 < Word.bound ∧ id = ⟨o.next⟩ ∧ o' = { o with
      nextId := o.next + 1
      structs := o.structs.insert id { id, name := name.getD (defaultStructName id.index) }
      created := o.created.add id } := by
  unfold create
  simp only [Checked.bind_eq_ok, Checked.pure_eq_ok, Word.add_eq_ok_iff, Prod.mk.injEq]
  constructor
  · rintro ⟨n, ⟨hn, rfl⟩, rfl, rfl⟩
    exact ⟨hn, rfl, rfl⟩
  · rintro ⟨hn, rfl, rfl⟩
    exact ⟨_, ⟨hn, rfl⟩, rfl, rfl⟩

theorem Counted.create (h : Counted start o) {name : Option String}
    (ho : o.create name = .ok (id, o')) : Counted start o' := by
  obtain ⟨_, rfl, rfl⟩ := create_eq_ok.1 ho
  have hnext : o.nextId ≤ o.next := Nat.le_max_left _ _
  refine h.frame rfl (Nat.le_succ_of_le hnext) ?_ fun hd => .inl hd
  intro id hid
  rw [Table.contains_insert, Bool.or_eq_true, decide_eq_true_iff] at hid
  rcases hid with rfl | hid
  · exact .inr (.inl (Nat.le_max_left _ _))
  · exact .inl hid

theorem Counted.insert (h : Counted start o) {l : Layout} (ho : o.insert l = .ok o') :
    Counted start o' := by
  obtain ⟨n, hadd, hn⟩ := Checked.bind_eq_ok.1 ho
  obtain ⟨_, rfl⟩ := Word.add_eq_ok_iff.1 hadd
  cases hn
  refine h.frame rfl (Nat.le_max_left _ _) ?_ ?_
  · intro id hid
    rw [Table.contains_insert, Bool.or_eq_true, decide_eq_true_iff] at hid
    rcases hid with rfl | hid
    · refine .inr (.inl ?_)
      simp only [next]
      omega
    · exact .inl hid
  · intro id hid
    rw [Table.contains_erase, Bool.and_eq_true] at hid
    exact .inl hid.2

theorem Counted.delete (h : Counted start o) (ho : o.delete id = .ok o') : Counted start o' := by
  obtain ⟨hsome, rfl⟩ := delete_eq_ok.1 ho
  obtain ⟨l, hl⟩ := Option.isSome_iff_exists.1 hsome
  refine h.frame rfl (Nat.le_refl _) ?_ ?_
  · intro other hother
    rw [Table.contains_erase, Bool.and_eq_true] at hother
    exact .inl hother.2
  · intro other hother
    split at hother
    · exact .inl hother
    · rw [KeySet.contains_add, Bool.or_eq_true, decide_eq_true_iff] at hother
      rcases hother with rfl | hother
      · exact .inr (h.layout?_lt hl)
      · exact .inl hother

theorem Counted.reshape (h : Counted start o) {l : Layout} (hl : o.layout? id = some l)
    (l' : Layout) : Counted start (TypeStore.setLayout o id l') := by
  refine h.frame rfl (Nat.le_refl _) ?_ fun hd => .inl hd
  intro other hother
  simp only [TypeStore.setLayout] at hother
  rw [Table.contains_insert, Bool.or_eq_true, decide_eq_true_iff] at hother
  rcases hother with rfl | hother
  · exact .inr (h.layout?_lt hl)
  · exact .inl hother

theorem Counted.effect (h : Counted start o) {e : StoreEdit} (he : TypeStore.Effect o e o') :
    Counted start o' := by
  cases he with
  | declare var t => exact ⟨h.inner, h.held, h.deleted⟩
  | create ho => exact h.create ho
  | insert ho => exact h.insert ho
  | delete ho => exact h.delete ho
  | setCallTarget ho =>
    obtain ⟨_, rfl⟩ := setCallTarget_eq_ok.1 ho
    exact ⟨h.inner, h.held, h.deleted⟩
  | reshape _ hl l' => exact h.reshape hl l'
  | none => exact h

theorem targetAll_frame (db : Database) (es : List (MemberRef × Nat)) :
    (targetAll db es).1.structs = db.structs ∧ (targetAll db es).1.nextId = db.nextId := by
  induction es generalizing db with
  | nil => exact ⟨rfl, rfl⟩
  | cons e rest ih =>
    obtain ⟨r, target⟩ := e
    rw [targetAll]
    cases hset : db.setCallTarget r target with
    | error cause => exact ⟨rfl, rfl⟩
    | ok db' =>
      obtain ⟨_, rfl⟩ := Database.setCallTarget_eq_ok.1 hset
      exact ih _

/-- The structs that a commit writes are stored under their own ids, and the counter is moved past
them. A commit that is refused in the end has written its structs all the same. -/
theorem commit_eq_ok {answer : Except Refusal CommitReport}
    (h : Overlay.commit.run.run o = .ok (answer, o')) :
    o'.structs = .empty ∧ o'.deleted = .empty ∧
    o'.inner.nextId = nextAfter o.inner.nextId o.structs.values ∧
    o'.inner.structs = (deleteAll o.inner o.deleted.toList).structs.merge
      (o.structs.values.map fun l => (l.id, l)) := by
  simp only [Overlay.commit, Edit.run_get_bind, Edit.run_lift_bind] at h
  obtain ⟨stored, hinsert, h⟩ := Checked.bind_eq_ok.1 h
  have hstored := insertAll_eq_ok (deleteAll o.inner o.deleted.toList) (word_of_insertAll hinsert)
  rw [hinsert] at hstored
  have hnext := (deleteAll_frame o.inner o.deleted.toList).2.2.1
  rw [declareAll_eq] at h
  have hframe := targetAll_frame { stored with
    declared := stored.declared.merge (accepted stored o.declared.entries) } o.callTargets.entries
  cases htargets : targetAll { stored with
      declared := stored.declared.merge (accepted stored o.declared.entries) }
      o.callTargets.entries with
  | mk last failed =>
    rw [htargets] at hframe
    simp only [htargets] at h
    obtain ⟨hstructs, hcounter⟩ := hframe
    cases hstored
    rw [hnext] at hcounter
    cases failed with
    | none =>
      cases h
      exact ⟨rfl, rfl, hcounter, hstructs⟩
    | some cause =>
      cases h
      exact ⟨rfl, rfl, hcounter, hstructs⟩

theorem Counted.commit (h : Counted start o) {answer : Except Refusal CommitReport}
    (ho : Overlay.commit.run.run o = .ok (answer, o')) : Counted start o' := by
  obtain ⟨hheld, hdeleted, hnext, hstructs⟩ := commit_eq_ok ho
  constructor
  · intro id hid
    rw [hstructs] at hid
    rcases Table.contains_or_mem_of_merge hid with hbefore | hwritten
    · rw [Table.contains, deleteAll_structs] at hbefore
      split at hbefore
      case isTrue => cases hbefore
      case isFalse =>
        refine (h.inner id hbefore).imp_left fun hlt => ?_
        rw [hnext]
        exact Nat.lt_of_lt_of_le hlt (le_nextAfter _ _)
    · rw [List.map_map] at hwritten
      obtain ⟨l, hl, rfl⟩ := List.mem_map.1 hwritten
      rw [hnext]
      exact .inl (lt_nextAfter _ hl)
  · rw [hheld]
    intro id hid
    exact absurd hid (by simp)
  · rw [hdeleted]
    intro id hid
    exact absurd hid (by simp)

theorem Counted.perform (h : Counted start o) {u : Update} {answer : Except Refusal Answer}
    (hu : u.perform.run.run o = .ok (answer, o')) : Counted start o' := by
  cases u with
  | edit e => exact h.effect (TypeStore.effect_of_perform hu)
  | provisional id e =>
    simp only [Update.perform, Overlay.provisional, Edit.run_get_bind] at hu
    split at hu
    case isTrue => exact h.effect (TypeStore.effect_of_perform hu)
    case isFalse =>
      cases hu
      exact h
  | commit =>
    obtain ⟨_, hcommit, _⟩ := Edit.map_eq_ok.1 hu
    exact h.commit hcommit
  | discard =>
    cases hu
    exact counted_ofDatabase h.inner

theorem counted_of_run {db : Database} (hdb : start.Counted db) {us : List Update}
    {answers : List (Except Refusal Answer)}
    (h : Edit.runAll Update.perform (ofDatabase db) us = .ok (answers, o)) : Counted start o :=
  Edit.runAll_induction (fun _ _ _ _ ho hu => ho.perform hu) (counted_ofDatabase hdb) h

end Overlay

namespace TypeStore

variable {σ : Type} [TypeStore σ]

/-- The struct is new, and no other one differs. -/
def Adds (s : σ) (id : StructId) (s' : σ) : Prop :=
  has s id = false ∧ has s' id = true ∧ ∀ other, other ≠ id → layout? s' other = layout? s other

/-- As long as the counter has room, a struct is created under a fresh id, or under one that was
ahead of the counter at the start. -/
def CreatesFresh (start : Database) (s : σ) : Prop :=
  ∀ name, if nextId s + 1 < Word.bound
    then ∃ s', create s name = .ok (⟨nextId s⟩, s') ∧
      (Adds s ⟨nextId s⟩ s' ∨ start.Ahead ⟨nextId s⟩)
    else create s name = .error (.overflow .add)

theorem CreatesFresh.adds {start : Database} {s : σ} (h : CreatesFresh start s)
    (hroom : nextId s + 1 < Word.bound) (hnot : ¬ start.Ahead ⟨nextId s⟩) (name : Option String) :
    ∃ s', create s name = .ok (⟨nextId s⟩, s') ∧ Adds s ⟨nextId s⟩ s' := by
  have hname := h name
  rw [if_pos hroom] at hname
  obtain ⟨s', hcreate, hadds | hahead⟩ := hname
  · exact ⟨s', hcreate, hadds⟩
  · exact absurd hahead hnot

end TypeStore

theorem Database.Counted.createsFresh {start db : Database} (h : start.Counted db) :
    TypeStore.CreatesFresh start db := by
  intro name
  split
  case isTrue hroom =>
    refine ⟨_, create_eq_ok.2 ⟨hroom, rfl, rfl⟩, ?_⟩
    cases hin : db.structs.contains ⟨db.nextId⟩ with
    | true => exact .inr ((h _ hin).resolve_left (Nat.lt_irrefl _))
    | false =>
      refine .inl ⟨hin, Table.contains_insert_self _ _ _, ?_⟩
      intro other hne
      exact Table.get?_insert_of_ne _ hne _
  case isFalse hfull =>
    have hadd : Word.add db.nextId 1 = .error (.overflow .add) := if_neg hfull
    simp [TypeStore.create, Database.create, hadd, bind, Except.bind]

namespace Overlay.Counted

variable {start : Database} {o : Overlay}

theorem next_unused (h : Counted start o) (hnot : ¬ start.Ahead ⟨o.next⟩) :
    o.structs.contains ⟨o.next⟩ = false ∧ o.inner.structs.contains ⟨o.next⟩ = false ∧
      o.deleted.contains ⟨o.next⟩ = false := by
  have hfresh : ¬ ((⟨o.next⟩ : StructId).index < o.next ∨ start.Ahead ⟨o.next⟩) := by
    rintro (hlt | hahead)
    · exact Nat.lt_irrefl _ hlt
    · exact hnot hahead
  refine ⟨?_, ?_, ?_⟩
  · by_contra hin
    exact hfresh (h.held (by simpa using hin))
  · by_contra hin
    exact hfresh (h.inner_lt (by simpa using hin))
  · by_contra hin
    exact hfresh (h.deleted (by simpa using hin))

theorem createsFresh (h : Counted start o) : TypeStore.CreatesFresh start o := by
  intro name
  split
  case isTrue hroom =>
    refine ⟨_, create_eq_ok.2 ⟨hroom, rfl, rfl⟩, ?_⟩
    refine or_iff_not_imp_right.2 fun hnot => ?_
    obtain ⟨hheld, hinner, hdeleted⟩ := h.next_unused hnot
    refine ⟨?_, ?_, ?_⟩
    · have hnone : o.layout? ⟨o.next⟩ = none := by
        rw [layout?_of_not_deleted hdeleted, Table.contains_eq_false_iff.1 hheld,
          Table.contains_eq_false_iff.1 hinner]
        rfl
      exact congrArg Option.isSome hnone
    · simp [TypeStore.has, TypeStore.layout?, layout?, TypeStore.nextId, hdeleted]
    · intro other hne
      simp only [TypeStore.layout?, layout?, TypeStore.nextId] at hne ⊢
      rw [Table.get?_insert_of_ne _ hne]
  case isFalse hfull =>
    have hadd : Word.add o.next 1 = .error (.overflow .add) := if_neg hfull
    simp [TypeStore.create, Overlay.create, hadd, bind, Except.bind]

end Overlay.Counted

/-- A struct of the database below a session that is behind the counter and is not of this run. -/
structure Session.Untouched (id : StructId) (l : Layout) (s : Session) : Prop where
  inner : s.db.inner.structs.get? id = some l
  below : id.index < s.db.inner.nextId
  old : s.isNewType id = false

namespace Session.Untouched

variable {settings : Settings} {s t : Session} {id : StructId} {l : Layout}

theorem layout?_eq (h : s.Untouched id l) (hs : s.Unwritten) : s.db.layout? id = some l := by
  have hnone := Table.contains_eq_false_iff.1 ((hs.held id).trans h.old)
  rw [hs.layout?_eq, hnone, h.inner]
  rfl

theorem step (h : s.Untouched id l) (hstep : Step settings s t) : t.Untouched id l := by
  cases hstep with
  | draft hdraft =>
    cases hdraft with
    | report | retract | reshape => exact ⟨h.inner, h.below, h.old⟩
    | create hcreate =>
      obtain ⟨rfl, rfl⟩ := Run.createStruct_eq_ok hcreate
      refine ⟨h.inner, h.below, ?_⟩
      have hlt := Nat.lt_of_lt_of_le h.below s.db.inner_nextId_le
      have hne : id ≠ ⟨s.db.next⟩ := by
        rintro rfl
        exact Nat.lt_irrefl _ hlt
      have hold : s.newTypes.contains id = false := h.old
      simp [Run.isNewType, KeySet.contains_add, hne, hold]
  | resolve | resolveReturn | track => exact ⟨h.inner, h.below, h.old⟩

theorem turn (h : s.Untouched id l) (hs : s.Unwritten) (hturn : Turn settings s t) :
    t.Untouched id l := by
  cases hturn with
  | step hstep => exact h.step hstep
  | handOver => exact ⟨h.inner, h.below, h.old⟩
  | commit hcommit =>
    obtain ⟨rfl, _⟩ := hs.of_commit_eq_ok hcommit
    refine ⟨(hs.committed_structs id).trans (h.layout?_eq hs), ?_, rfl⟩
    have hle := Overlay.le_nextAfter s.db.inner.nextId s.db.structs.values
    exact Nat.lt_of_lt_of_le h.below (s.committed_nextId ▸ hle)
  | clear => exact ⟨h.inner, h.below, rfl⟩

theorem leads (h : s.Untouched id l) (hs : s.Unwritten) (hleads : Leads settings s t) :
    t.Untouched id l := by
  induction hleads with
  | refl => exact h
  | tail hbefore hturn ih => exact ih.turn (hs.leads hbefore) hturn

end Session.Untouched

/-- Whatever updates are made to a database, it creates structs under fresh ids; so does an overlay
over it, whatever is done to the overlay, and the id is not that of a struct below. No sequence of
operations changes a struct that was in the database before, be it in the session's own view or in
the database that the session writes to. The only exceptions are ids that were ahead of the counter
from the start. -/
theorem created_structs_are_fresh (start : Database) (us : List Database.Update)
    (answers : List (Except Refusal Answer)) (db : Database)
    (h : Edit.runAll Database.Update.perform start us = .ok (answers, db)) :
    TypeStore.CreatesFresh start db ∧
    (∀ os replies o, Edit.runAll Overlay.Update.perform (.ofDatabase db) os = .ok (replies, o) →
      TypeStore.CreatesFresh start o ∧
      (TypeStore.has o.inner ⟨TypeStore.nextId o⟩ = false ∨
        start.Ahead ⟨TypeStore.nextId o⟩)) ∧
    ∀ c ops replies s, (Operation.performAll c ops).run (.start db) = .ok (replies, s) →
      ∀ id l, TypeStore.layout? db id = some l →
        (TypeStore.layout? s.db id = some l ∧ TypeStore.layout? s.db.inner id = some l) ∨
          start.Ahead id := by
  have hdb := Database.counted_of_run h
  refine ⟨hdb.createsFresh, ?_, ?_⟩
  · intro os replies o ho
    have hcounted := Overlay.counted_of_run hdb ho
    refine ⟨hcounted.createsFresh, or_iff_not_imp_right.2 fun hnot => ?_⟩
    exact (hcounted.next_unused hnot).2.1
  · intro c ops replies s hs id l hl
    rcases hdb id (Table.contains_of_get? hl) with hlt | hahead
    · have hstart : (Session.start db).Untouched id l := ⟨hl, hlt, rfl⟩
      have hleads := Operation.leads_of_performAll hs
      have hunwritten := (Session.unwritten_start db).leads hleads
      have hlast := hstart.leads (Session.unwritten_start db) hleads
      exact .inl ⟨hlast.layout?_eq hunwritten, hlast.inner⟩
    · exact .inr hahead

/-- A database is read in which one struct is ahead of the counter. The ids that are given out before
that one are fresh: in the database after a definition, an insertion and a deletion, in an overlay
after a commit and a discard, and in a session that commits a struct of its own. -/
theorem created_structs_are_fresh_loaded :
    let text := "\x7b\"structs\":[[0,\x7b\"id\":0,\"name\":\"node\",\"members\":\x7b\x7d,\"size\":8\x7d]," ++
      "[9,\x7b\"id\":9,\"name\":\"tail\",\"members\":\x7b\x7d,\"size\":8\x7d]],\"next_id\":1\x7d"
    let start : Database :=
      { structs := .ofList [(⟨0⟩, { id := ⟨0⟩, name := "node", size := 8 }),
          (⟨9⟩, { id := ⟨9⟩, name := "tail", size := 8 })]
        nextId := 1 }
    let us : List Database.Update :=
      [.define "list" 8 [], .edit (.insert { id := ⟨5⟩, name := "pair" }), .edit (.delete ⟨5⟩)]
    let db : Database :=
      { start with
        structs := start.structs.insert ⟨1⟩ { id := ⟨1⟩, name := "list", size := 8 }
        nextId := 6 }
    let os : List Overlay.Update :=
      [.edit (.create none), .edit (.delete ⟨0⟩), .commit, .edit (.create none), .discard]
    let o : Overlay := .ofDatabase { db with
      structs := (db.structs.erase ⟨0⟩).insert ⟨6⟩ { id := ⟨6⟩, name := "struct_6" }
      nextId := 7 }
    let p : Variable := .local 4096 0
    let c : Context := {
      program := Program.addFunction {} {
        address := 4096
        locals := [{ name := "p", isArg := true }]
        writes := [
          { var := p, chain := [.deref], value := .num 1 4 },
          { var := p, chain := [.add 8, .deref], value := .num 2 4 }] }
      settings := {} }
    Database.parse? text = some start ∧ start.Ahead ⟨9⟩ ∧
    (∃ answers, Edit.runAll Database.Update.perform start us = .ok (answers, db)) ∧
    (∃ db', TypeStore.create db none = .ok (⟨6⟩, db') ∧ TypeStore.Adds db ⟨6⟩ db') ∧
    (∃ replies, Edit.runAll Overlay.Update.perform (.ofDatabase db) os = .ok (replies, o)) ∧
    (∃ o', TypeStore.create o none = .ok (⟨7⟩, o') ∧ TypeStore.Adds o ⟨7⟩ o') ∧
    ∃ replies s, (Operation.performAll c [.typeVariable p, .apply]).run (.start db) =
        .ok (replies, s) ∧
      TypeStore.has s.db.inner ⟨6⟩ = true ∧
      ∀ id, id.index ≠ 9 → TypeStore.has db id = true →
        TypeStore.layout? s.db.inner id = TypeStore.layout? db id := by
  intro text start us db os o p c
  have hahead : ∀ id, start.Ahead id → id = ⟨9⟩ := by
    rintro id ⟨hin, hle⟩
    have hkeys : start.structs.keys = [⟨0⟩, ⟨9⟩] := by decide
    have hmem := Table.mem_keys_iff.2 hin
    rw [hkeys, List.mem_cons, List.mem_singleton] at hmem
    rcases hmem with rfl | rfl
    · exact absurd hle (by decide)
    · rfl
  have hus : Edit.runAll Database.Update.perform start us =
      .ok ([.ok (.created ⟨1⟩), .ok .done, .ok .done], db) := by decide +kernel
  have hos : Edit.runAll Overlay.Update.perform (.ofDatabase db) os =
      .ok ([.ok (.created ⟨6⟩), .ok .done, .ok .done, .ok (.created ⟨7⟩), .ok .done], o) := by
    decide +kernel
  have heval : (do
      let found ← (Operation.performAll c [.typeVariable p, .apply]).run (.start db)
      pure (TypeStore.has found.2.db.inner ⟨6⟩)) = (.ok true : Checked _) := by
    decide +kernel
  obtain ⟨⟨replies, s⟩, hs, hnew⟩ := Checked.bind_eq_ok.1 heval
  obtain ⟨hdb, hoverlays, hsessions⟩ := created_structs_are_fresh start us _ db hus
  refine ⟨by decide +kernel, ⟨by decide, by decide⟩, ⟨_, hus⟩, ?_, ⟨_, hos⟩, ?_, replies, s, hs,
    Checked.pure_eq_ok.1 hnew, ?_⟩
  · exact hdb.adds (by decide) (fun h => nomatch hahead _ h) none
  · exact (hoverlays os _ o hos).1.adds (by decide) (fun h => nomatch hahead _ h) none
  · intro id hid hin
    obtain ⟨l, hl⟩ := Option.isSome_iff_exists.1 hin
    rcases hsessions c _ _ s hs id l hl with hkept | hbefore
    · rw [hkept.2, hl]
    · exact absurd (congrArg StructId.index (hahead id hbefore)) hid

/-- A database is read whose document does not say which id comes next. It starts over at zero, so
that the struct that is created first replaces the one that was read. -/
theorem created_struct_replaces_loaded :
    let text := "\x7b\"structs\":[[0,\x7b\"id\":0,\"name\":\"node\",\"members\":\x7b\x7d,\"size\":8\x7d]]\x7d"
    ∃ db db', Database.parse? text = some db ∧ TypeStore.has db ⟨0⟩ = true ∧
      TypeStore.create db none = .ok (⟨0⟩, db') ∧
      TypeStore.name? db ⟨0⟩ = some "node" ∧ TypeStore.name? db' ⟨0⟩ = some "struct_0" := by
  intro text
  have hparse : Database.parse? text =
      some { structs := .ofList [(⟨0⟩, { id := ⟨0⟩, name := "node", size := 8 })] } := by
    decide +kernel
  exact ⟨_, _, hparse, by decide, rfl, by decide, by decide +kernel⟩

end TypeRecovery
