import TypeRecovery.Proofs.Sentinels
import TypeRecovery.Proofs.Updates

/-!
# Defining a struct

A struct is defined by creating it and placing its members one by one. The definition stops at the
first member that is refused, and what was built by then stays in the database, under the name and
the id of the struct. Everything else in the database is as it was, whether or not the definition is
accepted. `Database.Refuses` lists why a member can be refused.
-/
namespace TypeRecovery

namespace Layout

variable {l l' : Layout} {offset size : Nat} {type : Ty} {cause : Refusal}

theorem clearFor_eq_refused (h : (clearFor offset size).run.run l = .ok (.error cause, l')) :
    ∃ next, l.nextMember offset = some next ∧ next < offset + size ∧
      l.isTrailingSentinel next = .ok false ∧ cause = .memberOverlap l.id offset size next := by
  simp only [clearFor, Edit.run_get_bind] at h
  cases hnext : l.nextMember offset with
  | none =>
    rw [hnext] at h
    cases h
  | some next =>
    simp only [hnext, Edit.run_lift_bind, Checked.bind_eq_ok, Word.add_eq_ok_iff] at h
    obtain ⟨stop, ⟨_, rfl⟩, h⟩ := h
    split at h
    case isTrue => cases h
    case isFalse hgt =>
      simp only [Edit.run_lift_bind, Checked.bind_eq_ok] at h
      obtain ⟨sentinel, hsentinel, h⟩ := h
      cases sentinel with
      | true => cases h
      | false =>
        cases h
        exact ⟨next, rfl, Nat.lt_of_not_le hgt, hsentinel, rfl⟩

theorem setMemberType_eq_refused
    (h : (setMemberType offset type size).run.run l = .ok (.error cause, l')) :
    (l.memberStart offset = .ok none ∧ cause = .missingMember l.id offset) ∨
    (∃ start, start ≠ offset ∧ l.memberStart offset = .ok (some start) ∧
      cause = .midMember l.id offset start) ∨
    (l.memberStart offset = .ok (some offset) ∧ ∃ next, l.nextMember offset = some next ∧
      next < offset + size ∧ l.isTrailingSentinel next = .ok false ∧
      cause = .memberOverlap l.id offset size next) := by
  simp only [setMemberType, Edit.run_get_bind, Edit.run_lift_bind, Checked.bind_eq_ok] at h
  obtain ⟨start, hstart, h⟩ := h
  cases start with
  | none =>
    cases h
    exact .inl ⟨hstart, rfl⟩
  | some start =>
    simp only at h
    split at h
    case isFalse hne =>
      cases h
      exact .inr (.inl ⟨start, hne, hstart, rfl⟩)
    case isTrue heq =>
      subst heq
      rcases Edit.bind_eq_ok.1 h with ⟨_, hclear, hcause⟩ | ⟨⟨⟩, cleared, _, h⟩
      · cases hcause
        exact .inr (.inr ⟨hstart, clearFor_eq_refused hclear⟩)
      · simp only [Edit.run_modify_bind, Edit.run_lift_bind, Checked.bind_eq_ok] at h
        obtain ⟨_, _, h⟩ := h
        cases h

theorem addMember_name {answer : Except Refusal Bool}
    (h : (addMember offset).run.run l = .ok (answer, l')) : l'.name = l.name := by
  rcases addMember_eq_ok h with ⟨_, _, rfl⟩ | ⟨_, _, _, rfl⟩ <;> rfl

@[simp] theorem retype_name : (l.retype offset type size).name = l.name := by
  unfold retype
  split <;> rfl

theorem setMemberType_name {answer : Except Refusal Unit}
    (h : (setMemberType offset type size).run.run l = .ok (answer, l')) : l'.name = l.name := by
  rcases setMemberType_eq_ok h with ⟨_, _, rfl⟩ | ⟨_, _, _, cleared, hclear, rfl⟩
  · rfl
  · rcases clearFor_eq_ok hclear with ⟨_, _, rfl⟩ | ⟨_, rfl, _⟩ | ⟨_, _, _, _, _, rfl⟩ <;> simp

theorem memberStart_ne_none (h : l.covers offset = .ok true) : l.memberStart offset ≠ .ok none := by
  intro hnone
  obtain ⟨m, hm⟩ := covers_eq_true.1 h
  simp only [memberStart, hm] at hnone
  cases hnone

end Layout

namespace Database

variable {db db' : Database} {l l' placed : Layout} {offset : Nat} {t : Ty} {cause : Refusal}

/-- The database while a struct is defined: the counter has moved on, and the struct has a
layout. -/
def withDraft (db : Database) (l : Layout) : Database :=
  { db with nextId := db.nextId + 1, structs := db.structs.insert ⟨db.nextId⟩ l }

@[simp] theorem layout?_withDraft (db : Database) (l : Layout) :
    TypeStore.layout? (db.withDraft l) ⟨db.nextId⟩ = some l :=
  Table.get?_insert_self _ _ _

@[simp] theorem setLayout_withDraft (db : Database) (l l' : Layout) :
    TypeStore.setLayout (db.withDraft l) ⟨db.nextId⟩ l' = db.withDraft l' := by
  have hstructs : (db.structs.insert ⟨db.nextId⟩ l).insert ⟨db.nextId⟩ l' =
      db.structs.insert ⟨db.nextId⟩ l' := Table.insert_insert _ _ _ _
  exact congrArg (fun structs => { db with nextId := db.nextId + 1, structs }) hstructs

theorem withDraft_injective (h : db.withDraft l = db.withDraft l') : l = l' := by
  have hlayout := congrArg (TypeStore.layout? · ⟨db.nextId⟩) h
  simpa using hlayout

/-- Why a type is refused for a member that has its place in the layout: the type has no size, the
offset lies inside another member, or the member would run into one that is not the sentinel. -/
inductive Refuses (db : Database) (placed : Layout) (offset : Nat) (t : Ty) : Refusal → Prop
  | unsized {text : String} (hsize : TypeStore.sizeOf (db.withDraft placed) t = .ok none)
      (htext : TypeStore.render (db.withDraft placed) t = .ok text) :
      Refuses db placed offset t (.unsizedType text)
  | inside {size : Nat} {m : Member}
      (hsize : TypeStore.sizeOf (db.withDraft placed) t = .ok (some size))
      (hm : placed.members.get? m.offset = some m) (hbefore : m.offset < offset)
      (hin : offset < m.offset + m.width) :
      Refuses db placed offset t (.midMember ⟨db.nextId⟩ offset m.offset)
  | overlap {size : Nat} {m : Member}
      (hsize : TypeStore.sizeOf (db.withDraft placed) t = .ok (some size))
      (hm : placed.members.get? m.offset = some m) (hafter : offset < m.offset)
      (hlt : m.offset < offset + size)
      (hreal : placed.isTrailingSentinel m.offset = .ok false) :
      Refuses db placed offset t (.memberOverlap ⟨db.nextId⟩ offset size m.offset)

theorem editLayout_withDraft {α : Type} {change : Edit Layout α} {r : Except Refusal α}
    (h : (TypeStore.editLayout ⟨db.nextId⟩ change : Edit Database α).run.run (db.withDraft l) =
      .ok (r, db')) : ∃ l', change.run.run l = .ok (r, l') ∧ db' = db.withDraft l' := by
  rcases TypeStore.editLayout_eq_ok h with ⟨hnone, _⟩ | ⟨k, l', hk, hchange, rfl⟩
  · rw [layout?_withDraft] at hnone
    cases hnone
  · rw [layout?_withDraft] at hk
    cases hk
    exact ⟨l', hchange, setLayout_withDraft db l l'⟩

theorem setMemberType_withDraft {r : Except Refusal Unit}
    (h : (TypeStore.setMemberType ⟨db.nextId⟩ offset t : Edit Database Unit).run.run
      (db.withDraft l) = .ok (r, db')) :
    (∃ text, TypeStore.sizeOf (db.withDraft l) t = .ok none ∧
      TypeStore.render (db.withDraft l) t = .ok text ∧ r = .error (.unsizedType text) ∧
      db' = db.withDraft l) ∨
    ∃ size l', TypeStore.sizeOf (db.withDraft l) t = .ok (some size) ∧
      (Layout.setMemberType offset t size).run.run l = .ok (r, l') ∧ db' = db.withDraft l' := by
  rw [TypeStore.run_setMemberType, TypeStore.has, layout?_withDraft] at h
  obtain ⟨size, hsize, h⟩ := Checked.bind_eq_ok.1 h
  cases size with
  | none =>
    obtain ⟨text, htext, h⟩ := Checked.bind_eq_ok.1 h
    cases h
    exact .inl ⟨text, hsize, htext, rfl, rfl⟩
  | some size =>
    obtain ⟨l', hset, rfl⟩ := editLayout_withDraft h
    exact .inr ⟨size, l', hsize, hset, rfl⟩

theorem refuses_of_setMemberType (hwf : placed.WellFormed) (hid : placed.id = ⟨db.nextId⟩)
    (hcovers : placed.covers offset = .ok true)
    (h : (TypeStore.setMemberType ⟨db.nextId⟩ offset t : Edit Database Unit).run.run
      (db.withDraft placed) = .ok (.error cause, db')) :
    Refuses db placed offset t cause ∧ db' = db.withDraft placed := by
  rcases setMemberType_withDraft h with ⟨text, hsize, htext, hcause, rfl⟩ |
      ⟨size, l', hsize, hset, rfl⟩
  · cases hcause
    exact ⟨.unsized hsize htext, rfl⟩
  · obtain rfl : l' = placed := by
      rcases Layout.setMemberType_eq_ok hset with ⟨_, _, hl⟩ | ⟨hok, _⟩
      · exact hl
      · cases hok
    refine ⟨?_, rfl⟩
    obtain ⟨m, hm⟩ := Layout.covers_eq_true.1 hcovers
    have hcovered := hwf.memberAt_eq_some.1 hm
    rcases Layout.setMemberType_eq_refused hset with ⟨hnone, _⟩ | ⟨start, hne, hstart, rfl⟩ |
        ⟨hstart, next, hnext, hlt, hreal, rfl⟩
    · exact absurd hnone (Layout.memberStart_ne_none hcovers)
    · obtain rfl : m.offset = start := by
        simp only [Layout.memberStart, hm] at hstart
        cases hstart
        rfl
      rw [hid]
      exact .inside hsize hcovered.held (Nat.lt_of_le_of_ne hcovered.start_le hne) hcovered.lt_stop
    · have hword : offset < Word.max := by
        have hmax : Word.bound = Word.max + 1 := rfl
        have hstop := hcovered.word
        have hin := hcovered.lt_stop
        omega
      obtain ⟨⟨n, hn⟩, hafter, _⟩ := Layout.of_nextMember_eq_some hnext hword
      obtain rfl : n.offset = next := hwf.keyed hn
      rw [hid]
      exact .overlap hsize hn hafter hlt hreal

/-- The layout of the struct that is being defined, once the members listed in `done` are placed. -/
structure Drafted (db : Database) (name : String) (done : List (Nat × Ty)) (l : Layout) : Prop where
  wellFormed : l.WellFormed
  id : l.id = ⟨db.nextId⟩
  name : l.name = name
  listed : ∀ a m, l.members.get? a = some m → a ∈ done.map (·.1)

theorem drafted_new (db : Database) (name : String) :
    Drafted db name [] { id := ⟨db.nextId⟩, name } :=
  ⟨Layout.wellFormed_empty _ _, rfl, rfl, nofun⟩

variable {name : String} {done : List (Nat × Ty)}

theorem Drafted.addMember (h : Drafted db name done l) {added : Except Refusal Bool}
    (hadd : (Layout.addMember offset).run.run l = .ok (added, l')) (t : Ty) :
    Drafted db name (done ++ [(offset, t)]) l' where
  wellFormed := h.wellFormed.addMember hadd
  id := (Layout.addMember_id hadd).trans h.id
  name := (Layout.addMember_name hadd).trans h.name
  listed := by
    intro a m hm
    rw [List.map_append, List.mem_append]
    rcases Layout.addMember_eq_ok hadd with ⟨_, _, rfl⟩ | ⟨_, _, _, rfl⟩
    · exact .inl (h.listed a m hm)
    · rcases Table.eq_or_of_get?_insert hm with ⟨heq, _⟩ | hm
      · exact .inr (List.mem_singleton.2 heq)
      · exact .inl (h.listed a m hm)

theorem Drafted.setMemberType (h : Drafted db name done l) {size : Nat}
    (hset : (Layout.setMemberType offset t size).run.run l = .ok (.ok (), l')) :
    Drafted db name done l' where
  wellFormed := (h.wellFormed.setMemberType hset).1
  id := (Layout.setMemberType_id hset).trans h.id
  name := (Layout.setMemberType_name hset).trans h.name
  listed := by
    intro a m hm
    obtain ⟨⟨first, hfirst, _⟩, hother⟩ := h.wellFormed.get?_setMemberType hset
    by_cases heq : a = offset
    · exact heq ▸ h.listed offset first hfirst
    · rw [hother heq] at hm
      split at hm
      · cases hm
      · exact h.listed a m hm

theorem drafted_of_placeMembers {members : List (Nat × Ty)} (hl : Drafted db name done l)
    (h : (placeMembers ⟨db.nextId⟩ members).run.run (db.withDraft l) = .ok (.ok (), db')) :
    ∃ l', db' = db.withDraft l' ∧ Drafted db name (done ++ members) l' := by
  induction members generalizing l done with
  | nil =>
    cases h
    exact ⟨l, rfl, by rwa [List.append_nil]⟩
  | cons member rest ih =>
    rcases Edit.bind_eq_ok.1 h with ⟨_, _, hrefused⟩ | ⟨added, mid, hadd, h⟩
    · cases hrefused
    obtain ⟨placed, hplaced, rfl⟩ := editLayout_withDraft hadd
    rcases Edit.bind_eq_ok.1 h with ⟨_, _, hrefused⟩ | ⟨⟨⟩, last, hset, h⟩
    · cases hrefused
    rcases setMemberType_withDraft hset with ⟨_, _, _, hrefused, _⟩ | ⟨size, l', _, htyped, rfl⟩
    · cases hrefused
    have hmember := (hl.addMember hplaced member.2).setMemberType htyped
    obtain ⟨last, hlast, hdrafted⟩ := ih hmember h
    exact ⟨last, hlast, by rwa [List.append_assoc] at hdrafted⟩

/-- Members are placed up to the first that is refused, which leaves at most a placeholder. -/
theorem placeMembers_eq_refused {members : List (Nat × Ty)} (hl : Drafted db name done l)
    (h : (placeMembers ⟨db.nextId⟩ members).run.run (db.withDraft l) = .ok (.error cause, db')) :
    ∃ before offset t rest built added placed, members = before ++ (offset, t) :: rest ∧
      (placeMembers ⟨db.nextId⟩ before).run.run (db.withDraft l) =
        .ok (.ok (), db.withDraft built) ∧
      (Layout.addMember offset).run.run built = .ok (.ok added, placed) ∧
      Refuses db placed offset t cause ∧ db' = db.withDraft placed := by
  induction members generalizing l done with
  | nil => cases h
  | cons member rest ih =>
    obtain ⟨offset, t⟩ := member
    rcases Edit.bind_eq_ok.1 h with ⟨_, hadd, _⟩ | ⟨added, mid, hadd, h⟩
    · obtain ⟨placed, hplaced, _⟩ := editLayout_withDraft hadd
      obtain ⟨⟨_, hok⟩, _⟩ := hl.wellFormed.covers_of_addMember hplaced
      cases hok
    obtain ⟨placed, hplaced, rfl⟩ := editLayout_withDraft hadd
    have hmember := hl.addMember hplaced t
    rcases Edit.bind_eq_ok.1 h with ⟨_, hset, hcause⟩ | ⟨⟨⟩, last, hset, h⟩
    · cases hcause
      obtain ⟨_, hcovers⟩ := hl.wellFormed.covers_of_addMember hplaced
      obtain ⟨hrefuses, rfl⟩ := refuses_of_setMemberType hmember.wellFormed hmember.id hcovers hset
      exact ⟨[], offset, t, rest, l, added, placed, rfl, rfl, hplaced, hrefuses, rfl⟩
    · rcases setMemberType_withDraft hset with ⟨_, _, _, hrefused, _⟩ | ⟨size, l', _, htyped, rfl⟩
      · cases hrefused
      obtain ⟨before, offset', t', rest', built, added', placed', rfl, hbefore, hlast⟩ :=
        ih (hmember.setMemberType htyped) h
      refine ⟨(offset, t) :: before, offset', t', rest', built, added', placed', rfl, ?_, hlast⟩
      refine Edit.bind_eq_ok.2 (.inr ⟨added, _, hadd, Edit.bind_eq_ok.2 (.inr ⟨(), _, hset, ?_⟩)⟩)
      exact hbefore

theorem create_withDraft (hword : db.nextId + 1 < Word.bound) :
    db.create (some name) =
      .ok (⟨db.nextId⟩, db.withDraft { id := ⟨db.nextId⟩, name }) :=
  create_eq_ok.2 ⟨hword, rfl, rfl⟩

/-- The last step of a definition: the struct gets the size it was given, if that is larger. -/
def enlarge (id : StructId) (size : Nat) (db : Database) : Database :=
  match db.structs.get? id with
  | some l => { db with structs := db.structs.insert id { l with size := max l.size size } }
  | none => db

theorem enlarge_withDraft (db : Database) (l : Layout) (size : Nat) :
    (db.withDraft l).enlarge ⟨db.nextId⟩ size =
      db.withDraft { l with size := max l.size size } := by
  have hget : (db.withDraft l).structs.get? ⟨db.nextId⟩ = some l := layout?_withDraft db l
  unfold enlarge
  rw [hget]
  exact setLayout_withDraft db l _

theorem run_define (hword : db.nextId + 1 < Word.bound) (size : Nat) (members : List (Nat × Ty)) :
    (define name size members).run.run db =
      (placeMembers ⟨db.nextId⟩ members >>= fun _ => do
        modify (enlarge ⟨db.nextId⟩ size)
        return ⟨db.nextId⟩ : Edit Database StructId).run.run
          (db.withDraft { id := ⟨db.nextId⟩, name }) := by
  simp only [define, Edit.run_get_bind, Edit.run_lift_bind, create_withDraft hword]
  rfl

theorem define_eq_ok_iff {size : Nat} {members : List (Nat × Ty)} {r : Except Refusal StructId} :
    (define name size members).run.run db = .ok (r, db') ↔ db.nextId + 1 < Word.bound ∧
      ((∃ cause, (placeMembers ⟨db.nextId⟩ members).run.run
          (db.withDraft { id := ⟨db.nextId⟩, name }) = .ok (.error cause, db') ∧
          r = .error cause) ∨
        ∃ l, (placeMembers ⟨db.nextId⟩ members).run.run
          (db.withDraft { id := ⟨db.nextId⟩, name }) = .ok (.ok (), db.withDraft l) ∧
          r = .ok ⟨db.nextId⟩ ∧ db' = db.withDraft { l with size := max l.size size }) := by
  constructor
  · intro h
    have hword : db.nextId + 1 < Word.bound := by
      simp only [define, Edit.run_get_bind, Edit.run_lift_bind] at h
      obtain ⟨_, hcreate, _⟩ := Checked.bind_eq_ok.1 h
      exact (create_eq_ok.1 hcreate).1
    refine ⟨hword, ?_⟩
    rw [run_define hword] at h
    rcases Edit.bind_eq_ok.1 h with hrefused | ⟨⟨⟩, mid, hplaced, hlast⟩
    · exact .inl hrefused
    · obtain ⟨l, rfl, _⟩ := drafted_of_placeMembers (drafted_new db name) hplaced
      rw [Edit.run_modify_bind, enlarge_withDraft] at hlast
      cases hlast
      exact .inr ⟨l, hplaced, rfl, rfl⟩
  · rintro ⟨hword, hrefused | ⟨l, hplaced, rfl, rfl⟩⟩
    · rw [run_define hword]
      exact Edit.bind_eq_ok.2 (.inl hrefused)
    · rw [run_define hword]
      refine Edit.bind_eq_ok.2 (.inr ⟨(), _, hplaced, ?_⟩)
      rw [Edit.run_modify_bind, enlarge_withDraft]
      rfl

/-- A definition changes the counter and the struct that it creates, and nothing else. If it is
accepted, the struct has at least the size that was asked for. If it is refused, the struct stays:
it is what the members before the refused one give, with at most a placeholder for that one. -/
theorem definition_stops_at_refusal (db : Database) (name : String) (size : Nat)
    (members : List (Nat × Ty)) (r : Except Refusal StructId) (db' : Database)
    (h : (define name size members).run.run db = .ok (r, db')) :
    ∃ l, db' = db.withDraft l ∧ Drafted db name members l ∧
      (∀ id, r = .ok id → id = ⟨db.nextId⟩ ∧ size ≤ l.size) ∧
      ∀ cause, r = .error cause → ∃ done offset t rest built added,
        members = done ++ (offset, t) :: rest ∧
        (define name 0 done).run.run db = .ok (.ok ⟨db.nextId⟩, db.withDraft built) ∧
        Drafted db name done built ∧
        (Layout.addMember offset).run.run built = .ok (.ok added, l) ∧
        Refuses db l offset t cause := by
  have hnew := drafted_new db name
  obtain ⟨hword, ⟨cause, hrefused, rfl⟩ | ⟨l, hplaced, rfl, rfl⟩⟩ := define_eq_ok_iff.1 h
  · obtain ⟨done, offset, t, rest, built, added, placed, rfl, hdone, hadd, hrefuses, rfl⟩ :=
      placeMembers_eq_refused hnew hrefused
    obtain ⟨built', heq, hbuilt⟩ := drafted_of_placeMembers hnew hdone
    obtain rfl := withDraft_injective heq
    have hdefine : (define name 0 done).run.run db = .ok (.ok ⟨db.nextId⟩, db.withDraft built) := by
      refine define_eq_ok_iff.2 ⟨hword, .inr ⟨built, hdone, rfl, ?_⟩⟩
      rw [Nat.max_zero]
    have hlast := hbuilt.addMember hadd t
    refine ⟨placed, rfl, ⟨hlast.wellFormed, hlast.id, hlast.name, ?_⟩, ?_, ?_⟩
    · intro a m hm
      have hlisted := hlast.listed a m hm
      simp only [List.map_append, List.mem_append, List.map_cons, List.mem_cons] at hlisted ⊢
      tauto
    · rintro _ ⟨⟩
    · rintro _ ⟨⟩
      exact ⟨done, offset, t, rest, built, added, rfl, hdefine, hbuilt, hadd, hrefuses⟩
  · obtain ⟨l', heq, hl⟩ := drafted_of_placeMembers hnew hplaced
    obtain rfl := withDraft_injective heq
    have hgrown := hl.wellFormed.grow (Nat.le_max_left l.size size)
    refine ⟨_, rfl, ⟨hgrown, hl.id, hl.name, hl.listed⟩, ?_, ?_⟩
    · rintro _ ⟨⟩
      exact ⟨rfl, Nat.le_max_right _ _⟩
    · rintro _ ⟨⟩

/-- The third member lies inside the second. The first two stay. -/
theorem definition_stops_at_third :
    let db : Database := { structs := .ofList [(⟨0⟩, { id := ⟨0⟩, name := "old" })], nextId := 1 }
    ∃ db' l, (define "node" 64 [(8, .int 4 true), (0, .int 8 true), (2, .int 4 true),
        (16, .int 8 true)]).run.run db = .ok (.error (.midMember ⟨1⟩ 2 0), db') ∧
      db' = db.withDraft l ∧ l.size = 12 ∧ l.members.keys = [0, 8] ∧
      ∃ done offset t rest built added,
        [(8, Ty.int 4 true), (0, .int 8 true), (2, .int 4 true), (16, .int 8 true)] =
          done ++ (offset, t) :: rest ∧
        (Layout.addMember offset).run.run built = .ok (.ok added, l) ∧
        Refuses db l offset t (.midMember ⟨1⟩ 2 0) := by
  intro db
  obtain ⟨l, hl, _, _, hrefused⟩ := definition_stops_at_refusal db "node" 64
    [(8, .int 4 true), (0, .int 8 true), (2, .int 4 true), (16, .int 8 true)] _ _ rfl
  obtain ⟨done, offset, t, rest, built, added, hsplit, _, _, hadd, hrefuses⟩ := hrefused _ rfl
  have hlayout := congrArg (TypeStore.layout? · ⟨1⟩) hl
  have hsome : some _ = some l := hlayout.trans (layout?_withDraft db l)
  cases hsome
  exact ⟨_, _, rfl, hl, rfl, rfl, done, offset, t, rest, built, added, hsplit, hadd, hrefuses⟩

/-- A refused definition leaves a struct behind that is found by its name. -/
theorem refused_definition_leaves_struct :
    ∃ db', (define "node" 8 [(0, .int 4 true), (2, .int 4 true)]).run.run {} =
        .ok (.error (.midMember ⟨0⟩ 2 0), db') ∧
      db' ≠ {} ∧ db'.nextId = 1 ∧ TypeStore.byName? db' "node" = some ⟨0⟩ :=
  ⟨_, rfl, by decide, rfl, by decide⟩

end Database
end TypeRecovery
