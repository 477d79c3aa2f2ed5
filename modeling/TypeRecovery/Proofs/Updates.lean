import TypeRecovery.Proofs.CallTargets

/-!
# Updates of a database

Besides the changes that every store accepts, a database can define a struct with all its members at
once. `Database.Change` says once what an update of either kind does to the structs that exist, to
the declarations and to the call targets; what holds after every sequence of updates follows from it
by induction.
-/
namespace TypeRecovery

namespace Database

/-- The ways to change a database. -/
inductive Update where
  | edit (e : StoreEdit)
  | define (name : String) (size : Nat) (members : List (Nat × Ty))
deriving DecidableEq

def Update.perform : Update → Edit Database Answer
  | edit e => e.perform
  | define name size members => Answer.created <$> Database.define name size members

/-- Whether the update takes a new id from the counter. -/
def Update.creates : Update → Bool
  | edit (.create _) => true
  | define _ _ _ => true
  | _ => false

/-- Two databases differ in the contents of layouts at most. -/
structure Alike (db db' : Database) : Prop where
  declared : db'.declared = db.declared
  callTargets : db'.callTargets = db.callTargets
  nextId : db'.nextId = db.nextId
  contains : ∀ id, db'.structs.contains id = db.structs.contains id

namespace Alike

variable {db db' db'' : Database}

theorem refl (db : Database) : Alike db db := ⟨rfl, rfl, rfl, fun _ => rfl⟩

theorem trans (h : Alike db db') (h' : Alike db' db'') : Alike db db'' where
  declared := h'.declared.trans h.declared
  callTargets := h'.callTargets.trans h.callTargets
  nextId := h'.nextId.trans h.nextId
  contains id := (h'.contains id).trans (h.contains id)

theorem setLayout {id : StructId} {l : Layout} (hl : db.structs.get? id = some l) (l' : Layout) :
    Alike db { db with structs := db.structs.insert id l' } where
  declared := rfl
  callTargets := rfl
  nextId := rfl
  contains id' := by
    rw [Table.contains_insert]
    by_cases heq : id' = id
    · rw [heq, Table.contains_of_get? hl, Bool.or_true]
    · rw [decide_eq_false heq, Bool.false_or]

theorem of_editLayout {α : Type} {id : StructId} {change : Edit Layout α} {r : Except Refusal α}
    (h : (TypeStore.editLayout id change : Edit Database α).run.run db = .ok (r, db')) :
    Alike db db' := by
  rcases TypeStore.editLayout_eq_ok h with ⟨_, _, rfl⟩ | ⟨l, l', hl, _, rfl⟩
  · exact refl db'
  · exact setLayout hl l'

theorem of_setMemberType {id : StructId} {offset : Nat} {t : Ty} {r : Except Refusal Unit}
    (h : (TypeStore.setMemberType id offset t : Edit Database Unit).run.run db = .ok (r, db')) :
    Alike db db' := by
  rcases TypeStore.setMemberType_eq_ok h with ⟨_, _, rfl⟩ | ⟨size, _, hedit⟩
  · exact refl db'
  · exact of_editLayout hedit

theorem of_placeMembers {id : StructId} {members : List (Nat × Ty)} {r : Except Refusal Unit}
    (h : (placeMembers id members).run.run db = .ok (r, db')) : Alike db db' := by
  induction members generalizing db with
  | nil =>
    cases h
    exact refl _
  | cons member rest ih =>
    rcases Edit.bind_eq_ok.1 h with ⟨_, hadd, _⟩ | ⟨_, added, hadd, h⟩
    · exact of_editLayout hadd
    · have hadded : Alike db added := of_editLayout hadd
      rcases Edit.bind_eq_ok.1 h with ⟨_, hset, _⟩ | ⟨_, typed, hset, h⟩
      · exact hadded.trans (of_setMemberType hset)
      · exact hadded.trans ((of_setMemberType hset).trans (ih h))

theorem enlarge (db : Database) (id : StructId) (size : Nat) :
    Alike db (match db.structs.get? id with
      | some l => { db with structs := db.structs.insert id { l with size := max l.size size } }
      | none => db) := by
  split
  case h_1 l hl => exact setLayout hl _
  case h_2 => exact refl db

end Alike

theorem create_eq_ok {db db' : Database} {name : Option String} {id : StructId} :
    db.create name = .ok (id, db') ↔ db.nextId + 1 < Word.bound ∧ id = ⟨db.nextId⟩ ∧
      db' = { db with
        nextId := db.nextId + 1
        structs := db.structs.insert id
          { id, name := name.getD (defaultStructName id.index) } } := by
  unfold create
  simp only [Checked.bind_eq_ok, Checked.pure_eq_ok, Word.add_eq_ok_iff, Prod.mk.injEq]
  constructor
  · rintro ⟨n, ⟨hn, rfl⟩, rfl, rfl⟩
    exact ⟨hn, rfl, rfl⟩
  · rintro ⟨hn, rfl, rfl⟩
    exact ⟨_, ⟨hn, rfl⟩, rfl, rfl⟩

theorem insert_eq_ok {db db' : Database} {l : Layout} :
    db.insert l = .ok db' ↔ l.id.index + 1 < Word.bound ∧ db' = { db with
      nextId := max db.nextId (l.id.index + 1)
      structs := db.structs.insert l.id l } := by
  unfold insert
  simp only [Checked.bind_eq_ok, Checked.pure_eq_ok, Word.add_eq_ok_iff]
  constructor
  · rintro ⟨n, ⟨hn, rfl⟩, rfl⟩
    exact ⟨hn, rfl⟩
  · rintro ⟨hn, rfl⟩
    exact ⟨_, ⟨hn, rfl⟩, rfl⟩

/-- A definition creates a struct and fills in its layout; nothing else changes, and the struct stays
if one of its members is refused. -/
theorem define_eq_ok {db db' : Database} {name : String} {size : Nat} {members : List (Nat × Ty)}
    {r : Except Refusal StructId} (h : (define name size members).run.run db = .ok (r, db')) :
    ∃ id created, db.create (some name) = .ok (id, created) ∧ Alike created db' := by
  simp only [define, Edit.run_get_bind, Edit.run_lift_bind] at h
  obtain ⟨⟨id, created⟩, hcreate, h⟩ := Checked.bind_eq_ok.1 h
  refine ⟨id, created, hcreate, ?_⟩
  have hplace : (placeMembers id members >>= fun _ => do
      modify fun db => match db.structs.get? id with
        | some l => { db with structs := db.structs.insert id { l with size := max l.size size } }
        | none => db
      return id : Edit Database StructId).run.run created = .ok (r, db') := h
  rcases Edit.bind_eq_ok.1 hplace with ⟨_, hrefused, _⟩ | ⟨_, placed, hplaced, hlast⟩
  · exact Alike.of_placeMembers hrefused
  · rw [Edit.run_modify_bind] at hlast
    cases hlast
    exact (Alike.of_placeMembers hplaced).trans (Alike.enlarge placed id size)

/-- What an update leaves behind. A declaration that is accepted is known and reaches no struct that
is missing; a deletion takes the struct and its call targets away; every other update keeps all
structs, and those that are new have their ids from the counter or from an insertion. -/
inductive Change (db : Database) : Update → Database → Prop
  | declare {var : Variable} {t : Ty} (hknown : t.isUnknown = false)
      (hreach : ∀ id, t.finalStruct? = some id → db.structs.contains id = true) :
      Change db (.edit (.declare var t)) { db with declared := db.declared.insert var t }
  | delete {id : StructId} (hin : db.structs.contains id = true) :
      Change db (.edit (.delete id)) { db with
        structs := db.structs.erase id
        callTargets := db.callTargets.removeStruct id }
  | setCallTarget {r : MemberRef} {target : Nat} (hin : db.structs.contains r.struct = true) :
      Change db (.edit (.setCallTarget r target))
        { db with callTargets := db.callTargets.insert r target }
  | insert {l : Layout} {db' : Database} (h : db.insert l = .ok db') :
      Change db (.edit (.insert l)) db'
  | create {u : Update} (hu : u.creates = true) {name : Option String} {id : StructId}
      {created db' : Database} (h : db.create name = .ok (id, created))
      (halike : Alike created db') : Change db u db'
  | keep {u : Update} {db' : Database} (halike : Alike db db')
      (hu : ∀ l, u ≠ .edit (.insert l))
      (hdelete : ∀ id, u = .edit (.delete id) → db.structs.contains id = false) : Change db u db'

variable {db db' : Database} {u : Update} {answer : Except Refusal Answer}

theorem change_of_declare {var : Variable} {t : Ty}
    (h : (StoreEdit.declare var t).perform.run.run db = .ok (answer, db')) :
    Change db (.edit (.declare var t)) db' := by
  simp only [StoreEdit.perform, Edit.run_get_bind, Edit.run_replace, TypeStore.declare_eq] at h
  cases hrefusal : TypeStore.refusal? db var t with
  | some cause =>
    rw [hrefusal] at h
    cases h
    refine .keep (.refl _) ?_ ?_
    · intro l hinsert
      cases hinsert
    · intro id hdelete
      cases hdelete
  | none =>
    rw [hrefusal] at h
    cases h
    unfold TypeStore.refusal? at hrefusal
    split at hrefusal
    case isTrue => cases hrefusal
    case isFalse hknown =>
      refine .declare (by simpa using hknown) ?_
      intro id hid
      rw [hid] at hrefusal
      have hhas : TypeStore.has db id = true := by simpa [Option.filter] using hrefusal
      exact hhas

theorem change_of_insert {l : Layout}
    (h : (StoreEdit.insert l).perform.run.run db = .ok (answer, db')) :
    Change db (.edit (.insert l)) db' := by
  simp only [StoreEdit.perform, Edit.run_get_bind, Edit.run_lift_bind] at h
  obtain ⟨stored, hinsert, hset⟩ := Checked.bind_eq_ok.1 h
  cases hset
  exact .insert hinsert

theorem change_of_effect {e : StoreEdit} (hdeclare : ∀ var t, e ≠ .declare var t)
    (hinsert : ∀ l, e ≠ .insert l) (h : TypeStore.Effect db e db') : Change db (.edit e) db' := by
  have hu : ∀ l, Update.edit e ≠ .edit (.insert l) := fun l heq => hinsert l (Update.edit.inj heq)
  cases h with
  | declare var t => exact absurd rfl (hdeclare var t)
  | create h => exact .create rfl h (.refl _)
  | insert h => exact absurd rfl (hinsert _)
  | delete h =>
    obtain ⟨hin, rfl⟩ := delete_eq_ok.1 h
    exact .delete hin
  | setCallTarget h =>
    obtain ⟨hin, rfl⟩ := setCallTarget_eq_ok.1 h
    exact .setCallTarget hin
  | reshape he hl l' =>
    refine .keep (.setLayout hl l') hu ?_
    rintro id ⟨⟩
    cases he
  | none hdelete _ =>
    refine .keep (.refl _) hu ?_
    rintro id ⟨⟩
    by_contra hin
    exact hdelete id _ rfl (delete_eq_ok.2 ⟨by simpa using hin, rfl⟩)

theorem change_of_perform (h : u.perform.run.run db = .ok (answer, db')) : Change db u db' := by
  cases u with
  | define name size members =>
    obtain ⟨r, hdefine, _⟩ := Edit.map_eq_ok.1 h
    obtain ⟨id, created, hcreate, halike⟩ := define_eq_ok hdefine
    exact .create rfl hcreate halike
  | edit e =>
    cases e with
    | declare var t => exact change_of_declare h
    | insert l => exact change_of_insert h
    | _ => exact change_of_effect nofun nofun (TypeStore.effect_of_perform h)

namespace Change

variable {id : StructId}

theorem contains_of_create {name : Option String} {created : Database}
    (h : db.create name = .ok (id, created)) (halike : Alike created db') (other : StructId) :
    db'.structs.contains other = (decide (other = id) || db.structs.contains other) := by
  obtain ⟨_, _, rfl⟩ := create_eq_ok.1 h
  rw [halike.contains, Table.contains_insert]

theorem nextId_le (h : Change db u db') : db.nextId ≤ db'.nextId := by
  cases h with
  | declare | delete | setCallTarget => exact Nat.le_refl _
  | insert h =>
    obtain ⟨_, rfl⟩ := insert_eq_ok.1 h
    exact Nat.le_max_left _ _
  | create _ h halike =>
    obtain ⟨_, _, rfl⟩ := create_eq_ok.1 h
    rw [halike.nextId]
    exact Nat.le_succ _
  | keep halike => exact Nat.le_of_eq halike.nextId.symm

theorem contains_or_below (h : Change db u db') (hin : db'.structs.contains id = true) :
    db.structs.contains id = true ∨ id.index < db'.nextId := by
  cases h with
  | declare | setCallTarget => exact .inl hin
  | delete =>
    rw [Table.contains_erase, Bool.and_eq_true] at hin
    exact .inl hin.2
  | insert h =>
    obtain ⟨_, rfl⟩ := insert_eq_ok.1 h
    rw [Table.contains_insert, Bool.or_eq_true, decide_eq_true_iff] at hin
    rcases hin with rfl | hin
    · exact .inr (Nat.le_max_right _ _)
    · exact .inl hin
  | create _ h halike =>
    rw [contains_of_create h halike, Bool.or_eq_true, decide_eq_true_iff] at hin
    rcases hin with rfl | hin
    · obtain ⟨_, rfl, rfl⟩ := create_eq_ok.1 h
      rw [halike.nextId]
      exact .inr (Nat.lt_succ_self _)
    · exact .inl hin
  | keep halike =>
    rw [halike.contains] at hin
    exact .inl hin

theorem contains_kept (h : Change db u db') (hin : db.structs.contains id = true)
    (hu : u ≠ .edit (.delete id)) : db'.structs.contains id = true := by
  cases h with
  | declare | setCallTarget => exact hin
  | @delete id' =>
    have hne : id ≠ id' := fun heq => hu (by rw [heq])
    rw [Table.contains_erase, hin, decide_eq_true hne, Bool.and_true]
  | insert h =>
    obtain ⟨_, rfl⟩ := insert_eq_ok.1 h
    exact Table.contains_insert_of_contains hin _ _
  | create _ h halike => rw [contains_of_create h halike, hin, Bool.or_true]
  | keep halike => rw [halike.contains, hin]

/-- A struct that is missing, although its id was given out, comes back by an insertion only. -/
theorem not_contains (h : Change db u db') (hout : db.structs.contains id = false)
    (hbelow : id.index < db.nextId) (hu : ∀ l, u = .edit (.insert l) → l.id ≠ id) :
    db'.structs.contains id = false := by
  cases h with
  | declare | setCallTarget => exact hout
  | delete => rw [Table.contains_erase, hout, Bool.and_false]
  | @insert l _ h =>
    obtain ⟨_, rfl⟩ := insert_eq_ok.1 h
    have hne : id ≠ l.id := (hu l rfl).symm
    rw [Table.contains_insert, hout, decide_eq_false hne, Bool.or_false]
  | create _ h halike =>
    obtain ⟨_, hid, _⟩ := create_eq_ok.1 h
    have hne : id ≠ ⟨db.nextId⟩ := by
      rintro rfl
      exact Nat.lt_irrefl _ hbelow
    rw [contains_of_create h halike, hout, hid, decide_eq_false hne, Bool.or_false]
  | keep halike => rw [halike.contains, hout]

end Change

end Database
end TypeRecovery
