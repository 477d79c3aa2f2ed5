import TypeRecovery.Store.Database
import TypeRecovery.Proofs.Layouts

/-!
# Changes to stores

The changes that every type store accepts, as data, so that one run can be made on two stores and
the outcomes compared.
-/
namespace TypeRecovery

/-- The ways to change a store. -/
inductive StoreEdit where
  | declare (var : Variable) (type : Ty)
  | create (name : Option String)
  | insert (l : Layout)
  | delete (id : StructId)
  | setCallTarget (member : MemberRef) (target : Nat)
  /-- Changes a layout in place, if it is there. -/
  | change (id : StructId) (edit : LayoutEdit)
  | addMember (id : StructId) (offset : Nat)
  | setMemberType (id : StructId) (offset : Nat) (type : Ty)
  | maximizeSize (id : StructId) (size : Nat)
deriving DecidableEq

/-- Replaces the state by another one, or refuses to. -/
def Edit.replace {σ : Type} (result : Except Refusal σ) : Edit σ Answer :=
  match result with
  | .ok s => do
    set s
    return .done
  | .error cause => throw cause

theorem Edit.run_replace {σ : Type} (result : Except Refusal σ) (s : σ) :
    (Edit.replace result).run.run s = match result with
      | .ok s' => .ok (.ok .done, s')
      | .error cause => .ok (.error cause, s) := by
  cases result <;> rfl

namespace StoreEdit

variable {σ : Type} [TypeStore σ]

def perform : StoreEdit → Edit σ Answer
  | declare var type => do Edit.replace (TypeStore.declare (← get) var type)
  | create name => do
    let (id, s) ← TypeStore.create (← get) name
    set s
    return .created id
  | insert l => do
    let s ← (TypeStore.insert (← get) l : Checked σ)
    set s
    return .done
  | delete id => do Edit.replace (TypeStore.delete (← get) id)
  | setCallTarget member target => do
    Edit.replace (TypeStore.setCallTarget (← get) member target)
  | change id edit => do
    if TypeStore.has (← get) id then
      TypeStore.editLayout id edit.perform
    else return .absent
  | addMember id offset => Answer.changed <$> TypeStore.addMember id offset
  | setMemberType id offset type => (fun _ => .done) <$> TypeStore.setMemberType id offset type
  | maximizeSize id size => Answer.changed <$> TypeStore.maximizeSize id size

/-- The struct whose layout is changed in place. -/
def reshaped? : StoreEdit → Option StructId
  | change id _ | addMember id _ | setMemberType id _ _ | maximizeSize id _ => some id
  | _ => none

end StoreEdit

namespace TypeStore

variable {σ α : Type} [TypeStore σ]

theorem run_editLayout (id : StructId) (change : Edit Layout α) (s : σ) :
    (editLayout id change : Edit σ α).run.run s =
      match layout? s id with
      | none => .ok (.error (.unknownStruct id), s)
      | some l => change.run.run l >>= fun p => .ok (p.1, setLayout s id p.2) := by
  simp only [editLayout, Edit.run_get_bind]
  cases layout? s id with
  | none => rfl
  | some l =>
    simp only [Edit.run_lift_bind]
    congr 1
    funext p
    obtain ⟨r, l'⟩ := p
    cases r <;> rfl

theorem run_setMemberType (id : StructId) (offset : Nat) (t : Ty) (s : σ) :
    (setMemberType id offset t : Edit σ Unit).run.run s =
      if has s id then sizeOf s t >>= fun size => match size with
        | none => render s t >>= fun text => .ok (.error (.unsizedType text), s)
        | some size =>
          (editLayout id (Layout.setMemberType offset t size) : Edit σ Unit).run.run s
      else .ok (.error (.unknownStruct id), s) := by
  simp only [setMemberType, Edit.run_get_bind]
  cases has s id with
  | false => rfl
  | true =>
    simp only [Bool.not_true, Bool.false_eq_true, ↓reduceIte, Edit.run_lift_bind]
    congr 1
    funext size
    cases size with
    | none =>
      simp only [Edit.run_lift_bind]
      rfl
    | some size => rfl

theorem editLayout_eq_ok {id : StructId} {change : Edit Layout α} {s s' : σ}
    {r : Except Refusal α} (h : (editLayout id change : Edit σ α).run.run s = .ok (r, s')) :
    (layout? s id = none ∧ r = .error (.unknownStruct id) ∧ s' = s) ∨
    ∃ l l', layout? s id = some l ∧ change.run.run l = .ok (r, l') ∧ s' = setLayout s id l' := by
  rw [run_editLayout] at h
  cases hl : layout? s id with
  | none =>
    rw [hl] at h
    cases h
    exact .inl ⟨rfl, rfl, rfl⟩
  | some l =>
    rw [hl] at h
    obtain ⟨⟨r', l'⟩, hchange, hr⟩ := Checked.bind_eq_ok.1 h
    cases hr
    exact .inr ⟨l, l', rfl, hchange, rfl⟩

theorem setMemberType_eq_ok {id : StructId} {offset : Nat} {t : Ty} {s s' : σ}
    {r : Except Refusal Unit}
    (h : (setMemberType id offset t : Edit σ Unit).run.run s = .ok (r, s')) :
    (∃ cause, r = .error cause ∧ s' = s) ∨
    ∃ size, sizeOf s t = .ok (some size) ∧
      (editLayout id (Layout.setMemberType offset t size) : Edit σ Unit).run.run s =
        .ok (r, s') := by
  rw [run_setMemberType] at h
  split at h
  case isFalse =>
    cases h
    exact .inl ⟨_, rfl, rfl⟩
  case isTrue =>
    obtain ⟨size, hsize, h⟩ := Checked.bind_eq_ok.1 h
    cases size with
    | none =>
      obtain ⟨text, _, htext⟩ := Checked.bind_eq_ok.1 h
      cases htext
      exact .inl ⟨_, rfl, rfl⟩
    | some size => exact .inr ⟨size, hsize, h⟩

theorem declare_eq_ok {s s' : σ} {var : Variable} {t : Ty} (h : TypeStore.declare s var t = .ok s') :
    s' = setDeclared s var t := by
  unfold TypeStore.declare at h
  split at h
  · cases h
  · split at h
    · split at h
      · exact (Except.ok.inj h).symm
      · cases h
    · exact (Except.ok.inj h).symm

/-- What a change leaves behind: the store after an accepted change of its kind, or with another
layout in the place of one, or as it was. -/
inductive Effect (s : σ) : StoreEdit → σ → Prop
  | declare (var : Variable) (t : Ty) : Effect s (.declare var t) (setDeclared s var t)
  | create {name : Option String} {id : StructId} {s' : σ} (h : create s name = .ok (id, s')) :
      Effect s (.create name) s'
  | insert {l : Layout} {s' : σ} (h : insert s l = .ok s') : Effect s (.insert l) s'
  | delete {id : StructId} {s' : σ} (h : delete s id = .ok s') : Effect s (.delete id) s'
  | setCallTarget {r : MemberRef} {target : Nat} {s' : σ}
      (h : setCallTarget s r target = .ok s') : Effect s (.setCallTarget r target) s'
  | reshape {e : StoreEdit} {id : StructId} (he : e.reshaped? = some id) {l : Layout}
      (hl : layout? s id = some l) (l' : Layout) : Effect s e (setLayout s id l')
  | none {e : StoreEdit} (hdelete : ∀ id s', e = .delete id → delete s id ≠ .ok s')
      (htarget : ∀ r n s', e = .setCallTarget r n → setCallTarget s r n ≠ .ok s') : Effect s e s

theorem effect_of_editLayout {id : StructId} {change : Edit Layout α} {s s' : σ}
    {r : Except Refusal α} (h : (editLayout id change : Edit σ α).run.run s = .ok (r, s'))
    {e : StoreEdit} (he : e.reshaped? = some id) : Effect s e s' := by
  rcases editLayout_eq_ok h with ⟨_, _, rfl⟩ | ⟨l, l', hl, _, rfl⟩
  · refine .none ?_ ?_
    · rintro _ _ rfl
      cases he
    · rintro _ _ _ rfl
      cases he
  · exact .reshape he hl l'

theorem effect_of_perform {e : StoreEdit} {s s' : σ} {answer : Except Refusal Answer}
    (h : e.perform.run.run s = .ok (answer, s')) : Effect s e s' := by
  cases e with
  | declare var t =>
    simp only [StoreEdit.perform, Edit.run_get_bind, Edit.run_replace] at h
    split at h
    case h_1 s'' hd =>
      cases h
      rw [declare_eq_ok hd]
      exact .declare var t
    case h_2 =>
      cases h
      exact .none nofun nofun
  | create name =>
    simp only [StoreEdit.perform, Edit.run_get_bind, Edit.run_lift_bind] at h
    obtain ⟨⟨id, s''⟩, hc, hset⟩ := Checked.bind_eq_ok.1 h
    cases hset
    exact .create hc
  | insert l =>
    simp only [StoreEdit.perform, Edit.run_get_bind, Edit.run_lift_bind] at h
    obtain ⟨s'', hc, hset⟩ := Checked.bind_eq_ok.1 h
    cases hset
    exact .insert hc
  | delete id =>
    simp only [StoreEdit.perform, Edit.run_get_bind, Edit.run_replace] at h
    split at h
    case h_1 s'' hd =>
      cases h
      exact .delete hd
    case h_2 cause hd =>
      cases h
      refine .none ?_ nofun
      rintro _ _ ⟨⟩
      simp [hd]
  | setCallTarget r target =>
    simp only [StoreEdit.perform, Edit.run_get_bind, Edit.run_replace] at h
    split at h
    case h_1 s'' hd =>
      cases h
      exact .setCallTarget hd
    case h_2 cause hd =>
      cases h
      refine .none nofun ?_
      rintro _ _ _ ⟨⟩
      simp [hd]
  | change id edit =>
    simp only [StoreEdit.perform, Edit.run_get_bind] at h
    split at h
    · exact effect_of_editLayout h rfl
    · cases h
      exact .none nofun nofun
  | addMember id offset =>
    obtain ⟨r, hr, _⟩ := Edit.map_eq_ok.1 h
    exact effect_of_editLayout hr rfl
  | setMemberType id offset t =>
    obtain ⟨r, hr, _⟩ := Edit.map_eq_ok.1 h
    rcases setMemberType_eq_ok hr with ⟨_, _, rfl⟩ | ⟨size, _, he⟩
    · exact .none nofun nofun
    · exact effect_of_editLayout he rfl
  | maximizeSize id size =>
    obtain ⟨r, hr, _⟩ := Edit.map_eq_ok.1 h
    exact effect_of_editLayout hr rfl

end TypeStore
end TypeRecovery
