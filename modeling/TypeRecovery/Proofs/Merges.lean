import TypeRecovery.Proofs.Containment
import TypeRecovery.Proofs.Coverage

/-!
# What merging a member changes

A typed member is merged into the struct that is asked for, or into a struct that it holds around
the offset, and so on. `Session.Enters` is one step of that descent; where it stops, the struct gets
a placeholder and then a type (`Session.Merged`). `member_merge_effect` says that nothing else
happens. The room for the bytes is looked for twice, before the descent and again by the layout that
is to change, and both searches agree.
-/
namespace TypeRecovery

namespace Layout

variable {l : Layout} {offset size next : Nat} {type : Ty}

/-- No member starts inside the `size` bytes at `offset`, except for a sentinel that ends the
struct. -/
def HasRoom (l : Layout) (offset size : Nat) : Prop :=
  ∀ b n, l.members.get? b = some n → offset < b →
    offset + size ≤ b ∨ n.size = 1 ∧ b + 1 = l.size

theorem isTrailingSentinel_eq_ok {sentinel : Bool} {n : Member}
    (hn : l.members.get? next = some n) (h : l.isTrailingSentinel next = .ok sentinel) :
    sentinel = true ↔ n.size = 1 ∧ next + 1 = l.size := by
  unfold isTrailingSentinel at h
  rw [hn] at h
  dsimp only at h
  split at h
  case isTrue hsize =>
    obtain ⟨stop, hstop, h⟩ := Checked.bind_eq_ok.1 h
    obtain ⟨_, rfl⟩ := Word.add_eq_ok_iff.1 hstop
    cases h
    simp [hsize]
  case isFalse hsize =>
    cases h
    simp [hsize]

end Layout

namespace Merge

variable {l : Layout} {offset size : Nat}

theorem obstacle_eq_ok {found : Option Nat} (h : obstacle l offset size = .ok found) :
    (l.nextMember offset = none ∧ found = none) ∨
    ∃ next, l.nextMember offset = some next ∧ offset + size < Word.bound ∧
      (offset + size ≤ next ∧ found = none ∨
        next < offset + size ∧ ∃ sentinel, l.isTrailingSentinel next = .ok sentinel ∧
          found = if sentinel then none else some next) := by
  unfold obstacle at h
  cases hnext : l.nextMember offset with
  | none =>
    rw [hnext] at h
    cases h
    exact .inl ⟨rfl, rfl⟩
  | some next =>
    rw [hnext] at h
    obtain ⟨stop, hstop, h⟩ := Checked.bind_eq_ok.1 h
    obtain ⟨hword, rfl⟩ := Word.add_eq_ok_iff.1 hstop
    refine .inr ⟨next, rfl, hword, ?_⟩
    split at h
    case isTrue hle =>
      cases h
      exact .inl ⟨hle, rfl⟩
    case isFalse hgt =>
      obtain ⟨sentinel, hsentinel, h⟩ := Checked.bind_eq_ok.1 h
      cases h
      exact .inr ⟨Nat.lt_of_not_le hgt, sentinel, hsentinel, rfl⟩

end Merge

namespace Layout

variable {l : Layout} {offset size next : Nat} {type : Ty}

theorem clearFor_of_obstacle (h : Merge.obstacle l offset size = .ok (some next)) :
    (clearFor offset size).run.run l = .ok (.error (.memberOverlap l.id offset size next), l) := by
  rcases Merge.obstacle_eq_ok h with ⟨_, hnone⟩ | ⟨next', hnext, hword, hcases⟩
  · cases hnone
  · rcases hcases with ⟨_, hnone⟩ | ⟨hlt, sentinel, hsentinel, hfound⟩
    · cases hnone
    · cases sentinel with
      | true => cases hfound
      | false =>
        cases hfound
        have hstop : Word.add offset size = .ok (offset + size) :=
          Word.add_eq_ok_iff.2 ⟨hword, rfl⟩
        simp only [clearFor, Edit.run_get_bind, hnext, Edit.run_lift_bind]
        refine Checked.bind_eq_ok.2 ⟨_, hstop, ?_⟩
        rw [if_neg (by omega), Edit.run_lift_bind]
        exact Checked.bind_eq_ok.2 ⟨_, hsentinel, rfl⟩

theorem setMemberType_of_obstacle (hcovers : l.covers offset = .ok true)
    (h : Merge.obstacle l offset size = .ok (some next)) :
    ∃ cause, (setMemberType offset type size).run.run l = .ok (.error cause, l) := by
  obtain ⟨m, hat⟩ := covers_eq_true.1 hcovers
  have hstart : l.memberStart offset = .ok (some m.offset) := Checked.bind_eq_ok.2 ⟨_, hat, rfl⟩
  simp only [setMemberType, Edit.run_get_bind, Edit.run_lift_bind]
  by_cases heq : m.offset = offset
  · refine ⟨.memberOverlap l.id offset size next, Checked.bind_eq_ok.2 ⟨_, hstart, ?_⟩⟩
    simp only [heq, if_true]
    exact Edit.bind_eq_ok.2 (.inl ⟨_, clearFor_of_obstacle h, rfl⟩)
  · refine ⟨.midMember l.id offset m.offset, Checked.bind_eq_ok.2 ⟨_, hstart, ?_⟩⟩
    simp only [heq, if_false]
    rfl

end Layout

namespace Layout.WellFormed

variable {l : Layout} {offset size relative : Nat} {nested : StructId} (hl : l.WellFormed)
include hl

theorem obstacle_eq_none_iff (hword : offset < Word.max) {found : Option Nat}
    (h : Merge.obstacle l offset size = .ok found) : found = none ↔ l.HasRoom offset size := by
  rcases Merge.obstacle_eq_ok h with ⟨hnone, rfl⟩ | ⟨next, hnext, _, hcases⟩
  · refine iff_of_true rfl fun b n hb hlt => ?_
    have hle := of_nextMember_eq_none hnone hword hb
    omega
  · obtain ⟨⟨n, hn⟩, hafter, hfirst⟩ := of_nextMember_eq_some hnext hword
    rcases hcases with ⟨hle, rfl⟩ | ⟨hlt, sentinel, hsentinel, rfl⟩
    · refine iff_of_true rfl fun b k hb hb' => ?_
      have hnb := hfirst hb hb'
      omega
    · have hends := isTrailingSentinel_eq_ok hn hsentinel
      cases sentinel with
      | false =>
        refine iff_of_false (by simp) fun hroom => ?_
        rcases hroom next n hn hafter with hle | hend
        · omega
        · exact absurd (hends.2 hend) (by simp)
      | true =>
        -- nothing stands after the sentinel
        refine iff_of_true rfl fun b k hb hb' => ?_
        have hnb := hfirst hb hb'
        have hbn := hl.le_of_isTrailingSentinel hsentinel hb
        obtain rfl : next = b := by omega
        obtain rfl : n = k := Option.some.inj (hn.symm.trans hb)
        exact .inr (hends.1 rfl)

theorem eq_of_addMember {placed : Layout} {answer : Except Refusal Bool} {m : Member}
    (h : (Layout.addMember offset).run.run l = .ok (answer, placed))
    (hm : placed.CoveredBy offset m.offset m) (htype : m.type.isUnknown = false) : placed = l := by
  have hplaced := hl.addMember h
  rcases addMember_eq_ok h with ⟨_, _, rfl⟩ | ⟨_, _, hword, rfl⟩
  · rfl
  · have hat := (hplaced.memberAt_eq_some (m := .placeholder offset)).2
      (l.coveredBy_placeholder _ hword)
    cases hat.symm.trans (hplaced.memberAt_eq_some.2 hm)
    cases htype

theorem enclosing_eq_some : Merge.enclosing l offset size = .ok (some (nested, relative)) ↔
    ∃ m, l.CoveredBy offset m.offset m ∧ m.type.structId? = some nested ∧ size < m.size ∧
      relative = offset - m.offset := by
  unfold Merge.enclosing
  rw [Checked.bind_eq_ok]
  constructor
  · rintro ⟨found, hat, h⟩
    cases found with
    | none => cases h
    | some m =>
      dsimp only at h
      split at h
      · cases h
      case h_2 hid =>
        split at h
        case isTrue hlt =>
          obtain ⟨lower, hlower, h⟩ := Checked.bind_eq_ok.1 h
          cases h
          exact ⟨m, hl.memberAt_eq_some.1 hat, hid, hlt, (Word.sub_eq_ok_iff.1 hlower).2⟩
        case isFalse => cases h
  · rintro ⟨m, hm, hid, hlt, rfl⟩
    refine ⟨some m, hl.memberAt_eq_some.2 hm, ?_⟩
    simp only [hid, hlt, if_true]
    exact Checked.bind_eq_ok.2 ⟨_, Word.sub_eq_ok_iff.2 ⟨hm.start_le, rfl⟩, rfl⟩

end Layout.WellFormed

namespace Session

/-- The session with another layout in the place of one. -/
def withLayout (s : Session) (id : StructId) (l : Layout) : Session :=
  { s with db := TypeStore.setLayout s.db id l }

/-- A member of some type at an offset of a struct of the run belongs into a struct member that
covers the offset and is larger than the type, at the offset inside it. Bytes that would run into
another member of the outer struct are refused there and not looked for further down. -/
inductive Enters (s : Session) (type : Ty) : StructId × Nat → StructId × Nat → Prop
  | into {id nested : StructId} {offset size : Nat} {l : Layout} {m : Member}
      (own : s.isNewType id = true) (layout : s.db.layout? id = some l)
      (sized : TypeStore.sizeOf s.db type = .ok (some size)) (pos : 0 < size)
      (room : l.HasRoom offset size) (covered : l.CoveredBy offset m.offset m)
      (holds : m.type = .struct nested) (larger : size < m.size) :
      Enters s type (id, offset) (nested, offset - m.offset)

/-- The struct is of the run, and `placed` is its layout once a member covers the offset. -/
structure Places (s : Session) (id : StructId) (offset : Nat) (placed : Layout) : Prop where
  own : s.isNewType id = true
  added : ∃ l answer, s.db.layout? id = some l ∧
    (Layout.addMember offset).run.run l = .ok (.ok answer, placed)

/-- What becomes of a session when a member of some type is merged into a struct where no descent
goes further. -/
inductive Merged (s : Session) (id : StructId) (offset : Nat) (type : Ty) : Session → Prop
  /-- A struct that predates the run is left alone. -/
  | older (old : s.isNewType id = false) : Merged s id offset type { s with
      toRun := s.toRun.report (.note .memberMerge (Merge.subject id.text offset)
        "struct predates this run; left unchanged") }
  /-- A type without a size leaves it at the placeholder. -/
  | bare {placed : Layout} (places : s.Places id offset placed)
      (unsized : TypeStore.sizeOf (s.withLayout id placed).db type = .ok none ∨
        TypeStore.sizeOf (s.withLayout id placed).db type = .ok (some 0)) :
      Merged s id offset type (s.withLayout id placed)
  /-- A refused type does so too, and the refusal is reported. -/
  | refused {placed : Layout} {size : Nat} {cause : Refusal} (message : String)
      (places : s.Places id offset placed)
      (sized : TypeStore.sizeOf (s.withLayout id placed).db type = .ok (some size)) (pos : 0 < size)
      (rejected : (Layout.setMemberType offset type size).run.run placed =
        .ok (.error cause, placed)) :
      Merged s id offset type { s.withLayout id placed with
        toRun := (s.withLayout id placed).toRun.report
          (.refused .memberMerge (Merge.subject placed.name offset) message) }
  | typed {placed l : Layout} {size : Nat} (places : s.Places id offset placed)
      (sized : TypeStore.sizeOf (s.withLayout id placed).db type = .ok (some size)) (pos : 0 < size)
      (accepted : (Layout.setMemberType offset type size).run.run placed = .ok (.ok (), l)) :
      Merged s id offset type (s.withLayout id l)

/-- At the end of a descent, the layout refuses the type. -/
def RefusesType (s : Session) (id : StructId) (offset : Nat) (type : Ty) : Prop :=
  ∃ placed size cause, s.Places id offset placed ∧
    TypeStore.sizeOf (s.withLayout id placed).db type = .ok (some size) ∧ 0 < size ∧
    (Layout.setMemberType offset type size).run.run placed = .ok (.error cause, placed)

variable {s t : Session} {id : StructId} {offset : Nat} {type : Ty} {placed l l' : Layout}
  {q : StructId × Nat}

theorem Unwritten.withLayout_self (hs : s.Unwritten) (hid : s.isNewType id = true)
    (hl : s.db.layout? id = some l) : s.withLayout id l = s := by
  have hstructs := Table.insert_eq_self (hs.structs_of_isNewType hid hl)
  have hdb : TypeStore.setLayout s.db id l = s.db :=
    congrArg (fun structs => { s.db with structs }) hstructs
  unfold withLayout
  rw [hdb]

theorem withLayout_withLayout (s : Session) (id : StructId) (l l' : Layout) :
    (s.withLayout id l).withLayout id l' = s.withLayout id l' := by
  have hdb : TypeStore.setLayout (TypeStore.setLayout s.db id l) id l' =
      TypeStore.setLayout s.db id l' :=
    congrArg (fun structs => { s.db with structs }) (Table.insert_insert s.db.structs id l l')
  exact congrArg (fun db => { s with db }) hdb

theorem layout?_withLayout (hl : s.db.layout? id = some l) (l' : Layout) (other : StructId) :
    (s.withLayout id l').db.layout? other = if other = id then some l' else s.db.layout? other :=
  Overlay.layout?_setLayout hl l' other

namespace Places

theorem layout? (h : s.Places id offset placed) :
    (s.withLayout id placed).db.layout? id = some placed := by
  obtain ⟨l, _, hl, _⟩ := h.added
  rw [layout?_withLayout hl, if_pos rfl]

theorem wellFormed (h : s.Places id offset placed) (hs : s.Sound) : placed.WellFormed := by
  obtain ⟨l, _, hl, hadd⟩ := h.added
  exact (hs.wellFormed h.own hl).addMember hadd

theorem covers (h : s.Places id offset placed) (hs : s.Sound) :
    placed.covers offset = .ok true := by
  obtain ⟨l, _, hl, hadd⟩ := h.added
  exact ((hs.wellFormed h.own hl).covers_of_addMember hadd).2

theorem offset_lt (h : s.Places id offset placed) (hs : s.Sound) : offset < Word.max := by
  obtain ⟨a, m, hm⟩ := (h.wellFormed hs).covers_iff.1 (h.covers hs)
  have hmax : Word.bound = Word.max + 1 := rfl
  have hlt := hm.lt_stop
  have hword := hm.word
  omega

theorem plan_eq_ok (hplaces : s.Places id offset placed) {merge : Merge}
    (h : Merge.plan (s.withLayout id placed).db id offset type = .ok merge) :
    (merge = .nothing ∧ (TypeStore.sizeOf (s.withLayout id placed).db type = .ok none ∨
      TypeStore.sizeOf (s.withLayout id placed).db type = .ok (some 0))) ∨
    ∃ size, TypeStore.sizeOf (s.withLayout id placed).db type = .ok (some size) ∧ 0 < size ∧
      ((∃ next message, Merge.obstacle placed offset size = .ok (some next) ∧
          merge = .refuse (Merge.subject placed.name offset) message) ∨
        Merge.obstacle placed offset size = .ok none ∧ ∃ found,
          Merge.enclosing placed offset size = .ok found ∧ merge = match found with
            | some (nested, relative) => .descend nested relative
            | none => .place placed.name) := by
  rcases Merge.plan_eq_ok h with ⟨hmerge, hnone | hunsized⟩ | ⟨l, size, hl, hsize⟩
  · cases hplaces.layout?.symm.trans hnone
  · exact .inl ⟨hmerge, hunsized⟩
  · cases hplaces.layout?.symm.trans hl
    exact .inr ⟨size, hsize⟩

theorem unique (h : s.Places id offset l) (h' : s.Places id offset l') : l = l' := by
  obtain ⟨k, _, hk, hadd⟩ := h.added
  obtain ⟨k', _, hk', hadd'⟩ := h'.added
  cases hk.symm.trans hk'
  cases hadd.symm.trans hadd'
  rfl

end Places

/-- On the way down nothing is placed, since a member covers the offset. -/
theorem Enters.placed_eq (h : s.Enters type (id, offset) q) (hs : s.Sound)
    (hplaces : s.Places id offset placed) :
    s.db.layout? id = some placed ∧ s.withLayout id placed = s := by
  obtain ⟨l, _, hl, hadd⟩ := hplaces.added
  cases h with
  | @into _ nested _ size k m own layout _ _ _ covered _ _ =>
    cases hl.symm.trans layout
    have hcovers := (hs.wellFormed own hl).covers_iff.2 ⟨_, m, covered⟩
    rcases Layout.addMember_eq_ok hadd with ⟨_, _, rfl⟩ | ⟨_, hnot, _⟩
    · exact ⟨hl, hs.withLayout_self own hl⟩
    · cases hcovers.symm.trans hnot

theorem Merged.frame (h : s.Merged id offset type t) :
    t = { s with db := { s.db with structs := t.db.structs }, diagnostics := t.diagnostics } := by
  cases h <;> rfl

theorem Merged.layout?_eq (h : s.Merged id offset type t) {other : StructId} (hother : other ≠ id) :
    t.db.layout? other = s.db.layout? other := by
  have hplaced : ∀ {placed}, s.Places id offset placed → ∀ l',
      (s.withLayout id l').db.layout? other = s.db.layout? other := by
    intro placed hplaces l'
    obtain ⟨l, _, hl, _⟩ := hplaces.added
    rw [layout?_withLayout hl, if_neg hother]
  cases h with
  | older _ => rfl
  | bare places _ => exact hplaced places _
  | refused _ places _ _ _ => exact hplaced places _
  | typed places _ _ _ => exact hplaced places _

theorem Merged.db_eq_of_older (h : s.Merged id offset type t) (hid : s.isNewType id = false) :
    t.db = s.db := by
  cases h with
  | older _ => rfl
  | bare places _ => cases hid.symm.trans places.own
  | refused _ places _ _ _ => cases hid.symm.trans places.own
  | typed places _ _ _ => cases hid.symm.trans places.own

theorem Merged.reports_iff (h : s.Merged id offset type t) :
    (∃ subject message, t.diagnostics = s.diagnostics ++ [.refused .memberMerge subject message]) ↔
      s.RefusesType id offset type := by
  have hsilent : ∀ {placed}, ¬ ∃ subject message, (s.withLayout id placed).diagnostics =
      s.diagnostics ++ [.refused .memberMerge subject message] := by
    rintro placed ⟨subject, message, hsame⟩
    exact absurd (congrArg List.length hsame) (by simp [withLayout])
  cases h with
  | older old =>
    refine iff_of_false ?_ ?_
    · rintro ⟨subject, message, hsame⟩
      simp only [Run.report, List.append_cancel_left_eq, List.cons.injEq, and_true] at hsame
      cases congrArg Diagnostic.kind hsame
    · rintro ⟨_, _, _, hplaces, _⟩
      cases old.symm.trans hplaces.own
  | bare places unsized =>
    refine iff_of_false hsilent ?_
    rintro ⟨_, _, _, hplaces, hsize, hpos, _⟩
    cases places.unique hplaces
    rcases unsized with hnone | hzero
    · cases hnone.symm.trans hsize
    · cases hzero.symm.trans hsize
      omega
  | refused message places sized pos rejected =>
    exact iff_of_true ⟨_, message, rfl⟩ ⟨_, _, _, places, sized, pos, rejected⟩
  | typed places sized pos accepted =>
    refine iff_of_false hsilent ?_
    rintro ⟨_, _, _, hplaces, hsize, _, hrejected⟩
    cases places.unique hplaces
    cases sized.symm.trans hsize
    cases accepted.symm.trans hrejected

end Session

namespace Infer

open Session

variable {s t u : Session} {id nested : StructId} {offset relative : Nat} {type : Ty}
  {placed : Layout} {merge : Merge}

theorem plan_eq_descend_iff (hs : s.Sound) (hplaces : s.Places id offset placed)
    (h : Merge.plan (s.withLayout id placed).db id offset type = .ok merge) :
    merge = .descend nested relative ↔ s.Enters type (id, offset) (nested, relative) := by
  have hwf := hplaces.wellFormed hs
  have hword := hplaces.offset_lt hs
  have hplan := hplaces.plan_eq_ok h
  constructor
  · rintro rfl
    obtain ⟨l, _, hl, hadd⟩ := hplaces.added
    rcases hplan with ⟨hdescend, _⟩ | ⟨size, hsize, hpos, ⟨_, _, _, hdescend⟩ |
      ⟨hroom, found, hfound, hdescend⟩⟩
    · cases hdescend
    · cases hdescend
    · cases found with
      | none => cases hdescend
      | some found =>
        obtain ⟨inner, lower⟩ := found
        cases hdescend
        obtain ⟨m, hm, hnested, hlarger, rfl⟩ := hwf.enclosing_eq_some.1 hfound
        have htype := Ty.eq_struct_of_structId? hnested
        have hsame := (hs.wellFormed hplaces.own hl).eq_of_addMember hadd hm (by rw [htype]; rfl)
        subst hsame
        rw [hs.withLayout_self hplaces.own hl] at hsize
        exact .into hplaces.own hl hsize hpos ((hwf.obstacle_eq_none_iff hword hroom).1 rfl) hm
          htype hlarger
  · intro henters
    obtain ⟨hl, hself⟩ := henters.placed_eq hs hplaces
    cases henters with
    | @into _ _ _ size _ m own layout sized pos room covered holds larger =>
      cases hl.symm.trans layout
      rw [hself, sized] at hplan
      rcases hplan with ⟨_, hnone | hzero⟩ | ⟨_, hsize, _, ⟨next, _, hnext, _⟩ |
        ⟨_, found, hfound, rfl⟩⟩
      · cases hnone
      · cases hzero
        omega
      · cases hsize
        cases (hwf.obstacle_eq_none_iff hword hnext).2 room
      · cases hsize
        have hinto := hwf.enclosing_eq_some.2 ⟨m, covered, by rw [holds]; rfl, larger, rfl⟩
        cases hinto.symm.trans hfound
        rfl

theorem edit_eq_ok {α : Type} {change : Edit Overlay α} {r : Except Refusal α} :
    (edit change).run s = .ok (r, t) ↔
      ∃ o, change.run.run s.db = .ok (r, o) ∧ t = { s with db := o } := by
  simp only [edit, run_get_bind, run_lift_bind, Checked.bind_eq_ok]
  constructor
  · rintro ⟨⟨r', o⟩, hchange, h⟩
    cases h
    exact ⟨o, hchange, rfl⟩
  · rintro ⟨o, hchange, rfl⟩
    exact ⟨(r, o), hchange, rfl⟩

theorem edit_provisional_eq_ok {α : Type} {change : Edit Layout α} {l : Layout}
    {r : Except Refusal α} (hown : s.db.isProvisional id = true) (hl : s.db.layout? id = some l) :
    (edit (Overlay.provisional id (TypeStore.editLayout id change))).run s = .ok (r, t) ↔
      ∃ l', change.run.run l = .ok (r, l') ∧ t = s.withLayout id l' := by
  have hlayout : TypeStore.layout? s.db id = some l := hl
  rw [edit_eq_ok]
  simp only [Overlay.provisional, Edit.run_get_bind, hown, if_true, TypeStore.run_editLayout,
    hlayout, Checked.bind_eq_ok]
  constructor
  · rintro ⟨_, ⟨⟨r', l'⟩, hchange, h⟩, rfl⟩
    cases h
    exact ⟨l', hchange, rfl⟩
  · rintro ⟨l', hchange, rfl⟩
    exact ⟨_, ⟨(r, l'), hchange, rfl⟩, rfl⟩

theorem edit_setMemberType_eq_ok {l : Layout} {size : Nat} {r : Except Refusal Unit}
    (hown : s.db.isProvisional id = true) (hl : s.db.layout? id = some l)
    (hsize : TypeStore.sizeOf s.db type = .ok (some size)) :
    (edit (Overlay.provisional id (TypeStore.setMemberType id offset type))).run s = .ok (r, t) ↔
      ∃ l', (Layout.setMemberType offset type size).run.run l = .ok (r, l') ∧
        t = s.withLayout id l' := by
  have hhas : TypeStore.has s.db id = true := by
    unfold TypeStore.has
    exact Option.isSome_iff_exists.2 ⟨l, hl⟩
  have hrun : (TypeStore.setMemberType id offset type).run.run s.db =
      (TypeStore.editLayout id (Layout.setMemberType offset type size)).run.run s.db := by
    rw [TypeStore.run_setMemberType, if_pos hhas, hsize]
    rfl
  rw [← edit_provisional_eq_ok hown hl, edit_eq_ok, edit_eq_ok]
  simp only [Overlay.provisional, Edit.run_get_bind, hown, if_true, hrun]

/-- What happens at one level: the descent goes on in the same session, or the member is merged
here. -/
theorem addMemberTypeWithin_eq_ok (hs : s.Sound) {nesting : List (Nat × Nat)} {fuel : Nat}
    (h : (addMemberTypeWithin nesting (fuel + 1) id offset type).run s = .ok ((), t)) :
    (∃ nested relative, s.Enters type (id, offset) (nested, relative) ∧
      (addMemberTypeWithin nesting fuel nested relative type).run s = .ok ((), t)) ∨
    (∀ next, ¬ s.Enters type (id, offset) next) ∧ s.Merged id offset type t := by
  simp only [addMemberTypeWithin, run_get_bind] at h
  cases hid : s.isNewType id with
  | false =>
    simp only [hid, Bool.not_false, if_true] at h
    cases h
    refine .inr ⟨?_, .older hid⟩
    rintro _ ⟨hown, _⟩
    cases hid.symm.trans hown
  | true =>
    simp only [hid, Bool.not_true, Bool.false_eq_true, if_false] at h
    obtain ⟨r, u, hedit, h⟩ := bind_eq_ok.1 h
    have hown := hs.isProvisional_of_isNewType hid
    obtain ⟨l, hl⟩ := hs.layout?_of_isNewType hid
    obtain ⟨placed, hadd, rfl⟩ := (edit_provisional_eq_ok hown hl).1 hedit
    obtain ⟨⟨added, rfl⟩, _⟩ := (hs.wellFormed hid hl).covers_of_addMember hadd
    have hplaces : s.Places id offset placed := ⟨hid, l, added, hl, hadd⟩
    simp only [run_get_bind, run_lift_bind] at h
    obtain ⟨merge, hplan, h⟩ := Checked.bind_eq_ok.1 h
    have hstays : (∀ nested relative, merge ≠ .descend nested relative) →
        ∀ next, ¬ s.Enters type (id, offset) next := by
      rintro hne ⟨nested, relative⟩ henters
      exact hne nested relative ((plan_eq_descend_iff hs hplaces hplan).2 henters)
    rcases hplaces.plan_eq_ok hplan with ⟨rfl, hunsized⟩ | ⟨size, hsize, hpos,
      ⟨next, message, hnext, rfl⟩ | ⟨_, found, _, rfl⟩⟩
    · cases h
      exact .inr ⟨hstays (by simp), .bare hplaces hunsized⟩
    · cases h
      obtain ⟨cause, hrejected⟩ := Layout.setMemberType_of_obstacle (hplaces.covers hs) hnext
      exact .inr ⟨hstays (by simp), .refused message hplaces hsize hpos hrejected⟩
    · cases found with
      | some found =>
        obtain ⟨nested, relative⟩ := found
        have henters := (plan_eq_descend_iff hs hplaces hplan).1 rfl
        rw [(henters.placed_eq hs hplaces).2] at h
        exact .inl ⟨nested, relative, henters, h⟩
      | none =>
        refine .inr ⟨hstays (by simp), ?_⟩
        obtain ⟨r, u, hretype, h⟩ := bind_eq_ok.1 h
        obtain ⟨l', hset, rfl⟩ := (edit_setMemberType_eq_ok (s := s.withLayout id placed) hown
          hplaces.layout? hsize).1 hretype
        rw [withLayout_withLayout] at h
        cases r with
        | ok _ =>
          cases h
          exact .typed hplaces hsize hpos hset
        | error cause =>
          rcases Layout.setMemberType_eq_ok hset with ⟨_, _, rfl⟩ | ⟨hok, _⟩
          · cases h
            exact .refused cause.message hplaces hsize hpos hset
          · cases hok

/-- The descent goes down step by step, and the member is merged where it stops. -/
theorem merged_of_addMemberTypeWithin (hs : s.Sound) {nesting : List (Nat × Nat)} {fuel : Nat}
    (h : (addMemberTypeWithin nesting fuel id offset type).run s = .ok ((), t)) :
    ∃ target relative, Relation.ReflTransGen (s.Enters type) (id, offset) (target, relative) ∧
      (∀ next, ¬ s.Enters type (target, relative) next) ∧ s.Merged target relative type t := by
  induction fuel generalizing id offset with
  | zero => cases h
  | succ fuel ih =>
    rcases addMemberTypeWithin_eq_ok hs h with ⟨nested, relative, henters, h⟩ | ⟨hstops, hmerged⟩
    · obtain ⟨target, lower, hdescent, hrest⟩ := ih h
      exact ⟨target, lower, .head henters hdescent, hrest⟩
    · exact ⟨id, offset, .refl, hstops, hmerged⟩

end Infer

namespace Operation

/-- Merging a typed member changes the layout of at most one struct: the one at which the descent
through larger struct members stops, and only if the run created it. That struct gets a placeholder
where nothing covers the offset, and then the type, if the type has a size and the layout does not
refuse it. A refusal is reported, and only then is one. -/
theorem member_merge_effect (c : Context) (db : Database) (ops : List Operation)
    (replies : List Reply) (s : Session)
    (hs : (performAll c ops).run (Session.start db) = .ok (replies, s))
    (hacyclic : TypeStore.Acyclic s.db) (id : StructId) (offset : Nat) (type : Ty)
    (hrange : ∀ op, (Infer.addMemberType id offset type).run s ≠ .error (.overflow op)) :
    ∃ target relative t, (Infer.addMemberType id offset type).run s = .ok ((), t) ∧
      Relation.ReflTransGen (s.Enters type) (id, offset) (target, relative) ∧
      (∀ next, ¬ s.Enters type (target, relative) next) ∧
      s.Merged target relative type t ∧
      (s.isNewType target = false → t.db = s.db) ∧
      (∀ other, other ≠ target → t.db.layout? other = s.db.layout? other) ∧
      t = { s with db := { s.db with structs := t.db.structs }, diagnostics := t.diagnostics } ∧
      ((∃ subject message,
          t.diagnostics = s.diagnostics ++ [.refused .memberMerge subject message]) ↔
        s.RefusesType target relative type) := by
  have hsound := Session.sound_of_leads (leads_of_performAll hs)
  cases hrun : (Infer.addMemberType id offset type).run s with
  | error fault =>
    obtain ⟨op, rfl⟩ := Infer.addMemberType_ends hacyclic id offset type fault hrun
    exact absurd hrun (hrange op)
  | ok p =>
    obtain ⟨⟨⟩, t⟩ := p
    have hwithin : (Infer.addMemberTypeWithin (TypeStore.nesting s.db)
        ((s.db.structIds.length + 1) * (offset + 1)) id offset type).run s = .ok ((), t) := hrun
    obtain ⟨target, relative, hdescent, hstops, hmerged⟩ :=
      Infer.merged_of_addMemberTypeWithin hsound hwithin
    exact ⟨target, relative, t, rfl, hdescent, hstops, hmerged, hmerged.db_eq_of_older,
      fun _ hother => hmerged.layout?_eq hother, hmerged.frame, hmerged.reports_iff⟩

/-- A member four bytes inside a struct that another struct holds: it is merged into the inner one. -/
theorem member_merge_effect_nested :
    let c : Context := { program := {}, settings := {} }
    let ops : List Operation := [.createStruct, .createStruct, .addMemberType ⟨1⟩ 0 (.int 4 true),
      .addMemberType ⟨1⟩ 8 (.int 4 true), .addMemberType ⟨0⟩ 16 (.struct ⟨1⟩)]
    ∃ replies s, (performAll c ops).run (Session.start {}) = .ok (replies, s) ∧
      TypeStore.Acyclic s.db ∧
      (∀ op, (Infer.addMemberType ⟨0⟩ 20 (.int 2 true)).run s ≠ .error (.overflow op)) ∧
      ∃ target relative t, (Infer.addMemberType ⟨0⟩ 20 (.int 2 true)).run s = .ok ((), t) ∧
        t.db.layout? ⟨0⟩ = s.db.layout? ⟨0⟩ ∧ t.db.layout? ⟨1⟩ ≠ s.db.layout? ⟨1⟩ ∧
        t.diagnostics = [] ∧
        Relation.ReflTransGen (s.Enters (.int 2 true)) (⟨0⟩, 20) (target, relative) ∧
        target = ⟨1⟩ ∧ s.Merged target relative (.int 2 true) t := by
  intro c ops
  have heval : (do
      let found ← (performAll c ops).run (Session.start {})
      let merged ← (Infer.addMemberType ⟨0⟩ 20 (.int 2 true)).run found.2
      pure (TypeStore.containment found.2.db,
        decide (merged.2.db.layout? ⟨0⟩ = found.2.db.layout? ⟨0⟩),
        decide (merged.2.db.layout? ⟨1⟩ = found.2.db.layout? ⟨1⟩), merged.2.diagnostics)) =
      (.ok ([(⟨0⟩, ⟨1⟩)], true, false, []) : Checked _) := by
    decide +kernel
  obtain ⟨⟨replies, s⟩, hs, heval⟩ := Checked.bind_eq_ok.1 heval
  obtain ⟨⟨⟨⟩, t⟩, ht, heval⟩ := Checked.bind_eq_ok.1 heval
  simp only [Checked.pure_eq_ok, Prod.mk.injEq, decide_eq_true_eq, decide_eq_false_iff_not] at heval
  obtain ⟨hholds, houter, hinner, hsilent⟩ := heval
  have hacyclic : TypeStore.Acyclic s.db := by
    apply TypeStore.acyclic_of_lt s.db.lists
    rw [hholds]
    decide
  have hrange : ∀ op, (Infer.addMemberType ⟨0⟩ 20 (.int 2 true)).run s ≠ .error (.overflow op) := by
    intro op hop
    cases ht.symm.trans hop
  obtain ⟨target, relative, t', ht', hdescent, _, hmerged, _, hother, _⟩ :=
    member_merge_effect c {} ops replies s hs hacyclic ⟨0⟩ 20 (.int 2 true) hrange
  cases ht.symm.trans ht'
  have htarget : target = ⟨1⟩ := by
    by_contra hne
    exact hinner (hother ⟨1⟩ (Ne.symm hne))
  exact ⟨replies, s, hs, hacyclic, hrange, target, relative, t, ht, houter, hinner, hsilent,
    hdescent, htarget, hmerged⟩

end Operation
end TypeRecovery
