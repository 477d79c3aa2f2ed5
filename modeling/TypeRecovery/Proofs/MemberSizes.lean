import TypeRecovery.Proofs.Turns

/-!
# Sizes of members

A member is given the size of its type when it is placed, and keeps it. The size of a type that
holds no struct of the run never changes, so such a member is exact for good. A struct of the run
can still grow after it was placed in another one: `member_sizes_recorded` says that this is the
only way for a recorded size to become wrong, and that it never becomes right again.
-/
namespace TypeRecovery

namespace Ty

/-- The struct that a type holds by value: the struct itself, or the elements of arrays. -/
def embedded? : Ty → Option StructId
  | struct id => some id
  | array element _ => element.embedded?
  | _ => none

variable {pointerSize : Nat} {f g : StructId → Option Nat} {t : Ty} {id : StructId}

theorem embedded?_of_structId? (h : t.structId? = some id) : t.embedded? = some id := by
  cases t with
  | struct id' => exact h
  | _ => cases h

theorem eq_struct_of_structId? (h : t.structId? = some id) : t = .struct id := by
  cases t with
  | struct id' => exact congrArg _ (Option.some.inj h)
  | _ => cases h

theorem sizeWith_congr (h : ∀ id, t.embedded? = some id → f id = g id) :
    t.sizeWith pointerSize f = t.sizeWith pointerSize g := by
  induction t with
  | array element length ih =>
    have helement := ih h
    simp only [sizeWith, helement]
  | struct id =>
    have hid : f id = g id := h id rfl
    simp only [sizeWith, hid]
  | _ => rfl

theorem structSize_of_sizeWith {size : Nat} (ht : t.embedded? = some id)
    (h : t.sizeWith pointerSize f = .ok (some size)) : ∃ k, f id = some k := by
  induction t generalizing size with
  | array element length ih =>
    obtain ⟨found, helement, h⟩ := Checked.bind_eq_ok.1 h
    cases found with
    | none => cases h
    | some k => exact ih ht helement
  | struct id' =>
    cases ht
    have hsize : f id = some size := Except.ok.inj h
    exact ⟨size, hsize⟩
  | _ => cases ht

theorem sizeWith_between {h : StructId → Option Nat} {a b : Nat}
    (hid : ∀ id, t.embedded? = some id →
      ∃ i j k, f id = some i ∧ g id = some j ∧ h id = some k ∧ i ≤ j ∧ j ≤ k)
    (hf : t.sizeWith pointerSize f = .ok (some a)) (hh : t.sizeWith pointerSize h = .ok (some b)) :
    ∃ size, t.sizeWith pointerSize g = .ok (some size) ∧ a ≤ size ∧ size ≤ b := by
  induction t generalizing a b with
  | array element length ih =>
    obtain ⟨before, hbefore, hf⟩ := Checked.bind_eq_ok.1 hf
    obtain ⟨after, hafter, hh⟩ := Checked.bind_eq_ok.1 hh
    cases length with
    | none => cases before <;> cases hf
    | some n =>
      cases before with
      | none => cases hf
      | some i =>
        cases after with
        | none => cases hh
        | some k =>
          obtain ⟨j, hbetween, hij, hjk⟩ := ih hid hbefore hafter
          obtain ⟨a', ha, hf⟩ := Checked.map_eq_ok.1 hf
          obtain ⟨b', hb, hh⟩ := Checked.map_eq_ok.1 hh
          cases hf
          cases hh
          obtain ⟨_, rfl⟩ := Word.mul_eq_ok_iff.1 ha
          obtain ⟨hword, rfl⟩ := Word.mul_eq_ok_iff.1 hb
          have hle : j * n ≤ k * n := Nat.mul_le_mul_right n hjk
          have hmul : Word.mul j n = .ok (j * n) :=
            Word.mul_eq_ok_iff.2 ⟨Nat.lt_of_le_of_lt hle hword, rfl⟩
          refine ⟨j * n, ?_, Nat.mul_le_mul_right n hij, hle⟩
          exact Checked.bind_eq_ok.2 ⟨_, hbetween, Checked.map_eq_ok.2 ⟨_, hmul, rfl⟩⟩
  | struct id =>
    obtain ⟨i, j, k, hi, hj, hk, hij, hjk⟩ := hid id rfl
    cases hi.symm.trans (Except.ok.inj hf)
    cases hk.symm.trans (Except.ok.inj hh)
    exact ⟨j, congrArg Except.ok hj, hij, hjk⟩
  | unknown | void => cases hf
  | _ =>
    cases hf
    cases hh
    exact ⟨_, rfl, Nat.le_refl _, Nat.le_refl _⟩

end Ty

namespace LayoutEdit

variable {l l' : Layout} {a : Nat} {m : Member}

/-- Another member has the same type and size at the same place. -/
def SameMember (l : Layout) (a : Nat) (m : Member) : Prop :=
  ∃ n, l.members.get? a = some n ∧ n.type = m.type ∧ n.size = m.size

theorem get?_of_clearFor {offset size : Nat}
    (h : (Layout.clearFor offset size).run.run l = .ok (.ok (), l'))
    (hm : l'.members.get? a = some m) : l.members.get? a = some m := by
  rcases Layout.clearFor_eq_ok h with ⟨_, hanswer, _⟩ | ⟨_, rfl, _⟩ | ⟨next, _, _, _, _, rfl⟩
  · cases hanswer
  · exact hm
  · rw [Table.get?_erase] at hm
    split at hm
    · cases hm
    · exact hm

/-- Every member is as it was, has no type yet, is a sentinel, or was given its type and size by
the change. -/
theorem member_of_perform {e : LayoutEdit} {answer : Except Refusal Answer}
    (h : e.perform.run.run l = .ok (answer, l')) (hm : l'.members.get? a = some m) :
    SameMember l a m ∨ m.type = .unknown ∨ m = Member.sentinel a ∨
      ∃ offset, e = .setMemberType offset m.type m.size := by
  cases e with
  | addMember offset =>
    obtain ⟨_, hadd, _⟩ := Edit.map_eq_ok.1 h
    rcases Layout.addMember_eq_ok hadd with ⟨_, _, rfl⟩ | ⟨_, _, _, rfl⟩
    · exact .inl ⟨m, hm, rfl, rfl⟩
    · rcases Table.eq_or_of_get?_insert hm with ⟨_, rfl⟩ | hm
      · exact .inr (.inl rfl)
      · exact .inl ⟨m, hm, rfl, rfl⟩
  | setMemberType offset type size =>
    obtain ⟨_, hset, _⟩ := Edit.map_eq_ok.1 h
    rcases Layout.setMemberType_eq_ok hset with ⟨_, _, rfl⟩ | ⟨_, _, _, cleared, hclear, rfl⟩
    · exact .inl ⟨m, hm, rfl, rfl⟩
    · simp only [Layout.retype] at hm
      split at hm
      · rcases Table.eq_or_of_get?_insert hm with ⟨_, rfl⟩ | hm
        · exact .inr (.inr (.inr ⟨offset, rfl⟩))
        · exact .inl ⟨m, get?_of_clearFor hclear hm, rfl, rfl⟩
      · exact .inl ⟨m, get?_of_clearFor hclear hm, rfl, rfl⟩
  | maximizeSize size =>
    obtain ⟨_, hgrow, _⟩ := Edit.map_eq_ok.1 h
    rcases Layout.maximizeSize_eq_ok hgrow with ⟨_, rfl⟩ | ⟨_, _, rfl | rfl⟩
    · exact .inl ⟨m, hm, rfl, rfl⟩
    · exact .inl ⟨m, hm, rfl, rfl⟩
    · rcases Table.eq_or_of_get?_insert hm with ⟨rfl, rfl⟩ | hm
      · exact .inr (.inr (.inl rfl))
      · exact .inl ⟨m, hm, rfl, rfl⟩
  | setMemberComment offset comment =>
    obtain ⟨_, hset, _⟩ := Edit.map_eq_ok.1 h
    rcases Layout.setMemberComment_eq_ok hset with ⟨_, _, rfl⟩ | ⟨n, _, hn, rfl⟩
    · exact .inl ⟨m, hm, rfl, rfl⟩
    · rcases Table.eq_or_of_get?_insert hm with ⟨rfl, rfl⟩ | hm
      · exact .inl ⟨n, hn, rfl, rfl⟩
      · exact .inl ⟨m, hm, rfl, rfl⟩

end LayoutEdit

namespace Session

variable {settings : Settings} {db : Database} {s t u v : Session} {id : StructId} {l : Layout}
  {a size : Nat} {type : Ty}

/-- The structs of the run are well formed, and the overlay holds nothing else. -/
structure Sound (s : Session) : Prop extends s.Unwritten where
  wellFormed : ∀ {id l}, s.isNewType id = true → s.db.layout? id = some l → l.WellFormed

/-- What can become of a struct of the run in one turn. -/
inductive Remade (s : Session) (id : StructId) : Layout → Prop
  | made (hid : s.isNewType id = false) (name : String) : Remade s id { id, name }
  | kept {l : Layout} (hid : s.isNewType id = true) (hl : s.db.layout? id = some l) : Remade s id l
  | changed {l l' : Layout} {e : LayoutEdit} {answer : Except Refusal Answer}
      (hid : s.isNewType id = true) (hl : s.db.layout? id = some l)
      (he : e.perform.run.run l = .ok (answer, l')) (hsized : e.Sized s.db) : Remade s id l'

theorem Unwritten.isNewType_next (hs : s.Unwritten) : s.isNewType ⟨s.db.next⟩ = false := by
  by_contra hnew
  obtain ⟨held, hheld⟩ := Table.contains_iff.1 ((hs.held _).trans (Bool.not_eq_false _ ▸ hnew))
  have hbelow := hs.below hheld
  have hnext : s.db.nextId ≤ s.db.next := Nat.le_max_left _ _
  exact absurd hbelow (Nat.not_lt.2 hnext)

theorem Unwritten.remade (hs : s.Unwritten) (hturn : Turn settings s t)
    (hid : t.isNewType id = true) (hl : t.db.layout? id = some l) : s.Remade id l := by
  cases hturn with
  | step hstep =>
    cases hstep with
    | draft hdraft =>
      cases hdraft with
      | report _ => exact .kept hid hl
      | retract _ => exact .kept hid hl
      | create hcreate =>
        obtain ⟨rfl, rfl⟩ := Run.createStruct_eq_ok hcreate
        simp only [Overlay.layout?, hs.deleted, Table.contains_empty, Bool.false_eq_true, if_false,
          Table.get?_insert] at hl
        split at hl
        case isTrue heq =>
          cases hl
          subst heq
          exact .made hs.isNewType_next _
        case isFalse hne =>
          simp only [Run.isNewType, KeySet.contains_add, hne, decide_false, Bool.false_or] at hid
          exact .kept hid ((hs.layout?_eq id).trans hl)
      | @reshape other k k' answer e hother hk he hsized =>
        rw [Overlay.layout?_setLayout hk] at hl
        split at hl
        case isTrue heq =>
          cases hl
          subst heq
          exact .changed hid hk he hsized
        case isFalse => exact .kept hid hl
    | _ => exact .kept hid hl
  | handOver => exact .kept hid hl
  | commit hcommit =>
    obtain ⟨rfl, _⟩ := hs.of_commit_eq_ok hcommit
    cases hid
  | clear => cases hid

theorem sound_start (db : Database) : (start db).Sound where
  toUnwritten := unwritten_start db
  wellFormed hid := nomatch hid

theorem Sound.turn (hs : s.Sound) (hturn : Turn settings s t) : t.Sound := by
  refine ⟨hs.toUnwritten.turn hturn, fun hid hl => ?_⟩
  cases hs.remade hturn hid hl with
  | made _ name => exact Layout.wellFormed_empty _ name
  | kept hid hl => exact hs.wellFormed hid hl
  | changed hid hl he _ => exact (LayoutEdit.perform_wellFormed (hs.wellFormed hid hl) he).1

theorem sound_of_leads (h : Leads settings (start db) s) : s.Sound := by
  induction h with
  | refl => exact sound_start db
  | tail _ hturn ih => exact ih.turn hturn

/-- No struct gets lost, those older than the run stay as they are, and none gets smaller unless it
takes the place of an older one. -/
structure Grown (s t : Session) : Prop where
  inner : t.db.inner = s.db.inner
  layouts : ∀ {id l}, s.db.layout? id = some l → ∃ l', t.db.layout? id = some l' ∧
    (t.isNewType id = false → s.isNewType id = false ∧ l' = l) ∧
    (s.db.inner.structs.get? id = none → l.size ≤ l'.size)

theorem grown_of_frame (hoverlay : t.db = s.db) (hnew : t.newTypes = s.newTypes) : s.Grown t := by
  refine ⟨by rw [hoverlay], ?_⟩
  intro id l hl
  refine ⟨l, by rw [hoverlay]; exact hl, ?_, fun _ => Nat.le_refl _⟩
  intro hold
  unfold Run.isNewType at hold ⊢
  rw [hnew] at hold
  exact ⟨hold, rfl⟩

theorem Grown.trans (h : s.Grown t) (h' : t.Grown u) : s.Grown u := by
  refine ⟨h'.inner.trans h.inner, ?_⟩
  intro id l hl
  obtain ⟨l', hl', hold, hsize⟩ := h.layouts hl
  obtain ⟨l'', hl'', hold', hsize'⟩ := h'.layouts hl'
  refine ⟨l'', hl'', ?_, ?_⟩
  · intro hu
    obtain ⟨ht, rfl⟩ := hold' hu
    exact hold ht
  · intro hnone
    have hnone' : t.db.inner.structs.get? id = none := by rw [h.inner]; exact hnone
    exact Nat.le_trans (hsize hnone) (hsize' hnone')

instance : Trans Grown Grown Grown := ⟨Grown.trans⟩

theorem Unwritten.grown_of_createStruct (h : s.Unwritten) {run : Run}
    (hcreate : s.toRun.createStruct settings = .ok (id, run)) :
    s.Grown { s with toRun := run } := by
  obtain ⟨rfl, rfl⟩ := Run.createStruct_eq_ok hcreate
  refine ⟨rfl, ?_⟩
  intro id l hl
  by_cases hid : id = ⟨s.db.next⟩
  · -- an id that comes next is held by nothing in the overlay, so `l` is below it
    have hnone : s.db.structs.get? id = none := by
      rw [← Table.contains_eq_false_iff, h.held, hid]
      exact h.isNewType_next
    rw [h.layout?_eq, hnone] at hl
    have hinner : s.db.inner.structs.get? id = some l := hl
    refine ⟨{ id := ⟨s.db.next⟩, name := settings.structName s.db.next }, ?_, ?_, ?_⟩
    · simp [Overlay.layout?, h.deleted, hid]
    · intro hnew
      simp [Run.isNewType, KeySet.contains_add, hid] at hnew
    · intro hfresh
      rw [hinner] at hfresh
      cases hfresh
  · refine ⟨l, ?_, ?_, fun _ => Nat.le_refl _⟩
    · rw [h.layout?_eq] at hl
      simp only [Overlay.layout?, h.deleted, Table.contains_empty, Bool.false_eq_true, if_false,
        Table.get?_insert_of_ne _ hid]
      exact hl
    · intro hnew
      simp only [Run.isNewType, KeySet.contains_add, hid, decide_false, Bool.false_or] at hnew
      exact ⟨hnew, rfl⟩

theorem grown_of_setLayout {l' : Layout} (hid : s.isNewType id = true)
    (hl : s.db.layout? id = some l) (hsize : l.size ≤ l'.size) :
    s.Grown { s with db := TypeStore.setLayout s.db id l' } := by
  refine ⟨rfl, ?_⟩
  intro id' k hk
  rw [Overlay.layout?_setLayout hl]
  by_cases heq : id' = id
  · subst heq
    have hkl : k = l := Option.some.inj (hk.symm.trans hl)
    refine ⟨l', by simp, ?_, fun _ => hkl ▸ hsize⟩
    intro hnew
    have hnew' : s.isNewType id' = false := hnew
    rw [hid] at hnew'
    cases hnew'
  · exact ⟨k, by simp [heq, hk], fun hnew => ⟨hnew, rfl⟩, fun _ => Nat.le_refl _⟩

theorem Sound.grown_of_step (hs : s.Sound) (hstep : Step settings s t) : s.Grown t := by
  cases hstep with
  | draft hdraft =>
    cases hdraft with
    | report _ => exact grown_of_frame rfl rfl
    | retract _ => exact grown_of_frame rfl rfl
    | create hcreate => exact hs.grown_of_createStruct hcreate
    | reshape e hid hl he _ =>
      have hnew := hs.isNewType_of_provisional hid
      obtain ⟨_, hsize⟩ := LayoutEdit.perform_wellFormed (hs.wellFormed hnew hl) he
      exact grown_of_setLayout hnew hl hsize
  | _ => exact grown_of_frame rfl rfl

/-- While there are structs of the run, nothing is committed or cleared. -/
theorem Sound.grown (hs : s.Sound) (hturn : Turn settings s t) (hid : t.isNewType id = true) :
    s.Grown t := by
  cases hturn with
  | step hstep => exact hs.grown_of_step hstep
  | handOver => exact grown_of_frame rfl rfl
  | commit hcommit =>
    obtain ⟨rfl, _⟩ := hs.of_commit_eq_ok hcommit
    cases hid
  | clear => cases hid

theorem Grown.isNewType (h : s.Grown t) (hl : s.db.layout? id = some l)
    (hid : s.isNewType id = true) : t.isNewType id = true := by
  obtain ⟨_, _, hold, _⟩ := h.layouts hl
  by_contra hnew
  rw [(hold (Bool.not_eq_true _ ▸ hnew)).1] at hid
  cases hid

theorem Grown.pointerSize_eq (h : s.Grown t) :
    TypeStore.pointerSize t.db = TypeStore.pointerSize s.db :=
  congrArg Database.pointerSize h.inner

/-- A struct of the run gets another size, a larger one unless it takes the place of an older
struct. -/
def Resizes (id : StructId) (s t : Session) : Prop :=
  t.isNewType id = true ∧ ∃ l l', s.db.layout? id = some l ∧ t.db.layout? id = some l' ∧
    l.size ≠ l'.size ∧ (s.db.inner.structs.get? id = none → l.size < l'.size)

theorem Grown.sizeOf_or_resizes (h : s.Grown t)
    (hs : TypeStore.sizeOf s.db type = .ok (some size)) :
    TypeStore.sizeOf t.db type = .ok (some size) ∨
      ∃ nested, type.embedded? = some nested ∧ Resizes nested s t := by
  by_cases hsame : ∀ nested, type.embedded? = some nested →
      (s.db.layout? nested).map Layout.size = (t.db.layout? nested).map Layout.size
  · left
    unfold TypeStore.sizeOf at hs ⊢
    rw [h.pointerSize_eq, ← hs]
    exact Ty.sizeWith_congr fun nested hnested => (hsame nested hnested).symm
  · right
    push Not at hsame
    obtain ⟨nested, hnested, hne⟩ := hsame
    obtain ⟨k, hk⟩ := Ty.structSize_of_sizeWith hnested hs
    obtain ⟨l, hl, _⟩ := Option.map_eq_some_iff.1 hk
    have hl : s.db.layout? nested = some l := hl
    obtain ⟨l', hl', hold, hle⟩ := h.layouts hl
    simp only [hl, hl', Option.map_some, ne_eq, Option.some.injEq] at hne
    refine ⟨nested, hnested, ?_, l, l', hl, hl', hne, fun hnone => ?_⟩
    · by_contra hnew
      exact hne (congrArg Layout.size (hold (Bool.not_eq_true _ ▸ hnew)).2.symm)
    · have hsize := hle hnone
      omega

theorem Grown.sizeOf_between {low high : Nat} (hst : s.Grown t) (htu : t.Grown u)
    (hnew : ∀ nested, type.embedded? = some nested → u.db.inner.structs.get? nested = none)
    (hs : TypeStore.sizeOf s.db type = .ok (some low))
    (hu : TypeStore.sizeOf u.db type = .ok (some high)) :
    ∃ size, TypeStore.sizeOf t.db type = .ok (some size) ∧ low ≤ size ∧ size ≤ high := by
  unfold TypeStore.sizeOf at hs hu ⊢
  rw [htu.pointerSize_eq, hst.pointerSize_eq] at hu
  rw [hst.pointerSize_eq]
  refine Ty.sizeWith_between ?_ hs hu
  intro nested hnested
  obtain ⟨k, hk⟩ := Ty.structSize_of_sizeWith hnested hs
  obtain ⟨l, hl, rfl⟩ := Option.map_eq_some_iff.1 hk
  have hl : s.db.layout? nested = some l := hl
  obtain ⟨l', hl', _, hle⟩ := hst.layouts hl
  obtain ⟨l'', hl'', _, hle'⟩ := htu.layouts hl'
  have hnone := hnew nested hnested
  rw [htu.inner] at hnone
  refine ⟨_, _, _, hk, congrArg _ hl', congrArg _ hl'', ?_, hle' hnone⟩
  rw [hst.inner] at hnone
  exact hle hnone

theorem Grown.refl (s : Session) : s.Grown s := grown_of_frame rfl rfl

/-- A struct of the run has a member of that type and size at that place. -/
def HasMember (s : Session) (id : StructId) (a : Nat) (type : Ty) (size : Nat) : Prop :=
  s.isNewType id = true ∧ ∃ l m, s.db.layout? id = some l ∧ l.members.get? a = some m ∧
    m.type = type ∧ m.size = size

/-- A member was there before, or is placed with the size that its type has. -/
theorem Sound.hasMember_or_places (hs : s.Sound) (hturn : Turn settings s t)
    (ht : t.HasMember id a type size) (hknown : type.isKnown = true) :
    s.HasMember id a type size ∨ TypeStore.sizeOf s.db type = .ok (some size) := by
  obtain ⟨hid, l, m, hl, hm, rfl, rfl⟩ := ht
  cases hs.remade hturn hid hl with
  | made _ name => cases hm
  | kept hid hl => exact .inl ⟨hid, l, m, hl, hm, rfl, rfl⟩
  | changed hid hl he hsized =>
    rcases LayoutEdit.member_of_perform he hm with
      ⟨n, hn, htype, hsize⟩ | hunknown | rfl | ⟨offset, rfl⟩
    · exact .inl ⟨hid, _, n, hl, hn, htype, hsize⟩
    · rw [hunknown] at hknown
      cases hknown
    · exact .inr rfl
    · exact .inr hsized

/-- Along some sessions a struct of the run has a member that it did not have before them, with the
size that its type had there. -/
structure Records (u : Session) (since : List Session) (id : StructId) (a : Nat) (type : Ty)
    (size : Nat) : Prop where
  unplaced : ¬ u.HasMember id a type size
  sized : TypeStore.sizeOf u.db type = .ok (some size)
  kept : ∀ v ∈ since, v.HasMember id a type size
  grown : (u :: since).IsChain Grown

theorem Records.concat {since : List Session} (h : Records u (since ++ [s]) id a type size)
    (hst : s.Grown t) (ht : t.HasMember id a type size) :
    Records u (since ++ [s] ++ [t]) id a type size where
  unplaced := h.unplaced
  sized := h.sized
  kept v hv := by
    rcases List.mem_append.1 hv with hv | hv
    · exact h.kept v hv
    · rw [List.mem_singleton.1 hv]
      exact ht
  grown := by
    have hchain : ((u :: since) ++ [s, t]).IsChain Grown :=
      List.isChain_split.2 ⟨h.grown, List.isChain_pair.2 hst⟩
    simpa using hchain

/-- Back from a session along the way to it, one comes to where a member that it has was placed. -/
theorem exists_records {l past after : List Session}
    (hl : (start db :: l).IsChain (Relation.ReflGen (Turn settings)))
    (h : start db :: l = past ++ t :: after) (ht : t.HasMember id a type size)
    (hknown : type.isKnown = true) : ∃ earlier u since, past = earlier ++ u :: since ∧
      Records u (since ++ [t]) id a type size := by
  induction past using List.reverseRecOn generalizing t after with
  | nil =>
    cases h
    cases ht.1
  | append_singleton past s ih =>
    rw [List.append_assoc, List.singleton_append] at h
    have hs : s.Sound := sound_of_leads (Infer.reaches_of_mem hl (by rw [h]; simp))
    have hst := List.isChain_iff_forall_rel_of_append_cons_cons.1 hl h
    have hgrown : s.Grown t := by
      cases hst with
      | refl => exact .refl s
      | single hturn => exact hs.grown hturn ht.1
    by_cases hkept : s.HasMember id a type size
    · obtain ⟨earlier, u, since, rfl, hrecords⟩ := ih h hkept
      exact ⟨earlier, u, since ++ [s], by simp, hrecords.concat hgrown ht⟩
    · have hsized : TypeStore.sizeOf s.db type = .ok (some size) := by
        cases hst with
        | refl => exact absurd ht hkept
        | single hturn => exact (hs.hasMember_or_places hturn ht hknown).resolve_left hkept
      exact ⟨past, s, [], rfl, hkept, hsized, by simpa using ht, List.isChain_pair.2 hgrown⟩

theorem Records.grown_of_mem {since : List Session}
    (h : Records u (since ++ [t]) id a type size) (hv : v ∈ u :: (since ++ [t])) : v.Grown t := by
  have hpairs := List.isChain_iff_pairwise.1 h.grown
  rw [← List.cons_append] at hpairs hv
  rcases List.mem_append.1 hv with hv | hv
  · exact (List.pairwise_append.1 hpairs).2.2 v hv t (List.mem_singleton_self t)
  · rw [List.mem_singleton.1 hv]
    exact .refl t

theorem Records.sizeOf_or_resizes {since : List Session}
    (h : Records u (since ++ [t]) id a type size) :
    TypeStore.sizeOf t.db type = .ok (some size) ∨ ∃ nested v w, type.embedded? = some nested ∧
      t.isNewType nested = true ∧ [v, w] <:+: u :: (since ++ [t]) ∧
      TypeStore.sizeOf v.db type = .ok (some size) ∧
      TypeStore.sizeOf w.db type ≠ .ok (some size) ∧ Resizes nested v w := by
  rcases Infer.last_or_left u (since ++ [t])
      (fun v => TypeStore.sizeOf v.db type = .ok (some size)) with
    hlast | hnone | ⟨past, v, w, rest, hsplit, hv, hleft⟩
  · rw [List.getLastD_concat] at hlast
    exact .inl hlast
  · exact absurd h.sized (hnone u List.mem_cons_self)
  · right
    have hpair : [v, w] <:+: u :: (since ++ [t]) := ⟨past, rest, by rw [hsplit]; simp⟩
    have hw := hleft w List.mem_cons_self
    obtain ⟨nested, hnested, hresizes⟩ :=
      ((Infer.rel_of_consecutive h.grown hpair).sizeOf_or_resizes hv).resolve_left hw
    refine ⟨nested, v, w, hnested, ?_, hpair, hv, hw, hresizes⟩
    obtain ⟨hnew, _, l', _, hl', _⟩ := hresizes
    exact (h.grown_of_mem (hpair.mem (by simp))).isNewType hl' hnew

section Fresh

variable {since : List Session} (h : Records u (since ++ [t]) id a type size)
  (hfresh : ∀ nested, type.embedded? = some nested → t.db.inner.structs.get? nested = none)
include h hfresh

theorem Records.le_sizeOf {now : Nat} (hnow : TypeStore.sizeOf t.db type = .ok (some now)) :
    size ≤ now := by
  have hut := h.grown_of_mem List.mem_cons_self
  obtain ⟨_, hplaced, _, hle⟩ := (Grown.refl u).sizeOf_between hut hfresh h.sized hnow
  cases h.sized.symm.trans hplaced
  exact hle

theorem Records.sizeOf_of_last (hlast : TypeStore.sizeOf t.db type = .ok (some size))
    (hv : v ∈ since) : TypeStore.sizeOf v.db type = .ok (some size) := by
  have huv : u.Grown v := h.grown.rel_cons (List.mem_append_left [t] hv)
  have hvt := h.grown_of_mem (List.mem_cons_of_mem u (List.mem_append_left [t] hv))
  obtain ⟨between, hbetween, hlow, hhigh⟩ := huv.sizeOf_between hvt hfresh h.sized hlast
  rw [hbetween, Nat.le_antisymm hhigh hlow]

end Fresh

end Session

namespace Operation

open Session

/-- In every session on the way, the members of a struct of the run lie one after the other, within
the struct, by the sizes recorded for them. A recorded size is the size that the type of the member
had in the session `u` of the same run in which the member was placed: it was not there before, and
is there ever since. It is the size that the type has now, unless the type holds a struct of the run
that was given another size in the meantime. If that struct has no older namesake it has grown: the
recorded size is smaller then, and stays so. -/
theorem member_sizes_recorded (c : Context) (db : Database) (ops : List Operation)
    (past after : List Session) (t : Session) (h : sessions c db ops = past ++ t :: after)
    (id : StructId) (l : Layout) (hid : t.isNewType id = true) (hl : t.db.layout? id = some l)
    (a : Nat) (m : Member) (hm : l.members.get? a = some m) (hknown : m.type.isKnown = true) :
    a + m.size ≤ l.size ∧
    (∀ b n, l.members.get? b = some n → a < b → a + m.size ≤ b) ∧
    ∃ earlier u since, past = earlier ++ u :: since ∧ ¬ u.HasMember id a m.type m.size ∧
      TypeStore.sizeOf u.db m.type = .ok (some m.size) ∧
      (∀ v ∈ since, v.HasMember id a m.type m.size) ∧
      (TypeStore.sizeOf t.db m.type = .ok (some m.size) ∨
        ∃ nested v w, m.type.embedded? = some nested ∧ t.isNewType nested = true ∧
          [v, w] <:+: u :: (since ++ [t]) ∧ TypeStore.sizeOf v.db m.type = .ok (some m.size) ∧
          TypeStore.sizeOf w.db m.type ≠ .ok (some m.size) ∧ Resizes nested v w) ∧
      ((∀ nested, m.type.embedded? = some nested → t.db.inner.structs.get? nested = none) →
        (∀ size, TypeStore.sizeOf t.db m.type = .ok (some size) → m.size ≤ size) ∧
        (TypeStore.sizeOf t.db m.type = .ok (some m.size) →
          ∀ v ∈ since, TypeStore.sizeOf v.db m.type = .ok (some m.size))) := by
  have hchain := isChain_sessions c db ops
  have ht : t ∈ sessions c db ops := by
    rw [h]
    simp
  have hwell := (sound_of_leads (leads_of_mem_sessions ht)).wellFormed hid hl
  have hwidth : m.size ≤ m.width := Nat.le_max_left _ _
  refine ⟨?_, ?_, ?_⟩
  · have hinside := hwell.inside hm
    omega
  · intro b n hn hab
    have hnext := hwell.disjoint hm hn hab
    omega
  obtain ⟨earlier, u, since, hpast, hrecords⟩ :=
    exists_records hchain h ⟨hid, l, m, hl, hm, rfl, rfl⟩ hknown
  refine ⟨earlier, u, since, hpast, hrecords.unplaced, hrecords.sized,
    fun v hv => hrecords.kept v (List.mem_append_left _ hv), hrecords.sizeOf_or_resizes, ?_⟩
  intro hfresh
  exact ⟨fun size => hrecords.le_sizeOf hfresh,
    fun hexact v => hrecords.sizeOf_of_last hfresh hexact⟩

/-- A struct whose second member is an array of another one, both made by the run. Neither has got
another size since, so the size recorded for the member is the size of its type. -/
theorem member_sizes_recorded_array :
    let c : Context := { program := {}, settings := {} }
    let type : Ty := .array (.struct ⟨1⟩) (some 3)
    let ops : List Operation := [.createStruct, .createStruct, .addMemberType ⟨1⟩ 0 (.int 4 true),
      .addMemberType ⟨0⟩ 0 (.int 8 true), .addMemberType ⟨0⟩ 8 type,
      .addMemberType ⟨0⟩ 20 (.int 4 true)]
    ∃ past t l m, sessions c {} ops = past ++ [t] ∧
      t.isNewType ⟨0⟩ = true ∧ t.db.layout? ⟨0⟩ = some l ∧ l.members.get? 8 = some m ∧
      m.type = type ∧ t.isNewType ⟨1⟩ = true ∧ 8 + m.size ≤ l.size ∧
      (∀ b n, l.members.get? b = some n → 8 < b → 8 + m.size ≤ b) ∧
      (∃ u ∈ past, TypeStore.sizeOf u.db type = .ok (some m.size)) ∧
      TypeStore.sizeOf t.db type = .ok (some m.size) := by
  intro c type ops
  have heval : (do
      let found ← (performAll c ops).run (Session.start {})
      pure (found.2.isNewType ⟨0⟩, found.2.isNewType ⟨1⟩,
        ((found.2.db.layout? ⟨0⟩).bind fun l => l.members.get? 8).map
          fun m => (m.type, m.size))) =
      (.ok (true, true, some (type, 12)) : Checked _) := by
    decide +kernel
  -- once the array has a size, its struct keeps the size that it has
  have hsteps : (sessions c {} ops).IsChain fun v w =>
      TypeStore.sizeOf v.db type = .ok (some 12) → TypeStore.sizeOf w.db type = .ok (some 12) := by
    decide +kernel
  obtain ⟨⟨replies, t⟩, ht, heval⟩ := Checked.bind_eq_ok.1 heval
  simp only [Checked.pure_eq_ok, Prod.mk.injEq] at heval
  obtain ⟨hid, hnested, hmember⟩ := heval
  obtain ⟨m, hm, hplaced⟩ := Option.map_eq_some_iff.1 hmember
  obtain ⟨l, hl, hm⟩ := Option.bind_eq_some_iff.1 hm
  obtain ⟨htype, hsize⟩ := Prod.mk.inj hplaced
  obtain ⟨past, hpast⟩ : ∃ past, sessions c {} ops = past ++ [t] := Infer.trail_eq_concat ht
  obtain ⟨hinside, hnext, earlier, u, since, rfl, _, hsized, _, hexact, _⟩ :=
    member_sizes_recorded c {} ops past [] t hpast ⟨0⟩ l hid hl 8 m hm (by rw [htype]; rfl)
  rw [htype] at hsized hexact
  refine ⟨_, t, l, m, hpast, hid, hl, hm, htype, hnested, hinside, hnext,
    ⟨u, by simp, hsized⟩, ?_⟩
  rcases hexact with hexact | ⟨_, v, w, _, _, hpair, hv, hw, _⟩
  · exact hexact
  · rw [hsize] at hv hw
    have hwhole : [v, w] <:+: sessions c {} ops := by
      rw [hpast]
      exact hpair.trans ⟨earlier, [], by simp⟩
    exact absurd (Infer.rel_of_consecutive hsteps hwhole hv) hw

/-- A struct that grows after it was placed in another: four bytes are recorded for it there, and
four is the size of the struct around it, while it has eight by now. -/
theorem recorded_size_outgrown :
    let c : Context := { program := {}, settings := {} }
    let ops : List Operation := [.createStruct, .createStruct, .addMemberType ⟨1⟩ 0 (.int 4 true),
      .addMemberType ⟨0⟩ 0 (.struct ⟨1⟩), .addMemberType ⟨1⟩ 4 (.int 4 true)]
    ∃ replies s l m, (performAll c ops).run (Session.start {}) = .ok (replies, s) ∧
      s.isNewType ⟨0⟩ = true ∧ s.db.layout? ⟨0⟩ = some l ∧ l.members.get? 0 = some m ∧
      m.type = .struct ⟨1⟩ ∧ m.size = 4 ∧ l.size = 4 ∧
      TypeStore.sizeOf s.db m.type = .ok (some 8) := by
  intro c ops
  have heval : (do
      let found ← (performAll c ops).run (Session.start {})
      let size ← TypeStore.sizeOf found.2.db (.struct ⟨1⟩)
      pure (found.2.isNewType ⟨0⟩, (found.2.db.layout? ⟨0⟩).bind fun l =>
        (l.members.get? 0).map fun m => (m.type, m.size, l.size), size)) =
      (.ok (true, some (.struct ⟨1⟩, 4, 4), some 8) : Checked _) := by
    decide +kernel
  obtain ⟨⟨replies, s⟩, hs, heval⟩ := Checked.bind_eq_ok.1 heval
  obtain ⟨size, hsize, heval⟩ := Checked.bind_eq_ok.1 heval
  simp only [Checked.pure_eq_ok, Prod.mk.injEq] at heval
  obtain ⟨hid, hmember, rfl⟩ := heval
  obtain ⟨l, hl, hmember⟩ := Option.bind_eq_some_iff.1 hmember
  obtain ⟨m, hm, hmember⟩ := Option.map_eq_some_iff.1 hmember
  simp only [Prod.mk.injEq] at hmember
  obtain ⟨htype, hrecorded, hwhole⟩ := hmember
  exact ⟨replies, s, l, m, hs, hid, hl, hm, htype, hrecorded, hwhole, by rw [htype]; exact hsize⟩

end Operation
end TypeRecovery
