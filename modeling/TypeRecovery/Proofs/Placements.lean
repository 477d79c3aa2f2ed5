import Mathlib.Data.List.Induction
import TypeRecovery.Proofs.Merges

/-!
# Layouts from disjoint evidence

A struct of the run is filled by merging members one after another. If the members do not overlap,
only the last evidence at each offset counts, and where it came in between the others does not
matter: `Layout.put` is what one merge then does, and the layout is the fold of it. Each merge
places a placeholder, looks for room twice and types the member; `Layout.Accepts` says what the
layout needs for all of that to succeed.
-/
namespace TypeRecovery

/-- Evidence for a member of a struct. -/
structure Placement where
  offset : Nat
  type : Ty
  size : Nat

namespace Placement

/-- The first offset after the member. -/
def stop (w : Placement) : Nat := w.offset + w.size

/-- The member that is placed, under its default name. -/
def member (w : Placement) : Member :=
  { offset := w.offset, name := Member.defaultName w.offset, type := w.type, size := w.size }

/-- What evidence must satisfy to be placed anywhere: its type is no struct and has the given size
in a store, and it ends at a word. -/
structure Fits (db : Overlay) (w : Placement) : Prop where
  plain : w.type.structId? = none
  sized : TypeStore.sizeOf db w.type = .ok (some w.size)
  pos : 1 ≤ w.size
  word : w.stop < Word.bound

/-- The last of the placements at an offset. -/
def lastAt (ws : List Placement) (offset : Nat) : Option Placement :=
  (ws.filter (·.offset = offset)).getLast?

/-- The largest offset that a placement reaches. -/
def extent (ws : List Placement) : Nat := (ws.map stop).foldr max 0

/-- Placements at different offsets have no byte in common. -/
def Disjoint (ws : List Placement) : Prop :=
  ∀ v ∈ ws, ∀ w ∈ ws, v.offset ≠ w.offset → v.stop ≤ w.offset ∨ w.stop ≤ v.offset

/-- The same placements, with those at the same offset in the same order. -/
def Reorders (ws vs : List Placement) : Prop :=
  ∀ offset, vs.filter (·.offset = offset) = ws.filter (·.offset = offset)

variable {ws vs : List Placement} {w : Placement} {offset n : Nat}

theorem lastAt_concat (ws : List Placement) (w : Placement) (offset : Nat) :
    lastAt (ws ++ [w]) offset = if offset = w.offset then some w else lastAt ws offset := by
  unfold lastAt
  rw [List.filter_append]
  by_cases h : offset = w.offset
  · simp [h]
  · simp [h, Ne.symm h]

theorem mem_of_lastAt (h : lastAt ws offset = some w) : w ∈ ws ∧ w.offset = offset := by
  simpa using List.mem_filter.1 (List.mem_of_getLast? h)

theorem extent_le_iff : extent ws ≤ n ↔ ∀ w ∈ ws, w.stop ≤ n := by
  unfold extent
  induction ws with
  | nil => simp
  | cons w rest ih =>
    simp only [List.map_cons, List.foldr_cons, List.forall_mem_cons]
    rw [← ih]
    omega

theorem extent_concat (ws : List Placement) (w : Placement) :
    extent (ws ++ [w]) = max (extent ws) w.stop := by
  apply Nat.le_antisymm
  · rw [extent_le_iff]
    intro v hv
    rcases List.mem_append.1 hv with hv | hv
    · have hle := extent_le_iff.1 (Nat.le_refl (extent ws)) v hv
      omega
    · rw [List.mem_singleton.1 hv]
      omega
  · have hall := extent_le_iff.1 (Nat.le_refl (extent (ws ++ [w])))
    have hws : extent ws ≤ extent (ws ++ [w]) := by
      rw [extent_le_iff]
      intro v hv
      exact hall v (List.mem_append_left _ hv)
    have hw := hall w (by simp)
    omega

theorem Reorders.mem_iff (h : Reorders ws vs) : w ∈ vs ↔ w ∈ ws := by
  have hfilter : w ∈ vs.filter (·.offset = w.offset) ↔ w ∈ ws.filter (·.offset = w.offset) := by
    rw [h]
  simpa using hfilter

theorem Reorders.lastAt_eq (h : Reorders ws vs) (offset : Nat) :
    lastAt vs offset = lastAt ws offset := by
  unfold lastAt
  rw [h]

theorem Reorders.extent_eq (h : Reorders ws vs) : extent vs = extent ws := by
  have hle : ∀ n, extent vs ≤ n ↔ extent ws ≤ n := by
    intro n
    simp only [extent_le_iff, h.mem_iff]
  exact Nat.le_antisymm ((hle _).2 (Nat.le_refl _)) ((hle _).1 (Nat.le_refl _))

end Placement

namespace Layout

open Placement (lastAt extent)

/-- A member in the place of whatever starts at its offset. -/
def put (l : Layout) (w : Placement) : Layout :=
  { l with members := l.members.insert w.offset w.member, size := max l.size w.stop }

variable {ws vs : List Placement} {id : StructId} {name : String}

theorem get?_foldl_put (id : StructId) (name : String) (ws : List Placement) (offset : Nat) :
    (ws.foldl put { id, name }).members.get? offset = (lastAt ws offset).map (·.member) := by
  induction ws using List.reverseRecOn with
  | nil => rfl
  | append_singleton ws w ih =>
    rw [List.foldl_concat, Placement.lastAt_concat]
    simp only [put, Table.get?_insert, ih]
    split <;> rfl

theorem size_foldl_put (id : StructId) (name : String) (ws : List Placement) :
    (ws.foldl put { id, name }).size = extent ws := by
  induction ws using List.reverseRecOn with
  | nil => rfl
  | append_singleton ws w ih =>
    rw [List.foldl_concat, Placement.extent_concat, ← ih]
    rfl

theorem frame_foldl_put (l : Layout) (ws : List Placement) :
    (ws.foldl put l).id = l.id ∧ (ws.foldl put l).name = l.name := by
  induction ws generalizing l with
  | nil => exact ⟨rfl, rfl⟩
  | cons w rest ih => exact ih (l.put w)

theorem eq_of_fields {l l' : Layout} (hid : l.id = l'.id) (hname : l.name = l'.name)
    (hmembers : l.members = l'.members) (hsize : l.size = l'.size) : l = l' := by
  cases l
  cases l'
  simp_all

theorem foldl_put_of_reorders (id : StructId) (name : String) (h : Placement.Reorders ws vs) :
    vs.foldl put { id, name } = ws.foldl put { id, name } := by
  have hmembers : (vs.foldl put { id, name }).members = (ws.foldl put { id, name }).members := by
    apply Table.ext_get?
    intro offset
    rw [get?_foldl_put, get?_foldl_put, h.lastAt_eq]
  have hsize : (vs.foldl put { id, name }).size = (ws.foldl put { id, name }).size := by
    rw [size_foldl_put, size_foldl_put, h.extent_eq]
  have hvs := frame_foldl_put { id, name } vs
  have hws := frame_foldl_put { id, name } ws
  exact eq_of_fields (hvs.1.trans hws.1.symm) (hvs.2.trans hws.2.symm) hmembers hsize

/-- What a layout needs for a member to be placed: no other member shares a byte with it, and the
one at its offset, if any, is no struct and is named by default. -/
structure Accepts (l : Layout) (w : Placement) : Prop where
  wellFormed : l.WellFormed
  word : l.size < Word.bound
  before : ∀ {a m}, l.members.get? a = some m → a < w.offset → a + m.width ≤ w.offset
  after : ∀ {b n}, l.members.get? b = some n → w.offset < b → w.stop ≤ b
  plain : ∀ {m}, l.members.get? w.offset = some m →
    m.type.structId? = none ∧ { m with type := w.type, size := w.size } = w.member

variable {l : Layout} {offset size n : Nat} {type : Ty} {m : Member} {w : Placement}

theorem WellFormed.exists_memberAt (hl : l.WellFormed) (hword : l.size < Word.bound) (n : Nat) :
    ∃ found, l.memberAt n = .ok found := by
  unfold memberAt
  cases hfloor : l.members.floor? n with
  | none => exact ⟨none, rfl⟩
  | some e =>
    obtain ⟨a, m⟩ := e
    have hm := (Table.of_floor?_eq_some hfloor).1
    have hkey := hl.keyed hm
    have hinside := hl.inside hm
    have hstop : m.stop = .ok (m.offset + m.width) := Word.add_eq_ok_iff.2 ⟨by omega, rfl⟩
    exact ⟨_, Checked.bind_eq_ok.2 ⟨_, hstop, rfl⟩⟩

theorem WellFormed.memberAt_of_get? (hl : l.WellFormed) (hword : l.size < Word.bound)
    (hm : l.members.get? offset = some m) : l.memberAt offset = .ok (some m) := by
  have hkey := hl.keyed hm
  have hpos := m.width_pos
  have hinside := hl.inside hm
  rw [hl.memberAt_eq_some]
  exact ⟨by rw [hkey]; exact hm, by omega, by omega, by omega⟩

section Room

variable (hroom : ∀ {b n}, l.members.get? b = some n → offset < b → offset + size ≤ b)
  (hword : offset < Word.max) (hstop : offset + size < Word.bound)
include hroom hword hstop

theorem obstacle_of_room : Merge.obstacle l offset size = .ok none := by
  unfold Merge.obstacle
  cases hnext : l.nextMember offset with
  | none => rfl
  | some next =>
    obtain ⟨⟨n, hn⟩, hlt, _⟩ := of_nextMember_eq_some hnext hword
    refine Checked.bind_eq_ok.2 ⟨_, Word.add_eq_ok_iff.2 ⟨hstop, rfl⟩, ?_⟩
    rw [if_pos (hroom hn hlt)]
    rfl

theorem clearFor_of_room : (clearFor offset size).run.run l = .ok (.ok (), l) := by
  simp only [clearFor, Edit.run_get_bind]
  cases hnext : l.nextMember offset with
  | none => rfl
  | some next =>
    obtain ⟨⟨n, hn⟩, hlt, _⟩ := of_nextMember_eq_some hnext hword
    simp only [Edit.run_lift_bind]
    refine Checked.bind_eq_ok.2 ⟨_, Word.add_eq_ok_iff.2 ⟨hstop, rfl⟩, ?_⟩
    rw [if_pos (hroom hn hlt)]
    rfl

theorem setMemberType_of_room (hm : l.members.get? offset = some m)
    (hat : l.memberAt offset = .ok (some m)) (hkey : m.offset = offset) (type : Ty) :
    (setMemberType offset type size).run.run l = .ok (.ok (), { l with
      members := l.members.insert offset { m with type, size }
      size := max l.size (offset + size) }) := by
  have hstart : l.memberStart offset = .ok (some offset) :=
    Checked.bind_eq_ok.2 ⟨_, hat, by rw [← hkey]; rfl⟩
  have hretype : l.retype offset type size =
      { l with members := l.members.insert offset { m with type, size } } := by
    unfold retype
    rw [hm]
  simp only [setMemberType, Edit.run_get_bind, Edit.run_lift_bind]
  refine Checked.bind_eq_ok.2 ⟨_, hstart, ?_⟩
  simp only [if_true]
  refine Edit.bind_eq_ok.2 (.inr ⟨_, _, clearFor_of_room hroom hword hstop, ?_⟩)
  simp only [Edit.run_modify_bind, Edit.run_lift_bind, hretype]
  exact Checked.bind_eq_ok.2 ⟨_, Word.add_eq_ok_iff.2 ⟨hstop, rfl⟩, rfl⟩

end Room

namespace Accepts

theorem memberAt (h : l.Accepts w) (hm : l.members.get? w.offset = some m) :
    l.memberAt w.offset = .ok (some m) :=
  h.wellFormed.memberAt_of_get? h.word hm

theorem not_covers (h : l.Accepts w) (hnone : l.members.get? w.offset = none) :
    l.covers w.offset = .ok false := by
  obtain ⟨found, hat⟩ := h.wellFormed.exists_memberAt h.word w.offset
  cases found with
  | none => exact Checked.bind_eq_ok.2 ⟨_, hat, rfl⟩
  | some m =>
    -- a member that starts elsewhere ends before
    have hm := h.wellFormed.memberAt_eq_some.1 hat
    have hne : m.offset ≠ w.offset := by
      intro heq
      rw [← heq, hm.held] at hnone
      cases hnone
    have hle := hm.start_le
    have hlt := hm.lt_stop
    have hstop := h.before hm.held (by omega)
    omega

theorem placeholder (h : l.Accepts w) (hword : w.offset + 1 < Word.bound) :
    Accepts { l with
      members := l.members.insert w.offset (Member.placeholder w.offset)
      size := max l.size (w.offset + 1) } w where
  wellFormed := by
    refine h.wellFormed.insert rfl h.before ?_ (by omega) ?_
    · intro b n _ hlt
      exact hlt
    · simp only [Member.placeholder, Member.width]
      omega
  word := by
    have hsize := h.word
    simp only
    omega
  before {a m} ha hlt := by
    simp only [Table.get?_insert, if_neg (Nat.ne_of_lt hlt)] at ha
    exact h.before ha hlt
  after {b n} hb hlt := by
    simp only [Table.get?_insert, if_neg (Nat.ne_of_gt hlt)] at hb
    exact h.after hb hlt
  plain {m} hm := by
    simp only [Table.get?_insert, if_true, Option.some.injEq] at hm
    subst hm
    exact ⟨rfl, rfl⟩

theorem addMember (h : l.Accepts w) (hpos : 1 ≤ w.size) (hword : w.stop < Word.bound) :
    ∃ added placed m, (Layout.addMember w.offset).run.run l = .ok (.ok added, placed) ∧
      placed.Accepts w ∧ placed.members.get? w.offset = some m ∧ placed.put w = l.put w := by
  have hstop : w.stop = w.offset + w.size := rfl
  cases hm : l.members.get? w.offset with
  | some m =>
    have hcovers : l.covers w.offset = .ok true := covers_eq_true.2 ⟨m, h.memberAt hm⟩
    refine ⟨false, l, m, ?_, h, hm, rfl⟩
    simp only [Layout.addMember, Edit.run_get_bind, Edit.run_lift_bind]
    exact Checked.bind_eq_ok.2 ⟨_, hcovers, rfl⟩
  | none =>
    refine ⟨true, _, .placeholder w.offset, ?_, h.placeholder (by omega), ?_, ?_⟩
    · simp only [Layout.addMember, Edit.run_get_bind, Edit.run_lift_bind]
      refine Checked.bind_eq_ok.2 ⟨_, h.not_covers hm, ?_⟩
      simp only [Bool.false_eq_true, ↓reduceIte, Edit.run_lift_bind]
      exact Checked.bind_eq_ok.2 ⟨_, Word.add_eq_ok_iff.2 ⟨by omega, rfl⟩, rfl⟩
    · exact Table.get?_insert_self _ _ _
    · unfold put
      simp only [Table.insert_insert]
      congr 1
      omega

theorem setMemberType (h : l.Accepts w) (hm : l.members.get? w.offset = some m)
    (hpos : 1 ≤ w.size) (hword : w.stop < Word.bound) :
    (Layout.setMemberType w.offset w.type w.size).run.run l = .ok (.ok (), l.put w) := by
  have hmax : Word.bound = Word.max + 1 := rfl
  have hstop : w.stop = w.offset + w.size := rfl
  have hset := setMemberType_of_room h.after (by omega) hword hm (h.memberAt hm)
    (h.wellFormed.keyed hm) w.type
  rw [(h.plain hm).2] at hset
  exact hset

theorem plan (h : l.Accepts w) (hm : l.members.get? w.offset = some m) {db : Overlay}
    {id : StructId} (hl : db.layout? id = some l)
    (hsize : TypeStore.sizeOf db w.type = .ok (some w.size)) (hpos : 1 ≤ w.size)
    (hword : w.stop < Word.bound) :
    Merge.plan db id w.offset w.type = .ok (.place l.name) := by
  have hmax : Word.bound = Word.max + 1 := rfl
  have hstop : w.stop = w.offset + w.size := rfl
  have hknown : w.type.isUnknown = false := by
    cases htype : w.type with
    | unknown =>
      rw [htype] at hsize
      cases hsize
    | _ => rfl
  have hfree := obstacle_of_room h.after (by omega) hword
  have henclosing : Merge.enclosing l w.offset w.size = .ok none := by
    refine Checked.bind_eq_ok.2 ⟨_, h.memberAt hm, ?_⟩
    simp only [(h.plain hm).1]
    rfl
  unfold Merge.plan
  rw [hknown, hl]
  refine Checked.bind_eq_ok.2 ⟨_, hsize, ?_⟩
  simp only [Nat.ne_of_gt hpos, if_false]
  exact Checked.bind_eq_ok.2 ⟨_, hfree, Checked.bind_eq_ok.2 ⟨_, henclosing, rfl⟩⟩

end Accepts

theorem mem_of_get?_foldl_put {a : Nat} {m : Member}
    (h : (ws.foldl put { id, name }).members.get? a = some m) :
    ∃ v ∈ ws, v.offset = a ∧ m = v.member := by
  rw [get?_foldl_put] at h
  obtain ⟨v, hv, rfl⟩ := Option.map_eq_some_iff.1 h
  obtain ⟨hmem, hoffset⟩ := Placement.mem_of_lastAt hv
  exact ⟨v, hmem, hoffset, rfl⟩

theorem accepts_foldl_put {db : Overlay} {past : List Placement}
    (hfits : ∀ v ∈ past ++ [w], v.Fits db) (hdisjoint : Placement.Disjoint (past ++ [w])) :
    (past.foldl put { id, name }).Accepts w := by
  have hw : w ∈ past ++ [w] := by simp
  have hpast : ∀ {v}, v ∈ past → v ∈ past ++ [w] := List.mem_append_left [w]
  have hstop : ∀ {u v}, u ∈ past ++ [w] → v ∈ past ++ [w] → u.offset < v.offset →
      u.stop ≤ v.offset := by
    intro u v hu hv hlt
    have hapart := hdisjoint u hu v hv (Nat.ne_of_lt hlt)
    unfold Placement.stop at hapart ⊢
    omega
  -- no placement is empty, so none occupies more than it says
  have hwidth : ∀ {v}, v ∈ past → v.offset + v.member.width = v.stop := by
    intro v hv
    have hpos := (hfits v (hpast hv)).pos
    simp only [Placement.member, Member.width, Placement.stop]
    omega
  refine ⟨⟨?keyed, ?disjoint, ?inside⟩, ?word, ?before, ?after, ?plain⟩
  case keyed =>
    intro a m ha
    obtain ⟨v, _, rfl, rfl⟩ := mem_of_get?_foldl_put ha
    rfl
  case disjoint =>
    intro a b m n ha hb hlt
    obtain ⟨u, hu, rfl, rfl⟩ := mem_of_get?_foldl_put ha
    obtain ⟨v, hv, rfl, rfl⟩ := mem_of_get?_foldl_put hb
    rw [hwidth hu]
    exact hstop (hpast hu) (hpast hv) hlt
  case inside =>
    intro a m ha
    obtain ⟨v, hv, rfl, rfl⟩ := mem_of_get?_foldl_put ha
    rw [hwidth hv, size_foldl_put]
    exact Placement.extent_le_iff.1 (Nat.le_refl _) v hv
  case word =>
    have hle : extent past ≤ Word.max := Placement.extent_le_iff.2 fun v hv =>
      Nat.le_of_lt_succ (hfits v (hpast hv)).word
    rw [size_foldl_put]
    exact Nat.lt_succ_of_le hle
  case before =>
    intro a m ha hlt
    obtain ⟨v, hv, rfl, rfl⟩ := mem_of_get?_foldl_put ha
    rw [hwidth hv]
    exact hstop (hpast hv) hw hlt
  case after =>
    intro b n hb hlt
    obtain ⟨v, hv, rfl, rfl⟩ := mem_of_get?_foldl_put hb
    exact hstop hw (hpast hv) hlt
  case plain =>
    intro m hm
    obtain ⟨v, hv, hoffset, rfl⟩ := mem_of_get?_foldl_put hm
    constructor
    · exact (hfits v (hpast hv)).plain
    · simp only [Placement.member, hoffset]

end Layout

theorem Ty.sizeWith_eq_zero {pointerSize : Nat} {f : StructId → Option Nat} {t : Ty}
    {id : StructId} {size : Nat} (ht : t.embedded? = some id) (hf : f id = some 0)
    (h : t.sizeWith pointerSize f = .ok (some size)) : size = 0 := by
  induction t generalizing size with
  | array element length ih =>
    obtain ⟨found, helement, h⟩ := Checked.bind_eq_ok.1 h
    cases found with
    | none => cases h
    | some k =>
      cases ih ht helement
      cases length with
      | none => cases h
      | some n =>
        obtain ⟨_, hmul, h⟩ := Checked.map_eq_ok.1 h
        cases h
        rw [(Word.mul_eq_ok_iff.1 hmul).2, Nat.zero_mul]
  | struct id' =>
    cases ht
    have hsize : f id = some size := Except.ok.inj h
    exact (Option.some.inj (hf.symm.trans hsize)).symm
  | _ => cases ht

namespace Session

variable {s : Session} {id : StructId} {name : String} {w : Placement}

/-- A type that has a size while a struct is empty does not hold that struct, so its size is the
same whatever becomes of the struct. -/
theorem sizeOf_withLayout (hl : s.db.layout? id = some { id, name }) (hw : w.Fits s.db)
    (l : Layout) : TypeStore.sizeOf (s.withLayout id l).db w.type = .ok (some w.size) := by
  have hlayout : TypeStore.layout? s.db id = some { id, name } := hl
  have hother : ∀ nested, w.type.embedded? = some nested → nested ≠ id := by
    rintro nested hnested rfl
    have hzero := Ty.sizeWith_eq_zero hnested (by rw [hlayout]; rfl) hw.sized
    have hpos := hw.pos
    omega
  rw [← hw.sized]
  refine Ty.sizeWith_congr fun nested hnested => ?_
  have hsame : (s.withLayout id l).db.layout? nested = s.db.layout? nested := by
    rw [layout?_withLayout hl, if_neg (hother nested hnested)]
  exact congrArg (Option.map Layout.size) hsame

end Session

namespace Infer

open Session

variable {s : Session} {id : StructId} {name : String} {l : Layout} {w : Placement}

theorem addMemberType_of_accepts (hid : s.isNewType id = true)
    (hown : s.db.isProvisional id = true) (hl : s.db.layout? id = some l) (h : l.Accepts w)
    (hsize : ∀ l', TypeStore.sizeOf (s.withLayout id l').db w.type = .ok (some w.size))
    (hpos : 1 ≤ w.size) (hword : w.stop < Word.bound) :
    (addMemberType id w.offset w.type).run s = .ok ((), s.withLayout id (l.put w)) := by
  obtain ⟨added, placed, m, hadd, hplaced, hm, hput⟩ := h.addMember hpos hword
  have hl' : (s.withLayout id placed).db.layout? id = some placed := by
    rw [layout?_withLayout hl, if_pos rfl]
  -- the sizes are asked for again once the placeholder is there
  have hplan := hplaced.plan hm hl' (hsize placed) hpos hword
  have hset := hplaced.setMemberType hm hpos hword
  obtain ⟨fuel, hfuel⟩ : ∃ fuel, (s.db.structIds.length + 1) * (w.offset + 1) = fuel + 1 :=
    Nat.exists_eq_succ_of_ne_zero (by simp)
  simp only [addMemberType, run_get_bind, hfuel, addMemberTypeWithin, hid, Bool.not_true,
    Bool.false_eq_true, if_false]
  refine bind_eq_ok.2 ⟨_, _, (edit_provisional_eq_ok hown hl).2 ⟨placed, hadd, rfl⟩, ?_⟩
  simp only [run_get_bind, run_lift_bind]
  refine Checked.bind_eq_ok.2 ⟨_, hplan, ?_⟩
  refine bind_eq_ok.2 ⟨_, _, (edit_setMemberType_eq_ok (s := s.withLayout id placed) hown hl'
    (hsize placed)).2 ⟨_, hset, rfl⟩, ?_⟩
  rw [withLayout_withLayout, hput]
  rfl

/-- Records a list of placements one after another. -/
def addMemberTypes (id : StructId) (ws : List Placement) : Infer Unit :=
  ws.forM fun w => addMemberType id w.offset w.type

theorem run_addMemberTypes (hs : s.Unwritten) (hid : s.isNewType id = true)
    (hl : s.db.layout? id = some { id, name }) (past ws : List Placement)
    (hfits : ∀ w ∈ past ++ ws, w.Fits s.db) (hdisjoint : Placement.Disjoint (past ++ ws)) :
    (addMemberTypes id ws).run (s.withLayout id (past.foldl Layout.put { id, name })) =
      .ok ((), s.withLayout id ((past ++ ws).foldl Layout.put { id, name })) := by
  -- the invariant is the layout itself: the fold over all that has been placed so far
  induction ws generalizing past with
  | nil =>
    rw [List.append_nil]
    rfl
  | cons w rest ih =>
    have hnow : ∀ {v}, v ∈ past ++ [w] → v ∈ past ++ w :: rest := by
      intro v hv
      simp only [List.mem_append, List.mem_cons] at hv ⊢
      tauto
    have hw := hfits w (by simp)
    have haccepts : (past.foldl Layout.put { id, name }).Accepts w :=
      Layout.accepts_foldl_put (fun v hv => hfits v (hnow hv))
        fun u hu v hv => hdisjoint u (hnow hu) v (hnow hv)
    have hlayout : (s.withLayout id (past.foldl Layout.put { id, name })).db.layout? id =
        some (past.foldl Layout.put { id, name }) := by
      rw [layout?_withLayout hl, if_pos rfl]
    have hown := hs.isProvisional_of_isNewType hid
    have hstep := addMemberType_of_accepts (s := s.withLayout id _) hid hown hlayout haccepts
      (fun l => by rw [withLayout_withLayout]; exact sizeOf_withLayout hl hw l) hw.pos hw.word
    rw [withLayout_withLayout, ← List.foldl_concat Layout.put] at hstep
    rw [List.append_cons] at hfits hdisjoint ⊢
    exact bind_eq_ok.2 ⟨(), _, hstep, ih (past ++ [w]) hfits hdisjoint⟩

end Infer

namespace Operation

open Placement (lastAt extent)

/-- Evidence that does not overlap gives a struct without members one layout, in any order: at each
offset the member of the last evidence there, and as many bytes as the evidence reaches. Nothing is
reported, and evidence at different offsets can be exchanged. -/
theorem disjoint_evidence_canonical (c : Context) (db : Database) (ops : List Operation)
    (replies : List Reply) (s : Session)
    (hs : (performAll c ops).run (Session.start db) = .ok (replies, s)) (id : StructId)
    (name : String) (hid : s.isNewType id = true) (hl : s.db.layout? id = some { id, name })
    (ws : List Placement) (hfits : ∀ w ∈ ws, w.Fits s.db) (hdisjoint : Placement.Disjoint ws) :
    ∃ l t, (Infer.addMemberTypes id ws).run s = .ok ((), t) ∧ t = s.withLayout id l ∧
      t.db.layout? id = some l ∧
      (∀ offset, l.members.get? offset = (lastAt ws offset).map (·.member)) ∧
      l.size = extent ws ∧ t.diagnostics = s.diagnostics ∧
      ∀ vs, Placement.Reorders ws vs → (Infer.addMemberTypes id vs).run s = .ok ((), t) := by
  have hunwritten := (Session.unwritten_start db).leads (leads_of_performAll hs)
  have hself : s.withLayout id { id, name } = s := hunwritten.withLayout_self hid hl
  have hrun : ∀ vs, Placement.Reorders ws vs → (Infer.addMemberTypes id vs).run s =
      .ok ((), s.withLayout id (ws.foldl Layout.put { id, name })) := by
    intro vs hvs
    have hfits' : ∀ v ∈ vs, v.Fits s.db := fun v hv => hfits v (hvs.mem_iff.1 hv)
    have hdisjoint' : Placement.Disjoint vs := fun u hu v hv =>
      hdisjoint u (hvs.mem_iff.1 hu) v (hvs.mem_iff.1 hv)
    have hplaced := Infer.run_addMemberTypes hunwritten hid hl [] vs hfits' hdisjoint'
    rw [List.foldl_nil, hself, List.nil_append, Layout.foldl_put_of_reorders id name hvs] at hplaced
    exact hplaced
  refine ⟨_, _, hrun ws fun _ => rfl, rfl, ?_, Layout.get?_foldl_put id name ws,
    Layout.size_foldl_put id name ws, rfl, hrun⟩
  rw [Session.layout?_withLayout hl, if_pos rfl]

/-- A member that is widened and narrowed again while its neighbours come in, before or after. -/
theorem disjoint_evidence_canonical_repeated :
    let c : Context := { program := {}, settings := {} }
    let ws : List Placement := [⟨8, .int 4 true, 4⟩, ⟨0, .pointer .void, 8⟩,
      ⟨8, .array (.int 2 false) (some 4), 8⟩, ⟨16, .float 4, 4⟩, ⟨8, .int 2 false, 2⟩]
    let vs : List Placement := [⟨16, .float 4, 4⟩, ⟨8, .int 4 true, 4⟩,
      ⟨8, .array (.int 2 false) (some 4), 8⟩, ⟨8, .int 2 false, 2⟩, ⟨0, .pointer .void, 8⟩]
    ∃ replies s name, (performAll c [.createStruct]).run (Session.start {}) = .ok (replies, s) ∧
      s.isNewType ⟨0⟩ = true ∧ s.db.layout? ⟨0⟩ = some { id := ⟨0⟩, name } ∧
      (∀ w ∈ ws, w.Fits s.db) ∧ Placement.Disjoint ws ∧ Placement.Reorders ws vs ∧
      ∃ l t, (Infer.addMemberTypes ⟨0⟩ ws).run s = .ok ((), t) ∧ t.db.layout? ⟨0⟩ = some l ∧
        l.members.get? 8 = some { offset := 8, name := "field_8", type := .int 2 false, size := 2 } ∧
        l.members.get? 12 = none ∧ l.size = 20 ∧ t.diagnostics = s.diagnostics ∧
        (Infer.addMemberTypes ⟨0⟩ vs).run s = .ok ((), t) := by
  intro c ws vs
  have heval : (do
      let found ← (performAll c [.createStruct]).run (Session.start {})
      pure (found.2.isNewType ⟨0⟩, found.2.db.layout? ⟨0⟩,
        ws.map fun w => TypeStore.sizeOf found.2.db w.type)) =
      (.ok (true, some { id := ⟨0⟩, name := c.settings.structName 0 },
        ws.map fun w => .ok (some w.size)) : Checked _) := by
    decide +kernel
  obtain ⟨⟨replies, s⟩, hs, heval⟩ := Checked.bind_eq_ok.1 heval
  simp only [Checked.pure_eq_ok, Prod.mk.injEq] at heval
  obtain ⟨hid, hl, hsizes⟩ := heval
  have hplain : ∀ w ∈ ws, w.type.structId? = none ∧ 1 ≤ w.size ∧ w.stop < Word.bound := by decide
  have hfits : ∀ w ∈ ws, w.Fits s.db := by
    intro w hw
    obtain ⟨hstruct, hpos, hword⟩ := hplain w hw
    exact ⟨hstruct, List.map_inj_left.1 hsizes w hw, hpos, hword⟩
  have hdisjoint : Placement.Disjoint ws := by
    unfold Placement.Disjoint
    decide
  have hreorders : Placement.Reorders ws vs := by
    intro offset
    by_cases hfirst : 0 = offset
    · subst hfirst
      rfl
    · by_cases hlast : 16 = offset
      · subst hlast
        rfl
      · simp [ws, vs, List.filter_cons, hfirst, hlast]
  obtain ⟨l, t, ht, _, hlayout, hmembers, hsize, hsilent, hany⟩ :=
    disjoint_evidence_canonical c {} [.createStruct] replies s hs ⟨0⟩ _ hid hl ws hfits hdisjoint
  refine ⟨replies, s, _, hs, hid, hl, hfits, hdisjoint, hreorders, l, t, ht, hlayout, ?_, ?_, ?_,
    hsilent, hany vs hreorders⟩
  · rw [hmembers]
    decide
  · rw [hmembers]
    decide
  · rw [hsize]
    decide

end Operation
end TypeRecovery
