import TypeRecovery.Proofs.MemberSizes
import TypeRecovery.Proofs.Progress

/-!
# Numbers in range

Offsets, widths, array lengths and struct sizes come from a program and a database, and are added
and multiplied in many places. `Margins` bounds what they are at the start; `Layout.Bounded` and
`Overlay.Bounded` bound what has become of them. Within such bounds no query, plan, verdict or walk
overflows, and of the changes to a layout only those that type a member need wider bounds.
-/
namespace TypeRecovery

/-- Every fault but an overflow. -/
def Fault.InRange : Fault → Prop
  | overflow _ => False
  | _ => True

variable {σ α β : Type}

namespace Checked

abbrev InRange (x : Checked α) : Prop := Stops Fault.InRange x

/-- The computation does not overflow, and its result satisfies `P`. -/
def Safe (x : Checked α) (P : α → Prop) : Prop :=
  match x with
  | .ok a => P a
  | .error fault => fault.InRange

instance (x : Checked α) (P : α → Prop) [DecidablePred P] : Decidable (x.Safe P) :=
  match x with
  | .ok a => inferInstanceAs (Decidable (P a))
  | .error (.overflow _) => .isFalse id
  | .error (.endless _) => .isTrue trivial
  | .error .exhausted => .isTrue trivial

variable {x : Checked α} {P Q : α → Prop}

theorem safe_iff : x.Safe P ↔ x.InRange ∧ ∀ a, x = .ok a → P a := by
  cases x with
  | ok a =>
    constructor
    · intro h
      refine ⟨nofun, ?_⟩
      rintro _ ⟨⟩
      exact h
    · exact fun h => h.2 a rfl
  | error fault =>
    constructor
    · intro h
      refine ⟨?_, nofun⟩
      rintro _ ⟨⟩
      exact h
    · exact fun h => h.1 fault rfl

theorem Safe.inRange (h : x.Safe P) : x.InRange := (safe_iff.1 h).1

theorem safe_of_inRange (h : x.InRange) : x.Safe fun _ => True :=
  safe_iff.2 ⟨h, fun _ _ => trivial⟩

theorem Safe.of_ok (h : x.Safe P) {a : α} (hx : x = .ok a) : P a := (safe_iff.1 h).2 a hx

theorem Safe.imp (h : x.Safe P) (hPQ : ∀ a, P a → Q a) : x.Safe Q :=
  safe_iff.2 ⟨h.inRange, fun a hx => hPQ a (h.of_ok hx)⟩

theorem safe_pure {a : α} (h : P a) : Safe (pure a) P := h

theorem safe_bind {f : α → Checked β} {Q : β → Prop} (hx : x.Safe P)
    (hf : ∀ a, P a → (f a).Safe Q) : (x >>= f).Safe Q := by
  cases x with
  | ok a => exact hf a hx
  | error fault => exact hx

theorem safe_optionBind {x : OptionT Checked α} {f : α → OptionT Checked β} {Q : β → Prop}
    (hx : Safe x.run fun found => ∀ a ∈ found, P a)
    (hf : ∀ a, P a → Safe (f a).run fun found => ∀ b ∈ found, Q b) :
    Safe (x >>= f).run fun found => ∀ b ∈ found, Q b := by
  refine safe_bind hx fun found hfound => ?_
  cases found with
  | none => exact safe_pure nofun
  | some a => exact hf a (hfound a rfl)

theorem safe_some {a : α} (h : P a) :
    Safe (pure (some a) : Checked _) fun found => ∀ b ∈ found, P b := by
  apply safe_pure
  rintro _ ⟨⟩
  exact h

theorem safe_none : Safe (pure none : Checked (Option α)) fun found => ∀ b ∈ found, P b :=
  safe_pure nofun

end Checked

open Checked (safe_of_inRange safe_pure safe_bind safe_optionBind safe_some safe_none stops_pure
  stops_bind)

namespace Word

variable {a b : Nat}

theorem safe_add (h : a + b < bound) : (add a b).Safe (· = a + b) := by
  rw [add, if_pos h]
  exact safe_pure rfl

theorem safe_mul (h : a * b < bound) : (mul a b).Safe (· = a * b) := by
  rw [mul, if_pos h]
  exact safe_pure rfl

theorem safe_sub (h : b ≤ a) : (sub a b).Safe (· = a - b) := by
  rw [sub, if_pos h]
  exact safe_pure rfl

end Word

namespace Edit

/-- From every state that satisfies `P`, the change does not overflow and leaves such a state. -/
def Maintains (P : σ → Prop) (change : Edit σ α) : Prop :=
  ∀ s, P s → (change.run.run s).Safe fun p => P p.2

variable {P : σ → Prop}

theorem maintains_pure (a : α) : Maintains P (pure a) := fun _ h => h

theorem maintains_throw (cause : Refusal) : Maintains P (throw cause : Edit σ α) := fun _ h => h

theorem maintains_set {s : σ} (h : P s) : Maintains P (set s) := fun _ _ => h

theorem maintains_modify {f : σ → σ} (h : ∀ s, P s → P (f s)) : Maintains P (modify f) := h

theorem maintains_bind {x : Edit σ α} {f : α → Edit σ β} (hx : Maintains P x)
    (hf : ∀ a, Maintains P (f a)) : Maintains P (x >>= f) := by
  intro s hs
  rw [run_bind]
  refine safe_bind (hx s hs) fun p hp => ?_
  obtain ⟨answer, s'⟩ := p
  cases answer with
  | ok a => exact hf a s' hp
  | error cause => exact safe_pure hp

theorem maintains_get_bind {f : σ → Edit σ β} (hf : ∀ s, P s → Maintains P (f s)) :
    Maintains P (get >>= f) :=
  fun s hs => hf s hs s hs

theorem maintains_lift_bind {x : Checked α} {f : α → Edit σ β} {Q : α → Prop} (hx : x.Safe Q)
    (hf : ∀ a, Q a → Maintains P (f a)) : Maintains P (liftM x >>= f) := by
  intro s hs
  rw [run_lift_bind]
  exact safe_bind hx fun a ha => hf a ha s hs

end Edit

/-- Bounds on the numbers that a program and a database start with. -/
structure Margins where
  db : Database
  /-- No use reaches further into an object. -/
  reach : Nat
  /-- No type, member or struct is larger. -/
  extent : Nat
  reach_lt : reach < extent
  pointer_le : db.pointerSize ≤ extent

/-- The size of the type is within the bounds and depends on no struct that a run creates. -/
def Margins.Sizes (m : Margins) (t : Ty) : Prop :=
  (∀ id ∈ t.embedded?, id.index < m.db.nextId ∧ m.db.structs.contains id = true) ∧
    (TypeStore.sizeOf m.db t).Safe fun size => ∀ k ∈ size, k ≤ m.extent

instance (m : Margins) (t : Ty) : Decidable (m.Sizes t) :=
  inferInstanceAs (Decidable (_ ∧ _))

namespace Ty

/-- A float is named by its width in bits, which has to be a word as well. -/
def Bounded (m : Margins) : Ty → Prop
  | unknown => True
  | void => True
  | int size _ => size ≤ m.extent
  | float size => size ≤ m.extent ∧ size * 8 < Word.bound
  | pointer t => t.Bounded m
  | array t length => t.Bounded m ∧ m.Sizes (array t length)
  | struct _ => True

instance decidableBounded (m : Margins) : (t : Ty) → Decidable (t.Bounded m)
  | unknown => .isTrue trivial
  | void => .isTrue trivial
  | int size _ => inferInstanceAs (Decidable (size ≤ m.extent))
  | float size => inferInstanceAs (Decidable (size ≤ m.extent ∧ size * 8 < Word.bound))
  | pointer t => decidableBounded m t
  | array t length =>
    have := decidableBounded m t
    inferInstanceAs (Decidable (t.Bounded m ∧ m.Sizes (array t length)))
  | struct _ => .isTrue trivial

variable {m : Margins} {t u : Ty}

theorem Bounded.object (h : t.Bounded m) (hu : t.object? = some u) : u.Bounded m := by
  cases t with
  | pointer target =>
    cases hu
    exact h
  | array element length =>
    cases hu
    exact h.1
  | _ => cases hu

theorem Bounded.pointee (h : t.Bounded m) (hu : t.pointee? = some u) : u.Bounded m := by
  cases t with
  | pointer target =>
    cases hu
    exact h
  | _ => cases hu

theorem inRange_floatName {size : Nat} (h : size * 8 < Word.bound) : (floatName size).InRange := by
  unfold floatName
  split
  · exact stops_pure _
  · exact stops_pure _
  · exact stops_pure _
  · exact stops_bind (Word.safe_mul h).inRange fun _ _ => stops_pure _

theorem Bounded.inRange_renderWith (h : t.Bounded m) (name : StructId → String) :
    (t.renderWith name).InRange := by
  induction t with
  | float size => exact inRange_floatName h.2
  | pointer t ih => exact stops_bind (ih h) fun _ _ => stops_pure _
  | array t length ih =>
    cases length with
    | none => exact stops_bind (ih h.1) fun _ _ => stops_pure _
    | some n => exact stops_bind (ih h.1) fun _ _ => stops_pure _
  | _ => exact stops_pure _

end Ty

theorem mem_distinctTypes {t : Ty} {ts : List Ty} : t ∈ distinctTypes ts ↔ t ∈ ts := by
  have hseen : ∀ seen : List Ty, t ∈ ts.foldl (fun seen t => if t ∈ seen then seen else seen ++ [t])
      seen ↔ t ∈ seen ∨ t ∈ ts := by
    induction ts with
    | nil => simp
    | cons u rest ih =>
      intro seen
      rw [List.foldl_cons, ih, List.mem_cons]
      split
      case isTrue hu =>
        constructor
        · exact Or.imp_right .inr
        · rintro (h | rfl | h)
          · exact .inl h
          · exact .inl hu
          · exact .inr h
      case isFalse => rw [List.mem_append, List.mem_singleton, or_assoc]
  simpa [distinctTypes] using hseen []

namespace Expr

mutual

/-- The types that an expression mentions, with an integer type for each number. -/
def types : Expr → List Ty
  | slot _ => []
  | global _ => []
  | addressOf inner => inner.types
  | num _ size => [.uint size]
  | call callee args => callee.types ++ typesAll args
  | cast inner type => type :: inner.types
  | helper _ => []
  | other _ => []

def typesAll : List Expr → List Ty
  | [] => []
  | e :: rest => e.types ++ typesAll rest

end

/-- All numbers in an expression are within the bounds. -/
def Bounded (m : Margins) (e : Expr) : Prop := ∀ t ∈ e.types, t.Bounded m

instance (m : Margins) (e : Expr) : Decidable (e.Bounded m) :=
  inferInstanceAs (Decidable (∀ t ∈ e.types, t.Bounded m))

variable {m : Margins}

mutual

theorem inRange_text (e : Expr) (h : ∀ t ∈ e.types, t.Bounded m) : e.text.InRange :=
  match e with
  | slot _ => stops_pure _
  | global _ => stops_pure _
  | addressOf inner => stops_bind (inRange_text inner h) fun _ _ => stops_pure _
  | num _ _ => stops_pure _
  | call callee args =>
    stops_bind (inRange_text callee fun t ht => h t (List.mem_append_left _ ht)) fun _ _ =>
      stops_bind (inRange_textAll args fun t ht => h t (List.mem_append_right _ ht)) fun _ _ =>
        stops_pure _
  | cast inner type =>
    stops_bind ((h type (List.mem_cons_self ..)).inRange_renderWith _) fun _ _ =>
      stops_bind (inRange_text inner fun t ht => h t (List.mem_cons_of_mem _ ht)) fun _ _ =>
        stops_pure _
  | helper _ => stops_pure _
  | other _ => stops_pure _

theorem inRange_textAll (es : List Expr) (h : ∀ t ∈ typesAll es, t.Bounded m) :
    (textAll es).InRange :=
  match es with
  | [] => stops_pure _
  | e :: rest =>
    stops_bind (inRange_text e fun t ht => h t (List.mem_append_left _ ht)) fun _ _ =>
      stops_bind (inRange_textAll rest fun t ht => h t (List.mem_append_right _ ht)) fun _ _ =>
        stops_pure _

end

theorem Bounded.stripCasts {e : Expr} (h : e.Bounded m) : e.stripCasts.Bounded m := by
  induction e using stripCasts.induct with
  | case1 inner type ih =>
    rw [Expr.stripCasts]
    exact ih fun t ht => h t (List.mem_cons_of_mem _ ht)
  | case2 e hcast =>
    rw [Expr.stripCasts]
    · exact h
    · exact hcast

end Expr

/-- A member that stands under the key `a` and lies within the first `n` bytes. -/
@[mk_iff]
structure Member.Bounded (m : Margins) (n a : Nat) (k : Member) : Prop where
  start : k.offset ≤ a
  stop : a + k.width ≤ n
  type : k.type.Bounded m

/-- All of a struct lies within the first `n` bytes. -/
@[mk_iff]
structure Layout.Bounded (m : Margins) (n : Nat) (l : Layout) : Prop where
  size : l.size ≤ n
  members : ∀ e ∈ l.members.entries, e.2.Bounded m n e.1

instance (m : Margins) (n a : Nat) (k : Member) : Decidable (k.Bounded m n a) :=
  decidable_of_iff' _ (Member.bounded_iff m n a k)

instance (m : Margins) (n : Nat) (l : Layout) : Decidable (l.Bounded m n) :=
  decidable_of_iff' _ (Layout.bounded_iff m n l)

theorem Member.Bounded.mono {m : Margins} {n n' a : Nat} {k : Member} (h : k.Bounded m n a)
    (hn : n ≤ n') : k.Bounded m n' a :=
  ⟨h.start, Nat.le_trans h.stop hn, h.type⟩

namespace Layout

variable {m : Margins} {n offset size : Nat} {l : Layout} {type : Ty}

theorem Bounded.member (h : l.Bounded m n) {a : Nat} {k : Member}
    (hk : l.members.get? a = some k) : k.Bounded m n a :=
  h.members (a, k) (Table.get?_eq_some_iff.1 hk)

theorem Bounded.mono (h : l.Bounded m n) {n' : Nat} (hn : n ≤ n') : l.Bounded m n' :=
  ⟨Nat.le_trans h.size hn, fun e he => (h.members e he).mono hn⟩

theorem Bounded.of_members (hsize : l.size ≤ n)
    (h : ∀ {a k}, l.members.get? a = some k → k.Bounded m n a) : l.Bounded m n :=
  ⟨hsize, fun _ he => h (Table.get?_eq_some_iff.2 he)⟩

theorem Bounded.insert (h : l.Bounded m n) {a : Nat} {k : Member} (hk : k.Bounded m n a)
    (hsize : size ≤ n) : Bounded m n { l with members := l.members.insert a k, size } := by
  refine .of_members hsize fun {b k'} hb => ?_
  rcases Table.eq_or_of_get?_insert hb with ⟨rfl, rfl⟩ | hb
  · exact hk
  · exact h.member hb

theorem Bounded.erase (h : l.Bounded m n) (a : Nat) :
    Bounded m n { l with members := l.members.erase a } := by
  refine .of_members h.size fun {b k} hb => ?_
  rw [Table.get?_erase] at hb
  split at hb
  · cases hb
  · exact h.member hb

theorem bounded_byte {k : Member} (hk : k.offset = offset) (hwidth : k.width = 1)
    (htype : k.type.Bounded m) (h : offset < n) : k.Bounded m n offset :=
  ⟨Nat.le_of_eq hk, by omega, htype⟩

variable (hn : n < Word.bound)
include hn

theorem Bounded.safe_memberAt (h : l.Bounded m n) (offset : Nat) :
    (l.memberAt offset).Safe fun found => ∀ k ∈ found, k.offset ≤ offset ∧
      ∃ a, l.members.get? a = some k := by
  unfold memberAt
  split
  · exact safe_none
  case h_2 a k hfloor =>
    obtain ⟨hk, hle, _⟩ := Table.of_floor?_eq_some hfloor
    have hbounded := h.member hk
    have hstart := hbounded.start
    have hstop := hbounded.stop
    refine safe_bind (Word.safe_add (by omega)) fun stop _ => ?_
    split
    · exact safe_some ⟨by omega, a, hk⟩
    · exact safe_none

theorem Bounded.inRange_covers (h : l.Bounded m n) (offset : Nat) : (l.covers offset).InRange :=
  stops_bind (h.safe_memberAt hn offset).inRange fun _ _ => stops_pure _

theorem Bounded.inRange_isTrailingSentinel (h : l.Bounded m n) (offset : Nat) :
    (l.isTrailingSentinel offset).InRange := by
  unfold isTrailingSentinel
  split
  · exact stops_pure _
  case h_2 k hk =>
    have hstop := (h.member hk).stop
    have hpos := k.width_pos
    split
    · exact stops_bind (Word.safe_add (by omega)).inRange fun _ _ => stops_pure _
    · exact stops_pure _

theorem maintains_addMember (hoffset : offset < n) :
    (addMember offset).Maintains (Bounded m n) := by
  refine Edit.maintains_get_bind fun l hl => ?_
  refine Edit.maintains_lift_bind (safe_of_inRange (hl.inRange_covers hn offset)) fun covered _ => ?_
  cases covered with
  | true => exact Edit.maintains_pure _
  | false =>
    refine Edit.maintains_lift_bind (Word.safe_add (by omega)) fun stop hstop => ?_
    have hsize := hl.size
    refine Edit.maintains_bind (Edit.maintains_set ?_) fun _ => Edit.maintains_pure _
    exact hl.insert (bounded_byte rfl rfl trivial hoffset) (by omega)

theorem maintains_clearFor (hfit : offset + size ≤ n) :
    (clearFor offset size).Maintains (Bounded m n) := by
  refine Edit.maintains_get_bind fun l hl => ?_
  cases l.nextMember offset with
  | none => exact Edit.maintains_pure _
  | some next =>
    refine Edit.maintains_lift_bind (Word.safe_add (by omega)) fun stop _ => ?_
    split
    · exact Edit.maintains_pure _
    · have hsentinel := hl.inRange_isTrailingSentinel hn next
      refine Edit.maintains_lift_bind (safe_of_inRange hsentinel) fun sentinel _ => ?_
      cases sentinel with
      | true => exact Edit.maintains_set (hl.erase next)
      | false => exact Edit.maintains_throw _

omit hn in
theorem Bounded.retype (h : l.Bounded m n) (htype : type.Bounded m)
    (hfit : offset + Nat.max size 1 ≤ n) : (l.retype offset type size).Bounded m n := by
  unfold Layout.retype
  split
  case h_1 k hk => exact h.insert ⟨(h.member hk).start, hfit, htype⟩ h.size
  case h_2 => exact h

theorem maintains_setMemberType (htype : type.Bounded m) (hfit : offset + Nat.max size 1 ≤ n) :
    (setMemberType offset type size).Maintains (Bounded m n) := by
  have hsize : offset + size ≤ n := Nat.le_trans (Nat.add_le_add_left (Nat.le_max_left _ _) _) hfit
  refine Edit.maintains_get_bind fun l hl => ?_
  have hstart : (l.memberStart offset).InRange :=
    stops_bind (hl.safe_memberAt hn offset).inRange fun _ _ => stops_pure _
  refine Edit.maintains_lift_bind (safe_of_inRange hstart) fun start _ => ?_
  cases start with
  | none => exact Edit.maintains_throw _
  | some start =>
    dsimp only
    split
    · refine Edit.maintains_bind (maintains_clearFor hn hsize) fun _ => ?_
      refine Edit.maintains_bind (Edit.maintains_modify fun l hl => ?_) fun _ => ?_
      · exact hl.retype htype hfit
      refine Edit.maintains_lift_bind (Word.safe_add (by omega)) fun stop hstop => ?_
      refine Edit.maintains_modify fun l hl => ?_
      exact ⟨Nat.max_le.2 ⟨hl.size, by omega⟩, hl.members⟩
    · exact Edit.maintains_throw _

theorem maintains_maximizeSize (hsize : size ≤ n) :
    (maximizeSize size).Maintains (Bounded m n) := by
  refine Edit.maintains_get_bind fun l hl => ?_
  split
  · exact Edit.maintains_pure _
  case isFalse hlarger =>
    refine Edit.maintains_lift_bind (safe_of_inRange (hl.inRange_covers hn _)) fun covered _ => ?_
    refine Edit.maintains_bind (Edit.maintains_set ?_) fun _ => Edit.maintains_pure _
    cases covered with
    | true => exact ⟨hsize, hl.members⟩
    | false =>
      have hextent := m.reach_lt
      exact hl.insert (bounded_byte rfl rfl (show (1 : Nat) ≤ m.extent by omega) (by omega)) hsize

end Layout

/-- The structs of an overlay lie within `n` bytes and its ids below `top`. Those that were there at
the start and behind the counter are still the same. -/
structure Overlay.Bounded (m : Margins) (n top : Nat) (o : Overlay) : Prop where
  extent : m.extent ≤ n
  pointer : o.inner.pointerSize = m.db.pointerSize
  counter : m.db.nextId ≤ o.inner.nextId
  next : o.next ≤ top
  settled : ∀ {id l}, m.db.structs.get? id = some l → id.index < m.db.nextId →
    o.layout? id = some l ∧ o.isProvisional id = false
  layout : ∀ {id l}, o.layout? id = some l → l.Bounded m n
  declared : ∀ {var t}, TypeStore.declared? o var = some t → t.Bounded m

namespace Overlay

variable {m : Margins} {n top : Nat} {o : Overlay} {id : StructId} {t : Ty}

theorem Bounded.mono (h : o.Bounded m n top) {n' : Nat} (hn : n ≤ n') : o.Bounded m n' top where
  extent := Nat.le_trans h.extent hn
  pointer := h.pointer
  counter := h.counter
  next := h.next
  settled := h.settled
  layout hl := (h.layout hl).mono hn
  declared := h.declared

theorem Bounded.declared_getD (h : o.Bounded m n top) (var : Variable) :
    ((TypeStore.declared? o var).getD .unknown).Bounded m := by
  cases hdeclared : TypeStore.declared? o var with
  | none => exact trivial
  | some t => exact h.declared hdeclared

theorem Bounded.safe_sizeOf (h : o.Bounded m n top) (ht : t.Bounded m) :
    (TypeStore.sizeOf o t).Safe fun size => ∀ k ∈ size, k ≤ n := by
  cases t with
  | unknown | void => exact safe_none
  | int size signed => exact safe_some (Nat.le_trans ht h.extent)
  | float size => exact safe_some (Nat.le_trans ht.1 h.extent)
  | pointer target =>
    have hpointer : TypeStore.pointerSize o = m.db.pointerSize := h.pointer
    refine safe_some ?_
    rw [hpointer]
    exact Nat.le_trans m.pointer_le h.extent
  | array element length =>
    -- a length multiplies the size of a struct, so only structs that keep their size may be elements
    obtain ⟨_, hsettled, hsize⟩ := ht
    have hpointer : TypeStore.pointerSize o = TypeStore.pointerSize m.db := h.pointer
    have hsame : TypeStore.sizeOf o (.array element length) =
        TypeStore.sizeOf m.db (.array element length) := by
      unfold TypeStore.sizeOf
      rw [hpointer]
      apply Ty.sizeWith_congr
      intro id hid
      obtain ⟨hlt, hin⟩ := hsettled id hid
      obtain ⟨l, hl⟩ := Table.contains_iff.1 hin
      have hlayout : TypeStore.layout? o id = TypeStore.layout? m.db id :=
        (h.settled hl hlt).1.trans hl.symm
      rw [hlayout]
    rw [hsame]
    exact hsize.imp fun size hle k hk => Nat.le_trans (hle k hk) h.extent
  | struct id =>
    apply safe_pure
    intro k hk
    obtain ⟨l, hl, rfl⟩ := Option.map_eq_some_iff.1 hk
    exact (h.layout hl).size

theorem Bounded.setLayout (h : o.Bounded m n top) {l l' : Layout} (hid : o.isProvisional id = true)
    (hl : o.layout? id = some l) (hl' : l'.Bounded m n) :
    Bounded m n top (TypeStore.setLayout o id l') where
  extent := h.extent
  pointer := h.pointer
  counter := h.counter
  next := h.next
  settled {id' k} hk hlt := by
    obtain ⟨hlayout, hold⟩ := h.settled hk hlt
    have hne : id' ≠ id := by
      rintro rfl
      rw [hid] at hold
      cases hold
    rw [layout?_setLayout hl, if_neg hne]
    exact ⟨hlayout, hold⟩
  layout {id' k} hk := by
    rw [layout?_setLayout hl] at hk
    split at hk
    · cases hk
      exact hl'
    · exact h.layout hk
  declared := h.declared

theorem safe_editLayout (h : o.Bounded m n top) (hid : o.isProvisional id = true)
    {change : Edit Layout α} (hchange : change.Maintains (Layout.Bounded m n)) :
    ((TypeStore.editLayout id change : Edit Overlay α).run.run o).Safe fun p =>
      p.2.Bounded m n top := by
  rw [TypeStore.run_editLayout]
  split
  · exact safe_pure h
  case h_2 l hl =>
    exact safe_bind (hchange l (h.layout hl)) fun p hp => safe_pure (h.setLayout hid hl hp)

theorem maintains_provisional {change : Edit Layout α}
    (hchange : change.Maintains (Layout.Bounded m n)) :
    (provisional id (TypeStore.editLayout id change)).Maintains (Bounded m n top) := by
  intro o ho
  rw [provisional, Edit.run_get_bind]
  split
  case isTrue hid => exact safe_editLayout ho hid hchange
  case isFalse => exact safe_pure ho

/-- A member is given a type. It may then reach past all that was there, but no further than it
starts. -/
theorem Bounded.safe_setMemberType (h : o.Bounded m n top) (hn : n + m.reach < Word.bound)
    {offset : Nat} (hoffset : offset ≤ m.reach) (ht : t.Bounded m) :
    ((provisional id (TypeStore.setMemberType id offset t)).run.run o).Safe fun p =>
      p.2.Bounded m (n + m.reach) top := by
  have hwider : o.Bounded m (n + m.reach) top := h.mono (Nat.le_add_right _ _)
  rw [provisional, Edit.run_get_bind]
  split
  case isFalse => exact safe_pure hwider
  case isTrue hid =>
    rw [TypeStore.run_setMemberType]
    split
    case isFalse => exact safe_pure hwider
    case isTrue =>
      refine safe_bind (h.safe_sizeOf ht) fun size hsize => ?_
      cases size with
      | none =>
        exact safe_bind (safe_of_inRange (ht.inRange_renderWith _)) fun _ _ => safe_pure hwider
      | some size =>
        have hle := hsize size rfl
        have hextent := h.extent
        have hreach := m.reach_lt
        refine safe_editLayout hwider hid (Layout.maintains_setMemberType hn ht ?_)
        have hmax : Nat.max size 1 ≤ n := Nat.max_le.2 ⟨hle, by omega⟩
        omega

theorem Bounded.create (h : o.Bounded m n top) (name : String) : Bounded m n (top + 1) { o with
    nextId := o.next + 1
    structs := o.structs.insert ⟨o.next⟩ { id := ⟨o.next⟩, name }
    created := o.created.add ⟨o.next⟩ } := by
  have hinner : o.inner.nextId ≤ o.next := Nat.le_max_right _ _
  have hnext := h.next
  refine ⟨h.extent, h.pointer, h.counter, ?_, ?_, ?_, h.declared⟩
  · exact Nat.max_le.2 ⟨Nat.succ_le_succ hnext, Nat.le_trans hinner (Nat.le_succ_of_le hnext)⟩
  · intro id l hl hlt
    obtain ⟨hlayout, hold⟩ := h.settled hl hlt
    -- the counter has not fallen since the start, so the new id is ahead of the old structs
    have hne : id ≠ ⟨o.next⟩ := by
      rintro rfl
      have hcounter := h.counter
      dsimp only at hlt
      omega
    refine ⟨?_, ?_⟩
    · simp only [layout?, Table.get?_insert_of_ne _ hne]
      exact hlayout
    · simp only [isProvisional, KeySet.contains_add, hne, decide_false, Bool.false_or]
      exact hold
  · intro id l hl
    by_cases hid : id = ⟨o.next⟩
    · simp only [layout?, hid, Table.get?_insert_self] at hl
      split at hl
      · cases hl
      · cases hl
        exact ⟨Nat.zero_le _, fun _ he => absurd he List.not_mem_nil⟩
    · simp only [layout?, Table.get?_insert_of_ne _ hid] at hl
      exact h.layout hl

end Overlay

namespace Merge

variable {m : Margins} {n top offset size : Nat} {l : Layout} (hn : n + m.reach < Word.bound)
include hn

theorem inRange_obstacle (hl : l.Bounded m n) (hoffset : offset ≤ m.reach) (hsize : size ≤ n) :
    (obstacle l offset size).InRange := by
  unfold obstacle
  split
  · exact stops_pure _
  · refine stops_bind (Word.safe_add (by omega)).inRange fun _ _ => ?_
    split
    · exact stops_pure _
    · exact stops_bind (hl.inRange_isTrailingSentinel (by omega) _) fun _ _ => stops_pure _

theorem inRange_enclosing (hl : l.Bounded m n) : (enclosing l offset size).InRange := by
  have hat := hl.safe_memberAt (by omega) offset
  refine stops_bind hat.inRange fun found hfound => ?_
  cases found with
  | none => exact stops_pure _
  | some k =>
    have hstart := (hat.of_ok hfound k rfl).1
    dsimp only
    split
    · exact stops_pure _
    · split
      · exact stops_bind (Word.safe_sub hstart).inRange fun _ _ => stops_pure _
      · exact stops_pure _

theorem inRange_plan {o : Overlay} (ho : o.Bounded m n top) {id : StructId} {type : Ty}
    (hoffset : offset ≤ m.reach) (htype : type.Bounded m) : (plan o id offset type).InRange := by
  unfold plan
  split
  · exact stops_pure _
  · have hsizeOf := ho.safe_sizeOf htype
    refine stops_bind hsizeOf.inRange fun found hfound => ?_
    split
    case h_2 => exact stops_pure _
    case h_1 size l hl =>
      split
      · exact stops_pure _
      · have hsize := hsizeOf.of_ok hfound size rfl
        refine stops_bind (inRange_obstacle hn (ho.layout hl) hoffset hsize) fun next _ => ?_
        cases next with
        | some next => exact stops_bind (htype.inRange_renderWith _) fun _ _ => stops_pure _
        | none =>
          refine stops_bind (inRange_enclosing hn (ho.layout hl)) fun found _ => ?_
          cases found with
          | some nested => exact stops_pure _
          | none => exact stops_pure _

end Merge

/-- A use reaches no further into an object than the bounds allow. -/
def Chain.Bounded (m : Margins) (chain : Chain) : Prop := ∀ k ∈ chain.pointerOffset?, k ≤ m.reach

instance (m : Margins) (chain : Chain) : Decidable (Chain.Bounded m chain) :=
  inferInstanceAs (Decidable (∀ k ∈ chain.pointerOffset?, k ≤ m.reach))

/-- Uses whose chains and types are within the bounds. -/
structure Uses.Bounded (m : Margins) (u : Uses) : Prop where
  reads : ∀ r ∈ u.reads, Chain.Bounded m r.chain
  writes : ∀ w ∈ u.writes, Chain.Bounded m w.chain ∧ w.valueType.Bounded m
  casts : ∀ k ∈ u.casts, Chain.Bounded m k.chain ∧ k.argType.Bounded m

namespace Verdict

/-- What a verdict gives, for uses that are within the bounds. A new struct needs some use. -/
def Bounded (m : Margins) (u : Uses) : Verdict → Prop
  | type t => t.Bounded m
  | unknown _ => True
  | newStruct => 0 < u.size

variable {m : Margins} {n top : Nat} {o : Overlay} {u : Uses} {t : Ty}

theorem inRange_writeOutside (ho : o.Bounded m n top) (hn : n + m.reach < Word.bound) (limit : Nat)
    {writes : List Write}
    (h : ∀ w ∈ writes, Chain.Bounded m w.chain ∧ w.valueType.Bounded m) :
    (writeOutside o limit writes).InRange := by
  induction writes with
  | nil => exact stops_pure _
  | cons w rest ih =>
    have hrest := ih fun w' hw' => h w' (List.mem_cons_of_mem _ hw')
    obtain ⟨hchain, htype⟩ := h w (List.mem_cons_self ..)
    unfold writeOutside
    split
    · exact hrest
    case h_2 start hstart =>
      have hsizeOf := ho.safe_sizeOf htype
      refine stops_bind hsizeOf.inRange fun size hsize => ?_
      have hreach := hchain start hstart
      have hbound : max (size.getD 1) 1 ≤ n := by
        have hextent := ho.extent
        have hpos := m.reach_lt
        cases size with
        | none => simp only [Option.getD_none]; omega
        | some size =>
          have hle := hsizeOf.of_ok hsize size rfl
          simp only [Option.getD_some]
          omega
      refine stops_bind (Word.safe_add (by omega)).inRange fun _ _ => ?_
      split
      · exact stops_pure _
      · exact hrest

theorem safe_ofCastAndWrites (ho : o.Bounded m n top) (hn : n + m.reach < Word.bound)
    (ht : t.Bounded m) {writes : List Write}
    (h : ∀ w ∈ writes, Chain.Bounded m w.chain ∧ w.valueType.Bounded m) :
    (ofCastAndWrites o t writes).Safe (Bounded m u) := by
  have htarget : (t.pointee?.getD t).Bounded m := by
    cases hp : t.pointee? with
    | none => exact ht
    | some target => exact ht.pointee hp
  have hrender : (TypeStore.render o (t.pointee?.getD t)).Safe fun _ => True :=
    safe_of_inRange (htarget.inRange_renderWith _)
  refine safe_bind (ho.safe_sizeOf htarget) fun size _ => ?_
  cases size with
  | none => exact safe_bind hrender fun _ _ => safe_pure trivial
  | some limit =>
    refine safe_bind (safe_of_inRange (inRange_writeOutside ho hn limit h)) fun outside _ => ?_
    cases outside with
    | some w => exact safe_bind hrender fun _ _ => safe_pure trivial
    | none => exact safe_pure htarget

theorem safe_ofPointer (ho : o.Bounded m n top) (hn : n + m.reach < Word.bound) (hu : u.Bounded m)
    (hsize : 0 < u.size) : (ofPointer o u).Safe (Bounded m u) := by
  unfold ofPointer
  split
  case h_1 w _ hwrites _ =>
    have hw := (hu.writes w (by simp [hwrites])).2
    split
    · apply safe_pure
      split
      · exact trivial
      · exact hw
    · exact safe_pure hsize
  case h_2 k hcasts =>
    have hk := (hu.casts k (by simp [hcasts])).2
    split
    · split
      · exact safe_pure hk
      · split
        · exact safe_ofCastAndWrites ho hn hk hu.writes
        · exact safe_pure hsize
    · exact safe_pure hsize
  case h_3 => exact safe_pure hsize

theorem bounded_ofAssigns {assigns : List Write} (h : ∀ w ∈ assigns, w.valueType.Bounded m) :
    (ofAssigns assigns).Bounded m u := by
  unfold ofAssigns
  split
  · exact h _ (by simp)
  · dsimp only
    split
    case h_1 t ht =>
      have hmem : t ∈ distinctTypes ((assigns.map (·.valueType)).filter Ty.bearsStruct) := by
        simp [ht]
      obtain ⟨hmem, _⟩ := List.mem_filter.1 (mem_distinctTypes.1 hmem)
      obtain ⟨w, hw, rfl⟩ := List.mem_map.1 hmem
      exact h w hw
    case h_2 => exact trivial

theorem safe_ofUses (ho : o.Bounded m n top) (hn : n + m.reach < Word.bound) (hu : u.Bounded m) :
    (ofUses o u).Safe (Bounded m u) := by
  unfold ofUses
  split
  · exact safe_pure trivial
  case isFalse hempty =>
    have hsize : 0 < u.size := by
      simp only [Uses.isEmpty, beq_iff_eq] at hempty
      omega
    split
    · refine safe_pure (bounded_ofAssigns fun w hw => ?_)
      exact (hu.writes w (List.mem_filter.1 hw).1).2
    · split
      · exact safe_pure trivial
      · dsimp only
        split
        · refine safe_bind (safe_of_inRange (Checked.stops_mapM fun t ht => ?_)) fun _ _ =>
            safe_pure trivial
          obtain ⟨hmem, _⟩ := List.mem_filter.1 (mem_distinctTypes.1 ht)
          obtain ⟨k, hk, rfl⟩ := List.mem_map.1 hmem
          exact (hu.casts k (List.mem_filter.1 hk).1).2.inRange_renderWith _
        · exact safe_ofPointer ho hn hu hsize

end Verdict

section Walks

variable {m : Margins} {n top : Nat} {o : Overlay} (ho : o.Bounded m n top) (hn : n < Word.bound)
include ho hn

theorem safe_memberStartingWithin (fuel : Nat) (id : StructId) (offset : Nat) :
    (memberStartingWithin o fuel id offset).run.Safe fun found =>
      ∀ target ∈ found, target.2.Bounded m := by
  induction fuel generalizing id offset with
  | zero => exact trivial
  | succ fuel ih =>
    refine safe_optionBind (P := fun l => l.Bounded m n) ?_ fun l hl => ?_
    · exact safe_pure fun l hl => ho.layout hl
    refine safe_optionBind (hl.safe_memberAt hn offset) fun k hk => ?_
    obtain ⟨hstart, a, hmember⟩ := hk
    split
    · exact safe_some (hl.member hmember).type
    · refine safe_optionBind (P := fun _ => True) (safe_pure fun _ _ => trivial) fun nested _ => ?_
      refine safe_optionBind (P := fun _ => True) ?_ fun lower _ => ih nested lower
      exact safe_bind (Word.safe_sub hstart) fun _ _ => safe_some trivial

theorem Cursor.safe_step {c : Cursor} (hc : c.type.Bounded m) (step : UseStep) :
    (c.step o step).run.Safe fun found => ∀ next ∈ found, next.type.Bounded m := by
  cases step with
  | add k =>
    apply safe_pure
    intro next hnext
    simp only [Cursor.add] at hnext
    split at hnext
    · cases hnext
      exact hc
    · cases hnext
  | addressOf =>
    apply safe_pure
    intro next hnext
    simp only [Cursor.addressOf] at hnext
    split at hnext
    · cases hnext
      exact hc
    · cases hnext
  | deref =>
    refine safe_optionBind (P := fun target => target.Bounded m) ?_ fun target htarget => ?_
    · exact safe_pure fun _ h => hc.object h
    dsimp only
    by_cases hpending : c.pending < 0
    · simp only [hpending, if_true]
      split
      · exact safe_none
      · exact safe_none
    · simp only [hpending, if_false]
      split
      · refine safe_optionBind (safe_memberStartingWithin ho hn _ _ _) fun found hfound => ?_
        exact safe_some hfound
      · refine safe_optionBind (ho.safe_sizeOf htarget) fun size _ => ?_
        split
        · exact safe_none
        · exact safe_some htarget

/-- A walk over structs within the bounds does not overflow, and ends at a type within them. -/
theorem Chain.safe_walk (chain : Chain) {start : Ty} (hstart : start.Bounded m) :
    (chain.walk o start).run.Safe fun found => ∀ target ∈ found, target.type.Bounded m := by
  refine safe_optionBind (P := fun c => c.type.Bounded m) ?_ fun c hc => ?_
  · have hcursor : ({ type := start } : Cursor).type.Bounded m := hstart
    generalize ({ type := start } : Cursor) = cursor at hcursor
    induction chain generalizing cursor with
    | nil => exact safe_some hcursor
    | cons step rest ih =>
      rw [List.foldlM_cons]
      exact safe_optionBind (Cursor.safe_step ho hn hcursor step) fun next hnext => ih next hnext
  · unfold Cursor.finish
    split
    · exact safe_some hc
    · split
      · exact safe_none
      · refine safe_optionBind (P := fun _ => True) (safe_pure fun _ _ => trivial) fun id _ => ?_
        refine safe_optionBind (safe_memberStartingWithin ho hn _ _ _) fun found hfound => ?_
        exact safe_some hfound

theorem inRange_targetOfOrigin (c : Context) {r : Run} (hr : r.db = o)
    (hvars : ∀ var, (r.varType var).Bounded m) (origin : Option PointerOrigin) :
    (targetOfOrigin c r origin).Safe fun found =>
      ∀ failure, found = .error failure → (failure.message o).InRange := by
  subst hr
  cases origin with
  | none =>
    apply safe_pure
    rintro _ ⟨⟩
    exact stops_pure _
  | some origin =>
    unfold targetOfOrigin
    dsimp only
    split
    · apply safe_pure
      rintro _ ⟨⟩
      exact stops_pure _
    · refine safe_bind (Chain.safe_walk ho hn _ (hvars _)) fun target _ => ?_
      split
      · apply safe_pure
        rintro _ ⟨⟩
        exact stops_bind ((hvars _).inRange_renderWith _) fun _ _ => stops_pure _
      · split
        · apply safe_pure
          rintro _ ⟨⟩
          exact stops_pure _
        · apply safe_pure
          intro failure hfailure
          split at hfailure
          · cases hfailure
          · cases hfailure
            exact stops_pure _

end Walks
end TypeRecovery
