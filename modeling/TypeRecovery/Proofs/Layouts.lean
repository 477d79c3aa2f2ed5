import TypeRecovery.Layout
import TypeRecovery.Proofs.Edits
import TypeRecovery.Proofs.Tables

/-!
# Layouts under change

A layout is well formed when its members stand under their own offsets, are disjoint and lie inside
the struct, where a placeholder counts as one byte. Every change keeps a layout well formed, never
makes the struct smaller, and leaves the layout alone when it is refused. The case that needs an
argument is the absorbed sentinel: it ends the struct, so no member can follow it.
-/
namespace TypeRecovery
namespace Layout

structure WellFormed (l : Layout) : Prop where
  keyed : ∀ {a m}, l.members.get? a = some m → m.offset = a
  disjoint : ∀ {a b m n}, l.members.get? a = some m → l.members.get? b = some n → a < b →
    a + m.width ≤ b
  inside : ∀ {a m}, l.members.get? a = some m → a + m.width ≤ l.size

end Layout

theorem Member.width_pos (m : Member) : 0 < m.width := by
  unfold width
  omega

namespace Layout

variable {l l' : Layout} {offset size : Nat} {type : Ty}

theorem memberAt_eq_ok {found : Option Member} (h : l.memberAt offset = .ok found) :
    (l.members.floor? offset = none ∧ found = none) ∨
    ∃ a m, l.members.floor? offset = some (a, m) ∧ m.offset + m.width < Word.bound ∧
      found = if offset < m.offset + m.width then some m else none := by
  unfold memberAt at h
  cases hf : l.members.floor? offset with
  | none =>
    simp only [hf, Checked.pure_eq_ok] at h
    exact .inl ⟨rfl, h.symm⟩
  | some e =>
    obtain ⟨a, m⟩ := e
    simp only [hf, Checked.bind_eq_ok, Member.stop, Word.add_eq_ok_iff, Checked.pure_eq_ok] at h
    obtain ⟨stop, ⟨hstop, rfl⟩, rfl⟩ := h
    exact .inr ⟨a, m, rfl, hstop, rfl⟩

theorem WellFormed.stop_le_of_not_covers (hl : l.WellFormed) (h : l.covers offset = .ok false)
    {a : Nat} {m : Member} (ha : l.members.get? a = some m) (hle : a ≤ offset) :
    a + m.width ≤ offset := by
  simp only [covers, Checked.bind_eq_ok, Checked.pure_eq_ok] at h
  obtain ⟨found, hat, hnone⟩ := h
  rcases memberAt_eq_ok hat with ⟨hfloor, _⟩ | ⟨b, n, hfloor, _, rfl⟩
  · have hlt := Table.of_floor?_eq_none hfloor ha
    omega
  · obtain ⟨hb, hbo, hlast⟩ := Table.of_floor?_eq_some hfloor
    have hkey := hl.keyed hb
    have hend : ¬ offset < n.offset + n.width := by
      intro hlt
      simp [hlt] at hnone
    rcases Nat.lt_or_eq_of_le (hlast a m ha hle) with hab | rfl
    · have hdis := hl.disjoint ha hb hab
      omega
    · obtain rfl : m = n := Option.some.inj (ha.symm.trans hb)
      omega

theorem WellFormed.get?_of_memberStart (hl : l.WellFormed)
    (h : l.memberStart offset = .ok (some offset)) :
    ∃ m, l.members.get? offset = some m ∧ offset + m.width < Word.bound := by
  simp only [memberStart, Checked.bind_eq_ok, Checked.pure_eq_ok, Option.map_eq_some_iff] at h
  obtain ⟨found, hat, m, rfl, hm⟩ := h
  rcases memberAt_eq_ok hat with ⟨_, hfound⟩ | ⟨a, n, hfloor, hword, hfound⟩
  · cases hfound
  · have hmn : m = n := by
      split at hfound
      · exact Option.some.inj hfound
      · cases hfound
    subst hmn
    obtain ⟨ha, _, _⟩ := Table.of_floor?_eq_some hfloor
    have hkey := hl.keyed ha
    obtain rfl : offset = a := hm.symm.trans hkey
    exact ⟨m, ha, by rwa [hkey] at hword⟩

theorem of_nextMember_eq_none (h : l.nextMember offset = none) (hword : offset < Word.max)
    {b : Nat} {n : Member} (hb : l.members.get? b = some n) : b ≤ offset := by
  have hnone : l.members.ceil? (Word.next offset) = none := by simpa [nextMember] using h
  have hlt := Table.of_ceil?_eq_none hnone hb
  unfold Word.next at hlt
  omega

theorem of_nextMember_eq_some {next : Nat} (h : l.nextMember offset = some next)
    (hword : offset < Word.max) :
    (∃ n, l.members.get? next = some n) ∧ offset < next ∧
      ∀ {b n}, l.members.get? b = some n → offset < b → next ≤ b := by
  obtain ⟨⟨a, n⟩, hceil, rfl⟩ := Option.map_eq_some_iff.1 h
  obtain ⟨ha, hle, hfirst⟩ := Table.of_ceil?_eq_some hceil
  have hnext : Word.next offset = offset + 1 := by
    unfold Word.next
    omega
  rw [hnext] at hle hfirst
  exact ⟨⟨n, ha⟩, hle, fun {b n} hb hlt => hfirst b n hb hlt⟩

theorem isTrailingSentinel_eq_true (h : l.isTrailingSentinel offset = .ok true) :
    ∃ m, l.members.get? offset = some m ∧ m.size = 1 ∧ offset + 1 = l.size := by
  unfold isTrailingSentinel at h
  cases hm : l.members.get? offset with
  | none => simp [hm, Checked.pure_eq_ok] at h
  | some m =>
    simp only [hm] at h
    split at h
    case isTrue hsize =>
      simp only [Checked.bind_eq_ok, Word.add_eq_ok_iff, Checked.pure_eq_ok] at h
      obtain ⟨stop, ⟨_, rfl⟩, heq⟩ := h
      exact ⟨m, rfl, hsize, by simpa using heq⟩
    case isFalse => simp [Checked.pure_eq_ok] at h

/-- The sentinel that ends a well-formed struct is its last member. -/
theorem WellFormed.le_of_isTrailingSentinel (hl : l.WellFormed) {next : Nat}
    (h : l.isTrailingSentinel next = .ok true) {b : Nat} {n : Member}
    (hb : l.members.get? b = some n) : b ≤ next := by
  obtain ⟨_, _, _, hend⟩ := isTrailingSentinel_eq_true h
  have hin := hl.inside hb
  have hpos := n.width_pos
  omega

theorem addMember_eq_ok {answer : Except Refusal Bool}
    (h : (addMember offset).run.run l = .ok (answer, l')) :
    (answer = .ok false ∧ l.covers offset = .ok true ∧ l' = l) ∨
    (answer = .ok true ∧ l.covers offset = .ok false ∧ offset + 1 < Word.bound ∧ l' = { l with
      members := l.members.insert offset (Member.placeholder offset)
      size := max l.size (offset + 1) }) := by
  simp only [addMember, Edit.run_get_bind, Edit.run_lift_bind, Checked.bind_eq_ok] at h
  obtain ⟨covered, hcovers, h⟩ := h
  cases covered with
  | true =>
    cases h
    exact .inl ⟨rfl, hcovers, rfl⟩
  | false =>
    simp only [Bool.false_eq_true, ↓reduceIte, Edit.run_lift_bind, Checked.bind_eq_ok,
      Word.add_eq_ok_iff] at h
    obtain ⟨stop, ⟨hword, rfl⟩, h⟩ := h
    cases h
    exact .inr ⟨rfl, hcovers, hword, rfl⟩

theorem clearFor_eq_ok {answer : Except Refusal Unit}
    (h : (clearFor offset size).run.run l = .ok (answer, l')) :
    (∃ cause, answer = .error cause ∧ l' = l) ∨
    (answer = .ok () ∧ l' = l ∧ ∀ {next}, l.nextMember offset = some next →
      offset + size ≤ next) ∨
    ∃ next, answer = .ok () ∧ l.nextMember offset = some next ∧ next < offset + size ∧
      l.isTrailingSentinel next = .ok true ∧ l' = { l with members := l.members.erase next } := by
  simp only [clearFor, Edit.run_get_bind] at h
  cases hnext : l.nextMember offset with
  | none =>
    rw [hnext] at h
    cases h
    exact .inr (.inl ⟨rfl, rfl, fun h => nomatch h⟩)
  | some next =>
    simp only [hnext, Edit.run_lift_bind, Checked.bind_eq_ok, Word.add_eq_ok_iff] at h
    obtain ⟨stop, ⟨_, rfl⟩, h⟩ := h
    split at h
    case isTrue hle =>
      cases h
      exact .inr (.inl ⟨rfl, rfl, fun heq => Option.some.inj heq ▸ hle⟩)
    case isFalse hgt =>
      simp only [Edit.run_lift_bind, Checked.bind_eq_ok] at h
      obtain ⟨sentinel, hsentinel, h⟩ := h
      cases sentinel with
      | true =>
        cases h
        exact .inr (.inr ⟨next, rfl, rfl, Nat.lt_of_not_le hgt, hsentinel, rfl⟩)
      | false =>
        cases h
        exact .inl ⟨_, rfl, rfl⟩

theorem setMemberType_eq_ok {answer : Except Refusal Unit}
    (h : (setMemberType offset type size).run.run l = .ok (answer, l')) :
    (∃ cause, answer = .error cause ∧ l' = l) ∨
    (answer = .ok () ∧ l.memberStart offset = .ok (some offset) ∧ offset + size < Word.bound ∧
      ∃ cleared, (clearFor offset size).run.run l = .ok (.ok (), cleared) ∧
        l' = { cleared.retype offset type size with
          size := max (cleared.retype offset type size).size (offset + size) }) := by
  simp only [setMemberType, Edit.run_get_bind, Edit.run_lift_bind, Checked.bind_eq_ok] at h
  obtain ⟨start, hstart, h⟩ := h
  cases start with
  | none =>
    cases h
    exact .inl ⟨_, rfl, rfl⟩
  | some start =>
    simp only at h
    split at h
    case isFalse =>
      cases h
      exact .inl ⟨_, rfl, rfl⟩
    case isTrue heq =>
      subst heq
      rcases Edit.bind_eq_ok.1 h with ⟨cause, hclear, rfl⟩ | ⟨⟨⟩, cleared, hclear, h⟩
      · -- a refusal comes from `clearFor`, which has not touched the layout by then
        rcases clearFor_eq_ok hclear with ⟨_, _, rfl⟩ | ⟨hok, _⟩ | ⟨_, hok, _⟩
        · exact .inl ⟨cause, rfl, rfl⟩
        · cases hok
        · cases hok
      · simp only [Edit.run_modify_bind, Edit.run_lift_bind, Checked.bind_eq_ok,
          Word.add_eq_ok_iff] at h
        obtain ⟨stop, ⟨hword, rfl⟩, h⟩ := h
        cases h
        exact .inr ⟨rfl, hstart, hword, cleared, hclear, rfl⟩

theorem maximizeSize_eq_ok {answer : Except Refusal Bool}
    (h : (maximizeSize size).run.run l = .ok (answer, l')) :
    (answer = .ok false ∧ l' = l) ∨
    (answer = .ok true ∧ l.size < size ∧ (l' = { l with size } ∨ l' = { l with
      members := l.members.insert (size - 1) (Member.sentinel (size - 1)), size })) := by
  simp only [maximizeSize, Edit.run_get_bind] at h
  split at h
  case isTrue =>
    cases h
    exact .inl ⟨rfl, rfl⟩
  case isFalse hlt =>
    simp only [Edit.run_lift_bind, Checked.bind_eq_ok] at h
    obtain ⟨covered, _, h⟩ := h
    cases h
    refine .inr ⟨rfl, Nat.lt_of_not_le hlt, ?_⟩
    cases covered with
    | true => exact .inl rfl
    | false => exact .inr rfl

theorem setMemberComment_eq_ok {comment : String} {answer : Except Refusal Unit}
    (h : (setMemberComment offset comment).run.run l = .ok (answer, l')) :
    (∃ cause, answer = .error cause ∧ l' = l) ∨
    ∃ m, answer = .ok () ∧ l.members.get? offset = some m ∧ l' = { l with
      members := l.members.insert offset { m with comment := some comment } } := by
  simp only [setMemberComment, Edit.run_get_bind] at h
  cases hm : l.members.get? offset with
  | none =>
    rw [hm] at h
    cases h
    exact .inl ⟨_, rfl, rfl⟩
  | some m =>
    rw [hm] at h
    cases h
    exact .inr ⟨m, rfl, rfl, rfl⟩

@[simp] theorem retype_size : (l.retype offset type size).size = l.size := by
  unfold retype
  split <;> rfl

@[simp] theorem retype_id : (l.retype offset type size).id = l.id := by
  unfold retype
  split <;> rfl

theorem addMember_id {answer : Except Refusal Bool}
    (h : (addMember offset).run.run l = .ok (answer, l')) : l'.id = l.id := by
  rcases addMember_eq_ok h with ⟨_, _, rfl⟩ | ⟨_, _, _, rfl⟩ <;> rfl

theorem setMemberType_id {answer : Except Refusal Unit}
    (h : (setMemberType offset type size).run.run l = .ok (answer, l')) : l'.id = l.id := by
  rcases setMemberType_eq_ok h with ⟨_, _, rfl⟩ | ⟨_, _, _, cleared, hclear, rfl⟩
  · rfl
  · rcases clearFor_eq_ok hclear with ⟨_, _, rfl⟩ | ⟨_, rfl, _⟩ | ⟨_, _, _, _, _, rfl⟩ <;> simp

theorem maximizeSize_id {answer : Except Refusal Bool}
    (h : (maximizeSize size).run.run l = .ok (answer, l')) : l'.id = l.id := by
  rcases maximizeSize_eq_ok h with ⟨_, rfl⟩ | ⟨_, _, rfl | rfl⟩ <;> rfl

theorem setMemberComment_id {comment : String} {answer : Except Refusal Unit}
    (h : (setMemberComment offset comment).run.run l = .ok (answer, l')) : l'.id = l.id := by
  rcases setMemberComment_eq_ok h with ⟨_, _, rfl⟩ | ⟨_, _, _, rfl⟩ <;> rfl

theorem wellFormed_empty (id : StructId) (name : String) : WellFormed { id, name } where
  keyed h := nomatch h
  disjoint h := nomatch h
  inside h := nomatch h

theorem WellFormed.insert (hl : l.WellFormed) {m : Member} (hkey : m.offset = offset)
    (hbefore : ∀ {a n}, l.members.get? a = some n → a < offset → a + n.width ≤ offset)
    (hafter : ∀ {b n}, l.members.get? b = some n → offset < b → offset + m.width ≤ b)
    (hsize : l.size ≤ size) (hinside : offset + m.width ≤ size) :
    WellFormed { l with members := l.members.insert offset m, size } where
  keyed {a n} h := by
    simp only [Table.get?_insert] at h
    split at h
    case isTrue heq =>
      cases h
      rw [hkey, heq]
    case isFalse => exact hl.keyed h
  disjoint {a b n k} ha hb hab := by
    simp only [Table.get?_insert] at ha hb
    split at ha
    case isTrue heq =>
      cases ha
      rw [if_neg (by omega)] at hb
      have := hafter hb (by omega)
      omega
    case isFalse =>
      split at hb
      case isTrue heq =>
        have := hbefore ha (by omega)
        omega
      case isFalse => exact hl.disjoint ha hb hab
  inside {a n} h := by
    simp only [Table.get?_insert] at h
    split at h
    case isTrue heq =>
      cases h
      rw [heq]
      exact hinside
    case isFalse =>
      have := hl.inside h
      simp only
      omega

theorem WellFormed.erase (hl : l.WellFormed) (next : Nat) :
    WellFormed { l with members := l.members.erase next } := by
  have hkeep : ∀ {a m}, (l.members.erase next).get? a = some m → l.members.get? a = some m := by
    intro a m h
    rw [Table.get?_erase] at h
    split at h
    · cases h
    · exact h
  exact ⟨fun h => hl.keyed (hkeep h), fun ha hb => hl.disjoint (hkeep ha) (hkeep hb),
    fun h => hl.inside (hkeep h)⟩

theorem WellFormed.grow (hl : l.WellFormed) (h : l.size ≤ size) : WellFormed { l with size } :=
  ⟨hl.keyed, hl.disjoint, fun ha => Nat.le_trans (hl.inside ha) h⟩

theorem WellFormed.retype (hl : l.WellFormed)
    (hroom : ∀ {b n}, l.members.get? b = some n → offset < b → offset + size ≤ b) :
    WellFormed { l.retype offset type size with
      size := max (l.retype offset type size).size (offset + size) } := by
  rw [retype_size]
  unfold Layout.retype
  cases hm : l.members.get? offset with
  | none => exact hl.grow (by omega)
  | some m =>
    have hkey := hl.keyed hm
    have hin := hl.inside hm
    have hpos := m.width_pos
    refine hl.insert hkey ?_ ?_ (by omega) ?_
    · intro a n ha hlt
      exact hl.disjoint ha hm hlt
    · intro b n hb hlt
      have hfit := hroom hb hlt
      simp only [Member.width]
      omega
    · simp only [Member.width]
      omega

theorem WellFormed.addMember (hl : l.WellFormed) {answer : Except Refusal Bool}
    (h : (Layout.addMember offset).run.run l = .ok (answer, l')) : l'.WellFormed := by
  rcases addMember_eq_ok h with ⟨_, _, rfl⟩ | ⟨_, hcovers, _, rfl⟩
  · exact hl
  · refine hl.insert rfl ?_ ?_ (by omega) ?_
    · intro a n ha hlt
      exact hl.stop_le_of_not_covers hcovers ha (Nat.le_of_lt hlt)
    · intro b n _ hlt
      exact hlt
    · simp only [Member.placeholder, Member.width]
      omega

/-- After the room for a member is cleared, the layout is well formed and no member starts in it. -/
theorem WellFormed.clearFor (hl : l.WellFormed) (hword : offset < Word.max)
    (h : (Layout.clearFor offset size).run.run l = .ok (.ok (), l')) :
    l'.WellFormed ∧ l'.size = l.size ∧
      ∀ {b n}, l'.members.get? b = some n → offset < b → offset + size ≤ b := by
  rcases clearFor_eq_ok h with ⟨_, hanswer, _⟩ | ⟨_, rfl, hfits⟩ |
      ⟨next, _, hnext, _, hsentinel, rfl⟩
  · cases hanswer
  · refine ⟨hl, rfl, ?_⟩
    intro b n hb hlt
    cases hnext : l'.nextMember offset with
    | none =>
      have := of_nextMember_eq_none hnext hword hb
      omega
    | some next =>
      have := (of_nextMember_eq_some hnext hword).2.2 hb hlt
      have := hfits hnext
      omega
  · -- nothing stands after the sentinel, so once it is gone nothing stands after the member
    refine ⟨hl.erase next, rfl, ?_⟩
    intro b n hb hlt
    rw [Table.get?_erase] at hb
    split at hb
    · cases hb
    · have := (of_nextMember_eq_some hnext hword).2.2 hb hlt
      have := hl.le_of_isTrailingSentinel hsentinel hb
      omega

theorem WellFormed.setMemberType (hl : l.WellFormed) {answer : Except Refusal Unit}
    (h : (Layout.setMemberType offset type size).run.run l = .ok (answer, l')) :
    l'.WellFormed ∧ l.size ≤ l'.size := by
  rcases setMemberType_eq_ok h with ⟨_, _, rfl⟩ | ⟨_, hstart, _, cleared, hclear, rfl⟩
  · exact ⟨hl, Nat.le_refl _⟩
  · obtain ⟨m, _, hword⟩ := hl.get?_of_memberStart hstart
    have hpos := m.width_pos
    have hmax : Word.bound = Word.max + 1 := rfl
    obtain ⟨hwf, hsize, hroom⟩ := hl.clearFor (by omega) hclear
    refine ⟨hwf.retype hroom, ?_⟩
    simp only [retype_size]
    omega

theorem WellFormed.maximizeSize (hl : l.WellFormed) {answer : Except Refusal Bool}
    (h : (Layout.maximizeSize size).run.run l = .ok (answer, l')) :
    l'.WellFormed ∧ l.size ≤ l'.size := by
  rcases maximizeSize_eq_ok h with ⟨_, rfl⟩ | ⟨_, hlt, rfl | rfl⟩
  · exact ⟨hl, Nat.le_refl _⟩
  · exact ⟨hl.grow (Nat.le_of_lt hlt), Nat.le_of_lt hlt⟩
  · refine ⟨hl.insert rfl ?_ ?_ (Nat.le_of_lt hlt) ?_, Nat.le_of_lt hlt⟩
    · intro a n ha _
      have := hl.inside ha
      omega
    · intro b n hb hltb
      have := hl.inside hb
      have := n.width_pos
      omega
    · simp only [Member.sentinel, Member.width]
      omega

theorem WellFormed.setMemberComment (hl : l.WellFormed) {comment : String}
    {answer : Except Refusal Unit}
    (h : (Layout.setMemberComment offset comment).run.run l = .ok (answer, l')) :
    l'.WellFormed := by
  rcases setMemberComment_eq_ok h with ⟨_, _, rfl⟩ | ⟨m, _, hm, rfl⟩
  · exact hl
  · have hkey := hl.keyed hm
    have hin := hl.inside hm
    refine hl.insert hkey ?_ ?_ (Nat.le_refl _) hin
    · intro a n ha hlt
      exact hl.disjoint ha hm hlt
    · intro b n hb hlt
      have hdis := hl.disjoint hm hb hlt
      exact hdis

end Layout

/-- The ways to change a layout. -/
inductive LayoutEdit where
  | addMember (offset : Nat)
  | setMemberType (offset : Nat) (type : Ty) (size : Nat)
  | maximizeSize (size : Nat)
  | setMemberComment (offset : Nat) (comment : String)
deriving DecidableEq

namespace LayoutEdit

def perform : LayoutEdit → Edit Layout Answer
  | addMember offset => Answer.changed <$> Layout.addMember offset
  | setMemberType offset type size => (fun _ => .done) <$> Layout.setMemberType offset type size
  | maximizeSize size => Answer.changed <$> Layout.maximizeSize size
  | setMemberComment offset comment =>
    (fun _ => .done) <$> Layout.setMemberComment offset comment

variable {e : LayoutEdit} {l l' : Layout} {answer : Except Refusal Answer}

theorem perform_wellFormed (hl : l.WellFormed) (h : e.perform.run.run l = .ok (answer, l')) :
    l'.WellFormed ∧ l.size ≤ l'.size := by
  cases e with
  | addMember offset =>
    obtain ⟨_, hadd, _⟩ := Edit.map_eq_ok.1 h
    refine ⟨hl.addMember hadd, ?_⟩
    rcases Layout.addMember_eq_ok hadd with ⟨_, _, rfl⟩ | ⟨_, _, _, rfl⟩
    · exact Nat.le_refl _
    · exact Nat.le_max_left _ _
  | setMemberType offset type size =>
    obtain ⟨_, hset, _⟩ := Edit.map_eq_ok.1 h
    exact hl.setMemberType hset
  | maximizeSize size =>
    obtain ⟨_, hgrow, _⟩ := Edit.map_eq_ok.1 h
    exact hl.maximizeSize hgrow
  | setMemberComment offset comment =>
    obtain ⟨_, hset, _⟩ := Edit.map_eq_ok.1 h
    refine ⟨hl.setMemberComment hset, ?_⟩
    rcases Layout.setMemberComment_eq_ok hset with ⟨_, _, rfl⟩ | ⟨_, _, _, rfl⟩ <;>
      exact Nat.le_refl _

theorem perform_refused {cause : Refusal} (h : e.perform.run.run l = .ok (.error cause, l')) :
    l' = l := by
  cases e with
  | addMember offset =>
    rcases Layout.addMember_eq_ok (Edit.map_eq_refused.1 h) with ⟨hok, _⟩ | ⟨hok, _⟩ <;> cases hok
  | setMemberType offset type size =>
    rcases Layout.setMemberType_eq_ok (Edit.map_eq_refused.1 h) with ⟨_, _, hl⟩ | ⟨hok, _⟩
    · exact hl
    · cases hok
  | maximizeSize size =>
    rcases Layout.maximizeSize_eq_ok (Edit.map_eq_refused.1 h) with ⟨hok, _⟩ | ⟨hok, _⟩ <;> cases hok
  | setMemberComment offset comment =>
    rcases Layout.setMemberComment_eq_ok (Edit.map_eq_refused.1 h) with ⟨_, _, hl⟩ | ⟨_, hok, _⟩
    · exact hl
    · cases hok

theorem perform_id (h : e.perform.run.run l = .ok (answer, l')) : l'.id = l.id := by
  cases e with
  | addMember offset =>
    obtain ⟨_, hadd, _⟩ := Edit.map_eq_ok.1 h
    exact Layout.addMember_id hadd
  | setMemberType offset type size =>
    obtain ⟨_, hset, _⟩ := Edit.map_eq_ok.1 h
    exact Layout.setMemberType_id hset
  | maximizeSize size =>
    obtain ⟨_, hgrow, _⟩ := Edit.map_eq_ok.1 h
    exact Layout.maximizeSize_id hgrow
  | setMemberComment offset comment =>
    obtain ⟨_, hset, _⟩ := Edit.map_eq_ok.1 h
    exact Layout.setMemberComment_id hset

theorem run_wellFormed {es : List LayoutEdit} {answers : List (Except Refusal Answer)}
    (hl : l.WellFormed) (h : Edit.runAll perform l es = .ok (answers, l')) :
    l'.WellFormed ∧ l.size ≤ l'.size := by
  refine Edit.runAll_induction (P := fun t => t.WellFormed ∧ l.size ≤ t.size) ?_
    ⟨hl, Nat.le_refl _⟩ h
  rintro e s _ s' ⟨hs, hsize⟩ he
  obtain ⟨hs', hgrow⟩ := perform_wellFormed hs he
  exact ⟨hs', Nat.le_trans hsize hgrow⟩

/-- Every run of changes to a new layout that stays within machine words ends in a well-formed
layout, from which no further run makes the struct smaller and no refused change has an effect. -/
theorem new_layout_run (id : StructId) (name : String) (es : List LayoutEdit)
    (answers : List (Except Refusal Answer)) (l : Layout)
    (h : Edit.runAll perform { id, name } es = .ok (answers, l)) :
    l.WellFormed ∧
    (∀ more answers' l', Edit.runAll perform l more = .ok (answers', l') → l.size ≤ l'.size) ∧
    ∀ (e : LayoutEdit) cause l', e.perform.run.run l = .ok (.error cause, l') → l' = l := by
  obtain ⟨hl, _⟩ := run_wellFormed (Layout.wellFormed_empty id name) h
  refine ⟨hl, ?_, ?_⟩
  · intro more answers' l' hmore
    exact (run_wellFormed hl hmore).2
  · intro e cause l' he
    exact perform_refused he

/-- The sentinel on byte 7 gives way to an eight-byte member, into which nothing more is written. -/
theorem new_layout_run_absorbing :
    ∃ l, Edit.runAll perform { id := ⟨3⟩, name := "s" }
        [addMember 0, maximizeSize 8, setMemberType 0 (.int 8 true) 8,
          setMemberType 4 (.int 4 true) 4] =
      .ok ([.ok (.changed true), .ok (.changed true), .ok .done,
        .error (.midMember ⟨3⟩ 4 0)], l) ∧
      l.members.size = 1 ∧ l.size = 8 ∧ l.WellFormed ∧
      (∀ more answers' l', Edit.runAll perform l more = .ok (answers', l') → l.size ≤ l'.size) ∧
      ∀ (e : LayoutEdit) cause l', e.perform.run.run l = .ok (.error cause, l') → l' = l :=
  ⟨_, rfl, rfl, rfl, new_layout_run ⟨3⟩ "s"
    [addMember 0, maximizeSize 8, setMemberType 0 (.int 8 true) 8, setMemberType 4 (.int 4 true) 4]
    _ _ rfl⟩

end LayoutEdit
end TypeRecovery
