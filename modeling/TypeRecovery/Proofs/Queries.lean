import Mathlib.Order.Bounds.Basic
import TypeRecovery.Proofs.Indexes
import TypeRecovery.Proofs.InnerMembers
import TypeRecovery.Proofs.Placements

/-!
# Queries at the ends of the range

A query for an offset asks one member, the nearest before the offset or the first after it. In a
well-formed layout whose size is a word that is enough, and no query overflows: every member ends by
the end of the struct, so none starts at the last word, where the search for the next member stays
in place. Changes overflow only where a member is to end beyond the last word.
-/
namespace TypeRecovery

theorem Word.add_eq_error_iff {a b : Nat} {fault : Fault} :
    add a b = .error fault ↔ fault = .overflow .add ∧ bound ≤ a + b := by
  unfold add
  split
  case isTrue h =>
    constructor
    · intro heq
      cases heq
    · exact fun hle => absurd h (Nat.not_lt.2 hle.2)
  case isFalse h =>
    constructor
    · intro heq
      cases heq
      exact ⟨rfl, Nat.not_lt.1 h⟩
    · rintro ⟨rfl, _⟩
      rfl

namespace Edit

variable {σ α β : Type} {s : σ} {fault : Fault}

theorem bind_eq_error {x : Edit σ α} {f : α → Edit σ β} :
    (x >>= f).run.run s = .error fault ↔ x.run.run s = .error fault ∨
      ∃ a t, x.run.run s = .ok (.ok a, t) ∧ (f a).run.run t = .error fault := by
  rw [run_bind]
  constructor
  · intro h
    rcases Checked.bind_eq_error h with hx | ⟨⟨answer, t⟩, hx, hf⟩
    · exact .inl hx
    · cases answer with
      | ok a => exact .inr ⟨a, t, hx, hf⟩
      | error cause => cases hf
  · rintro (hx | ⟨a, t, hx, hf⟩)
    · rw [hx]
      rfl
    · rw [hx]
      exact hf

theorem lift_bind_eq_error {x : Checked α} {f : α → Edit σ β}
    (hf : ∀ a, ∃ p, (f a).run.run s = .ok p) :
    (liftM x >>= f).run.run s = .error fault ↔ x = .error fault := by
  rw [run_lift_bind]
  cases x with
  | error fault' => exact ⟨fun h => by cases h; rfl, fun h => by cases h; rfl⟩
  | ok a =>
    obtain ⟨p, hp⟩ := hf a
    constructor
    · intro h
      cases hp.symm.trans h
    · intro h
      cases h

end Edit

namespace Layout

variable {l : Layout} {offset size a next : Nat} {type : Ty} {m : Member} {fault : Fault}

/-- The offsets at which members start. -/
def starts (l : Layout) : List Nat := l.members.values.map (·.offset)

/-- A member of the layout occupies the byte at the offset. -/
structure Occupies (l : Layout) (m : Member) (offset : Nat) : Prop where
  mem : m ∈ l.members.values
  start_le : m.offset ≤ offset
  lt_stop : offset < m.offset + m.width

namespace WellFormed

variable (hl : l.WellFormed)
include hl

theorem get?_eq_some : l.members.get? a = some m ↔ m ∈ l.members.values ∧ m.offset = a := by
  rw [Table.mem_values]
  constructor
  · exact fun hm => ⟨⟨a, hm⟩, hl.keyed hm⟩
  · rintro ⟨⟨b, hm⟩, rfl⟩
    rwa [hl.keyed hm]

theorem mem_starts : a ∈ l.starts ↔ ∃ m, l.members.get? a = some m := by
  simp only [starts, List.mem_map, hl.get?_eq_some]

variable (hword : l.size < Word.bound)
include hword

theorem stop_lt (hm : l.members.get? a = some m) : a + m.width < Word.bound :=
  Nat.lt_of_le_of_lt (hl.inside hm) hword

/-- No member starts at the last word: it would end beyond it. -/
theorem lt_max_of_mem_starts (h : a ∈ l.starts) : a < Word.max := by
  obtain ⟨m, hm⟩ := hl.mem_starts.1 h
  have hstop := hl.stop_lt hword hm
  have hpos := m.width_pos
  have hmax : Word.bound = Word.max + 1 := rfl
  omega

theorem occupies_iff : l.Occupies m offset ↔ l.CoveredBy offset m.offset m := by
  constructor
  · intro h
    have hm := hl.get?_eq_some.2 ⟨h.mem, rfl⟩
    exact ⟨hm, h.start_le, h.lt_stop, hl.stop_lt hword hm⟩
  · exact fun h => ⟨(hl.get?_eq_some.1 h.held).1, h.start_le, h.lt_stop⟩

/-- The nearest member before the offset is asked, and no other could occupy it. -/
theorem exists_occupant (offset : Nat) : ∃ found : Option Member,
    (∀ m, found = some m ↔ l.Occupies m offset) ∧
    l.memberAt offset = .ok found ∧ l.covers offset = .ok found.isSome ∧
    l.memberStart offset = .ok (found.map (·.offset)) ∧
    l.memberSize offset = .ok (found.map (·.size)) := by
  obtain ⟨found, hat⟩ := hl.exists_memberAt hword offset
  have hrest : ∀ {α : Type} (f : Option Member → α),
      (do return f (← l.memberAt offset) : Checked α) = .ok (f found) :=
    fun f => Checked.bind_eq_ok.2 ⟨found, hat, rfl⟩
  refine ⟨found, fun m => ?_, hat, hrest _, hrest _, hrest _⟩
  rw [hl.occupies_iff hword, ← hl.memberAt_eq_some, hat, Except.ok.injEq]

/-- The search for the next member starts one further, or at the last word if that is the offset.
No member starts there. -/
theorem nextMember_eq_some : l.nextMember offset = some next ↔
    IsLeast {a | a ∈ l.starts ∧ offset < a} next := by
  by_cases hoffset : offset < Word.max
  · have hleast : ∀ {b}, l.nextMember offset = some b →
        IsLeast {a | a ∈ l.starts ∧ offset < a} b := by
      intro b hb
      obtain ⟨hheld, hlt, hfirst⟩ := of_nextMember_eq_some hb hoffset
      refine ⟨⟨hl.mem_starts.2 hheld, hlt⟩, ?_⟩
      rintro a ⟨ha, hlta⟩
      obtain ⟨m, hm⟩ := hl.mem_starts.1 ha
      exact hfirst hm hlta
    refine ⟨hleast, fun h => ?_⟩
    cases hnext : l.nextMember offset with
    | none =>
      obtain ⟨m, hm⟩ := hl.mem_starts.1 h.1.1
      exact absurd h.1.2 (Nat.not_lt.2 (of_nextMember_eq_none hnext hoffset hm))
    | some b => rw [(hleast hnext).unique h]
  · constructor
    · intro h
      obtain ⟨⟨b, m⟩, hceil, rfl⟩ := Option.map_eq_some_iff.1 h
      obtain ⟨hm, hle, _⟩ := Table.of_ceil?_eq_some hceil
      have hlt := hl.lt_max_of_mem_starts hword (hl.mem_starts.2 ⟨m, hm⟩)
      have hnext : Word.next offset = Word.max := Nat.min_eq_right (by omega)
      omega
    · intro h
      have hlt := hl.lt_max_of_mem_starts hword h.1.1
      have hafter := h.1.2
      omega

theorem exists_isTrailingSentinel (offset : Nat) : ∃ ends, l.isTrailingSentinel offset = .ok ends ∧
    (ends = true ↔ ∃ m ∈ l.members.values, m.offset = offset ∧ m.size = 1 ∧
      offset + 1 = l.size) := by
  have hiff : ∀ {ends}, l.isTrailingSentinel offset = .ok ends → (ends = true ↔
      ∃ m ∈ l.members.values, m.offset = offset ∧ m.size = 1 ∧ offset + 1 = l.size) := by
    intro ends h
    constructor
    · rintro rfl
      obtain ⟨m, hm, hlast⟩ := isTrailingSentinel_eq_true h
      obtain ⟨hmem, hkey⟩ := hl.get?_eq_some.1 hm
      exact ⟨m, hmem, hkey, hlast⟩
    · rintro ⟨m, hmem, hkey, hlast⟩
      exact (isTrailingSentinel_eq_ok (hl.get?_eq_some.2 ⟨hmem, hkey⟩) h).2 hlast
  suffices h : ∃ ends, l.isTrailingSentinel offset = .ok ends from
    h.imp fun _ hends => ⟨hends, hiff hends⟩
  unfold isTrailingSentinel
  cases hm : l.members.get? offset with
  | none => exact ⟨false, rfl⟩
  | some m =>
    have hstop := hl.stop_lt hword hm
    have hpos := m.width_pos
    have hadd : Word.add offset 1 = .ok (offset + 1) := Word.add_eq_ok_iff.2 ⟨by omega, rfl⟩
    by_cases hsize : m.size = 1
    · exact ⟨_, (if_pos hsize).trans (Checked.bind_eq_ok.2 ⟨_, hadd, rfl⟩)⟩
    · exact ⟨false, if_neg hsize⟩

theorem exists_maximizeSize (size : Nat) :
    ∃ l', (Layout.maximizeSize size).run.run l = .ok (.ok (decide (l.size < size)), l') := by
  simp only [Layout.maximizeSize, Edit.run_get_bind]
  by_cases hsize : size ≤ l.size
  · rw [if_pos hsize, decide_eq_false (Nat.not_lt.2 hsize)]
    exact ⟨l, rfl⟩
  · obtain ⟨found, _, _, hcovers, _⟩ := hl.exists_occupant hword (size - 1)
    rw [if_neg hsize, decide_eq_true (Nat.not_le.1 hsize)]
    simp only [Edit.run_lift_bind, hcovers]
    exact ⟨_, rfl⟩

theorem addMember_eq_error (hoffset : offset < Word.bound) :
    (Layout.addMember offset).run.run l = .error fault ↔
      fault = .overflow .add ∧ offset = Word.max := by
  obtain ⟨found, hfound, _, hcovers, _⟩ := hl.exists_occupant hword offset
  have hmax : Word.bound = Word.max + 1 := rfl
  simp only [Layout.addMember, Edit.run_get_bind, Edit.run_lift_bind, hcovers]
  cases found with
  | some m =>
    have hm := (hl.occupies_iff hword).1 ((hfound m).1 rfl)
    have hstop := hm.lt_stop
    have hend := hm.word
    constructor
    · intro h
      cases h
    · rintro ⟨_, rfl⟩
      omega
  | none =>
    refine (Edit.lift_bind_eq_error (x := Word.add offset 1) (fun stop => ⟨_, rfl⟩)).trans ?_
    rw [Word.add_eq_error_iff]
    exact and_congr_right fun _ => by omega

/-- Making room for a member needs its end only where another member follows. -/
theorem clearFor_eq_error : (Layout.clearFor offset size).run.run l = .error fault ↔
    fault = .overflow .add ∧ (∃ next, l.nextMember offset = some next) ∧
      Word.bound ≤ offset + size := by
  simp only [Layout.clearFor, Edit.run_get_bind]
  cases hnext : l.nextMember offset with
  | none =>
    constructor
    · intro h
      cases h
    · rintro ⟨_, ⟨_, h⟩, _⟩
      cases h
  | some next =>
    refine (Edit.lift_bind_eq_error fun stop => ?_).trans ?_
    · split
      · exact ⟨_, rfl⟩
      · obtain ⟨ends, hends, _⟩ := hl.exists_isTrailingSentinel hword next
        rw [Edit.run_lift_bind, hends]
        cases ends with
        | true => exact ⟨_, rfl⟩
        | false => exact ⟨_, rfl⟩
    · rw [Word.add_eq_error_iff]
      exact and_congr_right fun _ => ⟨fun h => ⟨⟨next, rfl⟩, h⟩, fun h => h.2⟩

theorem memberStart_eq_some : l.memberStart offset = .ok (some offset) ↔ offset ∈ l.starts := by
  rw [hl.mem_starts]
  constructor
  · intro h
    obtain ⟨m, hm, _⟩ := hl.get?_of_memberStart h
    exact ⟨m, hm⟩
  · rintro ⟨m, hm⟩
    have hat := hl.memberAt_of_get? hword hm
    exact Checked.bind_eq_ok.2 ⟨_, hat, Checked.pure_eq_ok.2 (congrArg some (hl.keyed hm))⟩

/-- The end of a member is added up once or twice, before anything is refused for its length. -/
theorem setMemberType_eq_error :
    (Layout.setMemberType offset type size).run.run l = .error fault ↔
      fault = .overflow .add ∧ offset ∈ l.starts ∧ Word.bound ≤ offset + size := by
  obtain ⟨found, _, _, _, hstart, _⟩ := hl.exists_occupant hword offset
  replace hstart : l.memberStart offset = pure (found.map (·.offset)) := hstart
  rw [← hl.memberStart_eq_some hword, hstart, Checked.pure_eq_ok]
  simp only [Layout.setMemberType, Edit.run_get_bind, Edit.run_lift_bind, hstart, pure_bind]
  cases found with
  | none =>
    constructor
    · intro h
      cases h
    · rintro ⟨_, h, _⟩
      cases h
  | some m =>
    by_cases hkey : m.offset = offset
    · simp only [Option.map_some, hkey, if_true, true_and]
      rw [Edit.bind_eq_error, hl.clearFor_eq_error hword]
      constructor
      · rintro (⟨rfl, _, hstop⟩ | ⟨_, t, _, h⟩)
        · exact ⟨rfl, hstop⟩
        · rw [Edit.run_modify_bind, Edit.lift_bind_eq_error fun _ => ⟨_, rfl⟩,
            Word.add_eq_error_iff] at h
          exact h
      · rintro ⟨rfl, hstop⟩
        cases hnext : l.nextMember offset with
        | some next => exact .inl ⟨rfl, ⟨next, rfl⟩, hstop⟩
        | none =>
          have hclear : (Layout.clearFor offset size).run.run l = .ok (.ok (), l) := by
            simp only [Layout.clearFor, Edit.run_get_bind, hnext]
            rfl
          refine .inr ⟨_, _, hclear, ?_⟩
          rw [Edit.run_modify_bind, Edit.lift_bind_eq_error fun _ => ⟨_, rfl⟩,
            Word.add_eq_error_iff]
          exact ⟨rfl, hstop⟩
    · simp only [Option.map_some, hkey, if_false]
      constructor
      · intro h
        cases h
      · rintro ⟨_, h, _⟩
        exact absurd (Option.some.inj h) hkey

end WellFormed

/-- In a well-formed layout whose size is a word, the member at an offset is the only one that
occupies it, the next member is the first one to start after it, and neither these queries nor
those that rest on them overflow. Growing the struct does not overflow, adding a member does so at
the last word only, and typing a member exactly where one starts that would end beyond it. -/
theorem queries_exact (l : Layout) (hl : l.WellFormed) (hword : l.size < Word.bound)
    (offset : Nat) (hoffset : offset < Word.bound) :
    (∃ found : Option Member, (∀ m, found = some m ↔ l.Occupies m offset) ∧
      l.memberAt offset = .ok found ∧ l.covers offset = .ok found.isSome ∧
      l.memberStart offset = .ok (found.map (·.offset)) ∧
      l.memberSize offset = .ok (found.map (·.size))) ∧
    (∀ next, l.nextMember offset = some next ↔
      IsLeast {a | a ∈ l.starts ∧ offset < a} next) ∧
    (∃ ends, l.isTrailingSentinel offset = .ok ends ∧
      (ends = true ↔ ∃ m ∈ l.members.values, m.offset = offset ∧ m.size = 1 ∧
        offset + 1 = l.size)) ∧
    (∀ size, ∃ l', (maximizeSize size).run.run l = .ok (.ok (decide (l.size < size)), l')) ∧
    (∀ fault, (addMember offset).run.run l = .error fault ↔
      fault = .overflow .add ∧ offset = Word.max) ∧
    ∀ type size fault, (setMemberType offset type size).run.run l = .error fault ↔
      fault = .overflow .add ∧ offset ∈ l.starts ∧ Word.bound ≤ offset + size := by
  refine ⟨?_, ?_, ?_, ?_, ?_, ?_⟩
  · exact hl.exists_occupant hword offset
  · exact fun next => hl.nextMember_eq_some hword
  · exact hl.exists_isTrailingSentinel hword offset
  · exact hl.exists_maximizeSize hword
  · exact fun fault => hl.addMember_eq_error hword hoffset
  · exact fun type size fault => hl.setMemberType_eq_error hword

/-- A struct that takes up all bytes but the last, with a placeholder and a sentinel. -/
def brimful : Layout where
  id := ⟨0⟩
  name := "brimful"
  members := .ofList [(0, { offset := 0, name := "n", type := .int 4 true, size := 4 }),
    (8, .placeholder 8), (18446744073709551614, .sentinel 18446744073709551614)]
  size := 18446744073709551615

/-- The last byte of a member, a placeholder, the sentinel and the last word. -/
theorem queries_exact_brimful :
    brimful.WellFormed ∧ brimful.size < Word.bound ∧
    brimful.Occupies { offset := 0, name := "n", type := .int 4 true, size := 4 } 3 ∧
    (∀ m, ¬ brimful.Occupies m 4) ∧
    (∀ m, brimful.Occupies m 8 → m = .placeholder 8) ∧
    IsLeast {a | a ∈ brimful.starts ∧ 0 < a} 8 ∧
    (∀ next, ¬ IsLeast {a | a ∈ brimful.starts ∧ Word.max < a} next) ∧
    (addMember Word.max).run.run brimful = .error (.overflow .add) ∧
    (setMemberType 18446744073709551614 (.int 2 false) 2).run.run brimful =
      .error (.overflow .add) := by
  have hl : brimful.WellFormed := by decide
  have hword : brimful.size < Word.bound := by decide
  have hexact := queries_exact brimful hl hword
  have hat : ∀ offset found, offset < Word.bound → brimful.memberAt offset = .ok found →
      ∀ m, found = some m ↔ brimful.Occupies m offset := by
    intro offset found hoffset hfound
    obtain ⟨⟨found', hiff, hfound', _⟩, _⟩ := hexact offset hoffset
    cases hfound.symm.trans hfound'
    exact hiff
  refine ⟨hl, hword, (hat 3 _ (by decide) rfl _).1 rfl, fun m h => ?_, fun m h => ?_, ?_,
    fun next h => ?_, ?_, ?_⟩
  · cases (hat 4 none (by decide) rfl m).2 h
  · exact (Option.some.inj ((hat 8 _ (by decide) rfl m).2 h)).symm
  · exact ((hexact 0 (by decide)).2.1 8).1 rfl
  · cases ((hexact Word.max (by decide)).2.1 next).2 h
  · exact ((hexact Word.max (by decide)).2.2.2.2.1 _).2 ⟨rfl, rfl⟩
  · exact ((hexact _ (by decide)).2.2.2.2.2 _ _ _).2 ⟨rfl, by decide, by decide⟩

end Layout
end TypeRecovery
