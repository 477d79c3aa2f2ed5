import Mathlib.Algebra.GroupWithZero.Nat
import TypeRecovery.Proofs.Walks

/-!
# Members of nested structs

The member that starts at an offset is looked for in the struct and, where the nearest member before
the offset is itself a struct that reaches over it, in there. Where members stand under their own
offsets, the search ends with the member that starts where the descent does, if there is one. It
overflows exactly where the descent meets a member that ends beyond the range of words, which no
member of a well-formed layout does.
-/
namespace TypeRecovery

namespace Layout

variable {l : Layout} {offset a : Nat} {m : Member}

/-- The last member that starts at the offset or before it. -/
structure Nearest (l : Layout) (offset a : Nat) (m : Member) : Prop where
  held : l.members.get? a = some m
  start_le : a ≤ offset
  last : ∀ b n, l.members.get? b = some n → b ≤ offset → b ≤ a

theorem nearest_of_get? (h : l.members.get? offset = some m) : l.Nearest offset offset m :=
  ⟨h, Nat.le_refl _, fun _ _ _ hle => hle⟩

theorem nearest_iff : l.Nearest offset a m ↔ l.members.floor? offset = some (a, m) := by
  constructor
  · intro h
    cases hfloor : l.members.floor? offset with
    | none =>
      have hlt := Table.of_floor?_eq_none hfloor h.held
      exact absurd h.start_le (Nat.not_le.2 hlt)
    | some e =>
      obtain ⟨b, n⟩ := e
      obtain ⟨hn, hle, hlast⟩ := Table.of_floor?_eq_some hfloor
      obtain rfl : b = a := Nat.le_antisymm (h.last b n hn hle) (hlast a m h.held h.start_le)
      rw [Option.some.inj (h.held.symm.trans hn)]
  · intro hfloor
    obtain ⟨hheld, hle, hlast⟩ := Table.of_floor?_eq_some hfloor
    exact ⟨hheld, hle, hlast⟩

theorem Nearest.memberAt_eq (h : l.Nearest offset a m) (hkey : m.offset = a) :
    l.memberAt offset = if Word.bound ≤ a + m.width then .error (.overflow .add)
      else .ok (if a + m.width ≤ offset then none else some m) := by
  rw [memberAt, nearest_iff.1 h]
  simp only [Member.stop, Word.add, hkey]
  by_cases hword : Word.bound ≤ a + m.width
  · rw [if_pos hword, if_neg (Nat.not_lt.2 hword)]
    rfl
  · rw [if_neg hword, if_pos (Nat.not_le.1 hword)]
    by_cases hstop : a + m.width ≤ offset
    · rw [if_pos hstop]
      exact congrArg Except.ok (if_neg (Nat.not_lt.2 hstop))
    · rw [if_neg hstop]
      exact congrArg Except.ok (if_pos (Nat.not_le.1 hstop))

theorem WellFormed.nearest (hl : l.WellFormed) (hm : l.members.get? a = some m) (hle : a ≤ offset)
    (hcovers : offset < a + m.width) : l.Nearest offset a m := by
  refine ⟨hm, hle, fun b n hn hb => Nat.not_lt.1 fun hlt => ?_⟩
  have hdisjoint := hl.disjoint hm hn hlt
  omega

end Layout

namespace TypeStore

variable {σ : Type} [TypeStore σ] {s : σ} {id nested : StructId} {offset lower a : Nat}
  {l : Layout} {m : Member} {r : MemberRef} {t : Ty}

theorem memberStartingWithin_of_layout?_eq_none (hl : layout? s id = none) (fuel offset : Nat) :
    (memberStartingWithin s (fuel + 1) id offset).run = .ok none := by
  rw [memberStartingWithin, hl]
  rfl

theorem memberStartingWithin_of_floor?_eq_none (hl : layout? s id = some l)
    (hm : l.members.floor? offset = none) (fuel : Nat) :
    (memberStartingWithin s (fuel + 1) id offset).run = .ok none := by
  have hat : l.memberAt offset = .ok none := by
    rw [Layout.memberAt, hm]
    rfl
  rw [memberStartingWithin, hl]
  exact Checked.optionBind_eq_none.2 (.inr ⟨l, rfl, Checked.optionBind_eq_none.2 (.inl hat)⟩)

theorem memberStartingWithin_of_nearest (hkeyed : Keyed s) (hl : layout? s id = some l)
    (hm : l.Nearest offset a m) (fuel : Nat) :
    (memberStartingWithin s (fuel + 1) id offset).run =
      if Word.bound ≤ a + m.width then .error (.overflow .add)
      else if a + m.width ≤ offset then .ok none
      else if a = offset then .ok (some (⟨id, offset⟩, m.type))
      else match m.type.structId? with
        | none => .ok none
        | some nested => (memberStartingWithin s fuel nested (offset - a)).run := by
  have hkey : m.offset = a := hkeyed hl hm.held
  have hat := hm.memberAt_eq hkey
  have hsub : Word.sub offset a = .ok (offset - a) := Word.sub_eq_ok_iff.2 ⟨hm.start_le, rfl⟩
  have hlift : ∀ {α : Type} (o : Option α),
      (memberStartingWithin.liftOption o).run = .ok o := fun _ => rfl
  rw [memberStartingWithin, hl]
  simp only [Checked.run_optionBind, hlift, OptionT.run_mk, hat]
  by_cases hword : Word.bound ≤ a + m.width
  · simp only [hword, if_true]
  · by_cases hstop : a + m.width ≤ offset
    · simp only [hword, hstop, if_true, if_false]
    · simp only [hword, hstop, if_false, hkey]
      by_cases hstart : a = offset
      · simp only [hstart, if_true]
        rfl
      · simp only [hstart, if_false, Checked.run_optionBind, hlift]
        cases m.type.structId? with
        | none => rfl
        | some nested =>
          rw [hsub]
          rfl

/-- The nearest member before the offset of a struct is a struct that reaches over it; the search
goes on in there. -/
inductive Enters (s : σ) : StructId × Nat → StructId × Nat → Prop
  | intro {id nested : StructId} {offset a : Nat} {l : Layout} {m : Member}
      (hl : layout? s id = some l) (hm : l.Nearest offset a m) (hbefore : a < offset)
      (hcovers : offset < a + m.width) (hword : a + m.width < Word.bound)
      (htype : m.type = .struct nested) : Enters s (id, offset) (nested, offset - a)

/-- A member of type `t` starts at the offset, in the struct or in one nested in it. -/
def Starts (s : σ) (id : StructId) (offset : Nat) (r : MemberRef) (t : Ty) : Prop :=
  Relation.ReflTransGen (Enters s) (id, offset) (r.struct, r.offset) ∧
    ∃ l m, layout? s r.struct = some l ∧ l.members.get? r.offset = some m ∧
      r.offset + m.width < Word.bound ∧ m.type = t

/-- On the way to the offset there is a member that ends beyond the range of words. -/
def Overruns (s : σ) (id : StructId) (offset : Nat) : Prop :=
  ∃ p, Relation.ReflTransGen (Enters s) (id, offset) p ∧
    ∃ l a m, layout? s p.1 = some l ∧ l.Nearest p.2 a m ∧ Word.bound ≤ a + m.width

theorem Starts.enter {p q : StructId × Nat} (h : Enters s p q) (hq : Starts s q.1 q.2 r t) :
    Starts s p.1 p.2 r t :=
  ⟨.head h hq.1, hq.2⟩

theorem Overruns.enter {p q : StructId × Nat} (h : Enters s p q) (hq : Overruns s q.1 q.2) :
    Overruns s p.1 p.2 := by
  obtain ⟨p', hpath, hat⟩ := hq
  exact ⟨p', .head h hpath, hat⟩

section Search

variable (hs : Lists s) (hkeyed : Keyed s) (hnested : ¬ Cyclic (nesting s))

include hkeyed in
theorem Enters.within {p q : StructId × Nat} (h : Enters s p q) (fuel : Nat) :
    (memberStartingWithin s (fuel + 1) p.1 p.2).run =
      (memberStartingWithin s fuel q.1 q.2).run := by
  obtain ⟨hl, hm, hbefore, hcovers, hword, htype⟩ := h
  rw [memberStartingWithin_of_nearest hkeyed hl hm, if_neg (Nat.not_le.2 hword),
    if_neg (Nat.not_le.2 hcovers), if_neg (Nat.ne_of_lt hbefore), htype]
  rfl

include hs hkeyed hnested

/-- A descent lowers the offset, or enters a struct that the one before begins with. -/
theorem Enters.levels_lt {p q : StructId × Nat} (h : Enters s p q) :
    levels (nesting s) (structIds s) q.1 q.2 < levels (nesting s) (structIds s) p.1 p.2 := by
  obtain ⟨hl, hm, hbefore, hcovers, hword, htype⟩ := h
  have hkey := hkeyed hl hm.held
  have hlt := levels_lt_of_member hnested (hs hl) (fun _ h => mem_nesting (hs hl) hl h) hm.held
    (by rw [htype]; rfl) (hkey ▸ hm.start_le)
  rwa [hkey] at hlt

theorem exists_within_of_path {p q : StructId × Nat} (h : Relation.ReflTransGen (Enters s) p q)
    {fuel : Nat} (hfuel : levels (nesting s) (structIds s) p.1 p.2 < fuel) :
    ∃ left, (memberStartingWithin s fuel p.1 p.2).run =
      (memberStartingWithin s (left + 1) q.1 q.2).run := by
  induction h using Relation.ReflTransGen.head_induction_on generalizing fuel with
  | refl =>
    obtain ⟨left, rfl⟩ := Nat.exists_eq_succ_of_ne_zero (Nat.ne_zero_of_lt hfuel)
    exact ⟨left, rfl⟩
  | head hstep _ ih =>
    obtain ⟨fuel, rfl⟩ := Nat.exists_eq_succ_of_ne_zero (Nat.ne_zero_of_lt hfuel)
    have hlt := hstep.levels_lt hs hkeyed hnested
    obtain ⟨left, hleft⟩ := ih (show _ < fuel by omega)
    exact ⟨left, (hstep.within hkeyed fuel).trans hleft⟩

theorem Starts.memberStartingAt (h : Starts s id offset r t) :
    (memberStartingAt s id offset).run = .ok (some (r, t)) := by
  obtain ⟨hpath, l, m, hl, hm, hword, rfl⟩ := h
  obtain ⟨left, hleft⟩ := exists_within_of_path hs hkeyed hnested hpath levels_lt
  have hwidth := m.width_pos
  refine hleft.trans ?_
  rw [memberStartingWithin_of_nearest hkeyed hl (Layout.nearest_of_get? hm),
    if_neg (Nat.not_le.2 hword), if_neg (by omega), if_pos rfl]

theorem Overruns.memberStartingAt (h : Overruns s id offset) :
    (memberStartingAt s id offset).run = .error (.overflow .add) := by
  obtain ⟨p, hpath, l, a, m, hl, hm, hword⟩ := h
  obtain ⟨left, hleft⟩ := exists_within_of_path hs hkeyed hnested hpath levels_lt
  refine hleft.trans ?_
  rw [memberStartingWithin_of_nearest hkeyed hl hm, if_pos hword]

theorem memberStartingWithin_cases {fuel : Nat} {p : StructId × Nat}
    (hfuel : levels (nesting s) (structIds s) p.1 p.2 < fuel) :
    (memberStartingWithin s fuel p.1 p.2).run = .ok none ∨
    (∃ r t, Starts s p.1 p.2 r t ∧
      (memberStartingWithin s fuel p.1 p.2).run = .ok (some (r, t))) ∨
    Overruns s p.1 p.2 ∧
      (memberStartingWithin s fuel p.1 p.2).run = .error (.overflow .add) := by
  induction fuel generalizing p with
  | zero => exact absurd hfuel (Nat.not_lt_zero _)
  | succ fuel ih =>
    obtain ⟨id, offset⟩ := p
    cases hl : layout? s id with
    | none => exact .inl (memberStartingWithin_of_layout?_eq_none hl fuel offset)
    | some l =>
      cases hfloor : l.members.floor? offset with
      | none => exact .inl (memberStartingWithin_of_floor?_eq_none hl hfloor fuel)
      | some e =>
        obtain ⟨a, m⟩ := e
        have hm := Layout.nearest_iff.2 hfloor
        have hrun := memberStartingWithin_of_nearest hkeyed hl hm fuel
        by_cases hword : Word.bound ≤ a + m.width
        · rw [if_pos hword] at hrun
          exact .inr (.inr ⟨⟨_, .refl, l, a, m, hl, hm, hword⟩, hrun⟩)
        rw [if_neg hword] at hrun
        by_cases hstop : a + m.width ≤ offset
        · rw [if_pos hstop] at hrun
          exact .inl hrun
        rw [if_neg hstop] at hrun
        by_cases hstart : a = offset
        · rw [if_pos hstart] at hrun
          subst hstart
          exact .inr (.inl ⟨⟨id, a⟩, m.type,
            ⟨.refl, l, m, hl, hm.held, Nat.not_le.1 hword, rfl⟩, hrun⟩)
        rw [if_neg hstart] at hrun
        cases htype : m.type.structId? with
        | none =>
          rw [htype] at hrun
          exact .inl hrun
        | some nested =>
          rw [htype] at hrun
          have henters : Enters s (id, offset) (nested, offset - a) :=
            .intro hl hm (Nat.lt_of_le_of_ne hm.start_le hstart) (Nat.not_le.1 hstop)
              (Nat.not_le.1 hword) (Ty.eq_struct_of_structId? htype)
          have hlt := henters.levels_lt hs hkeyed hnested
          rw [hrun]
          rcases ih (p := (nested, offset - a)) (by omega) with hnone | ⟨r, t, hstarts, hfound⟩ |
            ⟨hover, hfault⟩
          · exact .inl hnone
          · exact .inr (.inl ⟨r, t, hstarts.enter henters, hfound⟩)
          · exact .inr (.inr ⟨hover.enter henters, hfault⟩)

theorem memberStartingAt_eq_some : (memberStartingAt s id offset).run = .ok (some (r, t)) ↔
    Starts s id offset r t := by
  refine ⟨fun h => ?_, Starts.memberStartingAt hs hkeyed hnested⟩
  rcases memberStartingWithin_cases hs hkeyed hnested (p := (id, offset)) levels_lt with hnone |
    ⟨r', t', hstarts, hfound⟩ | ⟨_, hfault⟩
  · cases h.symm.trans hnone
  · cases h.symm.trans hfound
    exact hstarts
  · cases h.symm.trans hfault

theorem memberStartingAt_eq_error {fault : Fault} :
    (memberStartingAt s id offset).run = .error fault ↔
      fault = .overflow .add ∧ Overruns s id offset := by
  constructor
  · intro h
    rcases memberStartingWithin_cases hs hkeyed hnested (p := (id, offset)) levels_lt with hnone |
      ⟨r', t', _, hfound⟩ | ⟨hover, hfault⟩
    · cases h.symm.trans hnone
    · cases h.symm.trans hfound
    · cases h.symm.trans hfault
      exact ⟨rfl, hover⟩
  · rintro ⟨rfl, h⟩
    exact h.memberStartingAt hs hkeyed hnested

end Search

/-- Every layout is well formed and no larger than a word can say. -/
def WellFormed (s : σ) : Prop :=
  ∀ {id l}, layout? s id = some l → l.WellFormed ∧ l.size < Word.bound

/-- From an offset of a struct one gets to another by going, again and again, into the struct whose
member starts before what is left of the offset and covers it. -/
inductive Passes (s : σ) : StructId → Nat → List Nat → StructId → Prop
  | stay (id : StructId) (offset : Nat) : Passes s id offset [] id
  | into {id nested last : StructId} {offset a : Nat} {starts : List Nat} {l : Layout} {m : Member}
      (hl : layout? s id = some l) (hm : l.members.get? a = some m) (hbefore : a < offset)
      (hcovers : offset < a + m.width) (htype : m.type = .struct nested)
      (hrest : Passes s nested (offset - a) starts last) : Passes s id offset (a :: starts) last

/-- The way into the members that start at `starts` ends in `last`, where a member of type `t`
starts at what is left of the offset. -/
structure Reaches (s : σ) (id : StructId) (offset : Nat) (starts : List Nat) (last : StructId)
    (o : Nat) (t : Ty) : Prop where
  passes : Passes s id offset starts last
  sum : starts.sum + o = offset
  member : ∃ l m, layout? s last = some l ∧ l.members.get? o = some m ∧ m.type = t

theorem WellFormed.keyed (h : WellFormed s) : Keyed s := fun hl hm => (h hl).1.keyed hm

theorem WellFormed.stop_lt (h : WellFormed s) (hl : layout? s id = some l)
    (hm : l.members.get? a = some m) : a + m.width < Word.bound :=
  Nat.lt_of_le_of_lt ((h hl).1.inside hm) (h hl).2

theorem WellFormed.not_overruns (h : WellFormed s) : ¬ Overruns s id offset := by
  rintro ⟨p, _, l, a, m, hl, hm, hword⟩
  exact absurd (h.stop_lt hl hm.held) (Nat.not_lt.2 hword)

theorem WellFormed.starts_iff (h : WellFormed s) {last : StructId} {o : Nat} :
    Starts s id offset ⟨last, o⟩ t ↔ ∃ starts, Reaches s id offset starts last o t := by
  constructor
  · rintro ⟨hpath, l, m, hl, hm, _, htype⟩
    generalize hp : (id, offset) = p at hpath
    induction hpath using Relation.ReflTransGen.head_induction_on generalizing id offset with
    | refl =>
      cases hp
      exact ⟨[], .stay _ _, Nat.zero_add _, l, m, hl, hm, htype⟩
    | head hstep _ ih =>
      cases hstep with
      | @intro _ nested _ a k n hk hn hbefore hcovers _ hnested =>
        cases hp
        obtain ⟨starts, hreaches⟩ := ih rfl
        have hsum := hreaches.sum
        refine ⟨a :: starts, .into hk hn.held hbefore hcovers hnested hreaches.passes, ?_,
          hreaches.member⟩
        rw [List.sum_cons]
        omega
  · rintro ⟨starts, hpasses, hsum, l, m, hl, hm, htype⟩
    refine ⟨?_, l, m, hl, hm, h.stop_lt hl hm, htype⟩
    clear hl hm htype
    induction hpasses with
    | stay id offset =>
      rw [List.sum_nil, Nat.zero_add] at hsum
      rw [hsum]
    | into hk hn hbefore hcovers hnested _ ih =>
      rw [List.sum_cons] at hsum
      have hnear := (h hk).1.nearest hn (Nat.le_of_lt hbefore) hcovers
      exact .head (.intro hk hnear hbefore hcovers (h.stop_lt hk hn) hnested) (ih (by omega))

/-- At every struct there is one way to go on, or none if a member starts there. -/
theorem Reaches.unique (h : WellFormed s) {starts starts' : List Nat} {last last' : StructId}
    {o o' : Nat} {t t' : Ty} (hreaches : Reaches s id offset starts last o t)
    (hreaches' : Reaches s id offset starts' last' o' t') :
    starts = starts' ∧ last = last' ∧ o = o' ∧ t = t' := by
  have hways : starts = starts' ∧ last = last' := by
    obtain ⟨hpasses, hsum, l, m, hl, hm, -⟩ := hreaches
    obtain ⟨hpasses', hsum', l', m', hl', hm', -⟩ := hreaches'
    induction hpasses generalizing starts' with
    | stay id offset =>
      cases hpasses' with
      | stay => exact ⟨rfl, rfl⟩
      | into hk hn hbefore hcovers _ _ =>
        cases hl.symm.trans hk
        rw [List.sum_nil, Nat.zero_add] at hsum
        have hdisjoint := (h hl).1.disjoint hn hm (by omega)
        omega
    | into hk hn hbefore hcovers hnested _ ih =>
      rw [List.sum_cons] at hsum
      cases hpasses' with
      | stay =>
        cases hl'.symm.trans hk
        rw [List.sum_nil, Nat.zero_add] at hsum'
        have hdisjoint := (h hl').1.disjoint hn hm' (by omega)
        omega
      | into hk' hn' hbefore' hcovers' hnested' hrest' =>
        cases hk.symm.trans hk'
        rw [List.sum_cons] at hsum'
        have hnear := (h hk).1.nearest hn (Nat.le_of_lt hbefore) hcovers
        have hnear' := (h hk).1.nearest hn' (Nat.le_of_lt hbefore') hcovers'
        cases (Layout.nearest_iff.1 hnear).symm.trans (Layout.nearest_iff.1 hnear')
        cases hnested.symm.trans hnested'
        obtain ⟨rfl, rfl⟩ := ih (by omega) hl hrest' (by omega)
        exact ⟨rfl, rfl⟩
  obtain ⟨rfl, rfl⟩ := hways
  have hsum := hreaches.sum
  have hsum' := hreaches'.sum
  obtain rfl : o = o' := by omega
  obtain ⟨l, m, hl, hm, rfl⟩ := hreaches.member
  obtain ⟨l', m', hl', hm', rfl⟩ := hreaches'.member
  cases hl.symm.trans hl'
  cases hm.symm.trans hm'
  exact ⟨rfl, rfl, rfl, rfl⟩

/-- In a store that lists its structs, as databases and overlays do, where every layout is well
formed and no struct lies at its own start, the search for a member always ends without a fault. It
finds the member at which a way through nested structs ends, each of which is the type of the member
that starts before what is left of the offset and covers it, and nothing if there is no such way;
and there is one way at most. -/
theorem member_found_inside (s : σ) (hs : Lists s) (hwell : WellFormed s)
    (hnested : ¬ Cyclic (nesting s)) (id : StructId) (offset : Nat) :
    (∃ found, (memberStartingAt s id offset).run = .ok found) ∧
    (∀ last o t, (memberStartingAt s id offset).run = .ok (some (⟨last, o⟩, t)) ↔
      ∃ starts, Reaches s id offset starts last o t) ∧
    ∀ starts starts' last last' o o' t t', Reaches s id offset starts last o t →
      Reaches s id offset starts' last' o' t' →
      starts = starts' ∧ last = last' ∧ o = o' ∧ t = t' := by
  refine ⟨?_, fun last o t => ?_, fun _ _ _ _ _ _ _ _ h h' => h.unique hwell h'⟩
  · cases hrun : (memberStartingAt s id offset).run with
    | ok found => exact ⟨found, rfl⟩
    | error fault =>
      have hover := ((memberStartingAt_eq_error hs hwell.keyed hnested).1 hrun).2
      exact absurd hover hwell.not_overruns
  · rw [memberStartingAt_eq_some hs hwell.keyed hnested, hwell.starts_iff]

end TypeStore

theorem Layout.wellFormed_iff_entries {l : Layout} :
    l.WellFormed ↔ ∀ e ∈ l.members.entries, e.2.offset = e.1 ∧ e.1 + e.2.width ≤ l.size ∧
      ∀ e' ∈ l.members.entries, e.1 < e'.1 → e.1 + e.2.width ≤ e'.1 := by
  simp only [Prod.forall, ← Table.get?_eq_some_iff]
  constructor
  · exact fun h a m hm => ⟨h.keyed hm, h.inside hm, fun b n hn => h.disjoint hm hn⟩
  · exact fun h => ⟨fun hm => (h _ _ hm).1, fun hm hn => (h _ _ hm).2.2 _ _ hn,
      fun hm => (h _ _ hm).2.1⟩

instance : DecidablePred Layout.WellFormed :=
  fun _ => decidable_of_iff _ Layout.wellFormed_iff_entries.symm

theorem Database.wellFormed_of_entries {db : Database}
    (h : ∀ e ∈ db.structs.entries, e.2.WellFormed ∧ e.2.size < Word.bound) :
    TypeStore.WellFormed db :=
  fun hl => h _ (Table.get?_eq_some_iff.1 hl)

/-- A struct at the start of another that lies in a third. -/
def Database.nestedTwice : Database where
  structs := .ofList [
    (⟨0⟩, {
      id := ⟨0⟩
      name := "inner"
      members := .ofList [(0, { offset := 0, name := "n", type := .int 4 true, size := 4 }),
        (4, { offset := 4, name := "next", type := .structPointer ⟨0⟩, size := 8 })]
      size := 12 }),
    (⟨1⟩, {
      id := ⟨1⟩
      name := "middle"
      members := .ofList [(0, { offset := 0, name := "first", type := .struct ⟨0⟩, size := 12 }),
        (12, { offset := 12, name := "flag", type := .int 1 false, size := 1 })]
      size := 16 }),
    (⟨2⟩, {
      id := ⟨2⟩
      name := "outer"
      members := .ofList [(8, { offset := 8, name := "second", type := .struct ⟨1⟩, size := 16 })]
      size := 24 })]
  nextId := 3

theorem Database.wellFormed_nestedTwice : TypeStore.WellFormed nestedTwice :=
  wellFormed_of_entries (by decide)

theorem Database.not_cyclic_nestedTwice : ¬ Cyclic (TypeStore.nesting nestedTwice) :=
  not_cyclic_of_lt (by decide)

theorem TypeStore.member_found_inside_nestedTwice :
    Lists Database.nestedTwice ∧ WellFormed Database.nestedTwice ∧
    ¬ Cyclic (nesting Database.nestedTwice) ∧
    Reaches Database.nestedTwice ⟨2⟩ 12 [8, 0] ⟨0⟩ 4 (.structPointer ⟨0⟩) ∧
    (memberStartingAt Database.nestedTwice ⟨2⟩ 12).run =
      .ok (some (⟨⟨0⟩, 4⟩, .structPointer ⟨0⟩)) ∧
    ∀ starts last o t, Reaches Database.nestedTwice ⟨2⟩ 12 starts last o t → starts = [8, 0] := by
  have hs : Lists Database.nestedTwice := Database.lists _
  have hwell : WellFormed Database.nestedTwice := Database.wellFormed_nestedTwice
  have hnested := Database.not_cyclic_nestedTwice
  obtain ⟨-, hfound, hunique⟩ := member_found_inside _ hs hwell hnested ⟨2⟩ 12
  have hreaches : Reaches Database.nestedTwice ⟨2⟩ 12 [8, 0] ⟨0⟩ 4 (.structPointer ⟨0⟩) :=
    { passes := .into rfl rfl (by decide) (by decide) rfl
        (.into rfl rfl (by decide) (by decide) rfl (.stay _ _))
      sum := rfl
      member := ⟨_, _, rfl, rfl, rfl⟩ }
  exact ⟨hs, hwell, hnested, hreaches, (hfound _ _ _).2 ⟨_, hreaches⟩,
    fun _ _ _ _ h => (hunique _ _ _ _ _ _ _ _ h hreaches).1⟩

end TypeRecovery
