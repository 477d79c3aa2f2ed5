import TypeRecovery.Proofs.Containment

/-!
# Walks in parts

A walk along a chain carries three things from step to step: a type, the member that was landed on
last, and the offset added since. Where no offset is pending, only the type matters to what follows:
the rest of the chain is walked from it as from the type of any other value. The member from before
is forgotten at the next dereference, and replaced if an offset is left over at the end; otherwise
it is still the one that counts.
-/
namespace TypeRecovery

namespace Checked

variable {α β : Type} {x : OptionT Checked α} {f g : α → OptionT Checked β}

theorem pure_ne_error {a : α} {fault : Fault} : (pure a : Checked α) ≠ .error fault := nofun

theorem run_optionBind : (x >>= f).run = match x.run with
    | .ok (some a) => (f a).run
    | .ok none => .ok none
    | .error fault => .error fault := by
  have hbind : (x >>= f).run = x.run >>= fun found => match found with
      | some a => (f a).run
      | none => pure none := rfl
  rw [hbind]
  cases x.run with
  | error fault => rfl
  | ok found => cases found <;> rfl

theorem optionBind_congr (h : ∀ a, x.run = .ok (some a) → f a = g a) : x >>= f = x >>= g := by
  apply OptionT.ext
  rw [run_optionBind, run_optionBind]
  split
  case h_1 a hx => rw [h a hx]
  all_goals rfl

theorem optionBind_eq_some {b : β} : (x >>= f).run = .ok (some b) ↔
    ∃ a, x.run = .ok (some a) ∧ (f a).run = .ok (some b) := by
  rw [run_optionBind]
  split <;> simp_all

theorem optionBind_eq_none : (x >>= f).run = .ok none ↔
    x.run = .ok none ∨ ∃ a, x.run = .ok (some a) ∧ (f a).run = .ok none := by
  rw [run_optionBind]
  split <;> simp_all

theorem optionBind_eq_error {fault : Fault} : (x >>= f).run = .error fault ↔
    x.run = .error fault ∨ ∃ a, x.run = .ok (some a) ∧ (f a).run = .error fault := by
  rw [run_optionBind]
  split <;> simp_all

end Checked

namespace Chain

/-- The offset that is pending after some more steps. -/
def pendingFrom : Int → Chain → Int
  | pending, [] => pending
  | pending, .add n :: rest => pendingFrom (pending + n) rest
  | _, .deref :: rest => pendingFrom 0 rest
  | pending, .addressOf :: rest => pendingFrom pending rest

/-- The offset that a chain adds after its last dereference. -/
def pending (chain : Chain) : Int := pendingFrom 0 chain

end Chain

section Steps

variable {σ : Type} [TypeStore σ] {s : σ} {c d : Cursor}

namespace Cursor

theorem add_eq_some {n : Int} (h : c.add n = some d) : d = { c with pending := c.pending + n } := by
  unfold add at h
  split at h
  · exact (Option.some.inj h).symm
  · cases h

theorem addressOf_eq_some (h : c.addressOf = some d) :
    c.pending = 0 ∧ d = { c with type := .pointer c.type } := by
  unfold addressOf at h
  split at h
  case isTrue hzero => exact ⟨hzero, (Option.some.inj h).symm⟩
  case isFalse => cases h

theorem pending_of_deref (h : (c.deref s).run = .ok (some d)) : d.pending = 0 := by
  obtain ⟨target, _, h⟩ := Checked.optionBind_eq_some.1 h
  dsimp only at h
  split at h
  · obtain ⟨_, hfail, _⟩ := Checked.optionBind_eq_some.1 h
    cases hfail
  · split at h
    · obtain ⟨_, _, h⟩ := Checked.optionBind_eq_some.1 h
      cases h
      rfl
    · obtain ⟨_, _, h⟩ := Checked.optionBind_eq_some.1 h
      split at h
      · obtain ⟨_, hfail, _⟩ := Checked.optionBind_eq_some.1 h
        cases hfail
      · cases h
        rfl

/-- The cursor with another member. -/
def carrying (c : Cursor) (member : Option MemberRef) : Cursor := { c with member }

theorem add_carrying (n : Int) (member : Option MemberRef) :
    (c.carrying member).add n = (c.add n).map (·.carrying member) := by
  unfold add
  by_cases h : (c.type.isPointer && Word.isSigned (c.pending + n)) = true <;> simp [carrying, h]

theorem addressOf_carrying (member : Option MemberRef) :
    (c.carrying member).addressOf = c.addressOf.map (·.carrying member) := by
  unfold addressOf
  by_cases h : c.pending = 0 <;> simp [carrying, h]

theorem step_carrying {step : UseStep} (hstep : step ≠ .deref) (member : Option MemberRef) :
    (c.carrying member).step s step = (·.carrying member) <$> c.step s step := by
  cases step with
  | deref => exact absurd rfl hstep
  | add n =>
    rw [step, add_carrying, step]
    cases c.add n <;> rfl
  | addressOf =>
    rw [step, addressOf_carrying, step]
    cases c.addressOf <;> rfl

theorem finish_of_pending_eq_zero (h : c.pending = 0) :
    c.finish s = pure { type := c.type, member := c.member } := by
  rw [finish, if_pos h]

theorem finish_carrying (h : c.pending ≠ 0) (member : Option MemberRef) :
    (c.carrying member).finish s = c.finish s := by
  have hcarrying : (c.carrying member).pending ≠ 0 := h
  rw [finish, if_neg hcarrying, finish, if_neg h]
  rfl

end Cursor

namespace Chain

open Checked (optionBind_congr optionBind_eq_some)

theorem pending_of_foldlM {chain : Chain} (h : (chain.foldlM (Cursor.step s) c).run = .ok (some d)) :
    d.pending = chain.pendingFrom c.pending := by
  induction chain generalizing c with
  | nil =>
    cases h
    rfl
  | cons step rest ih =>
    rw [List.foldlM_cons] at h
    obtain ⟨next, hstep, hrest⟩ := optionBind_eq_some.1 h
    rw [ih hrest]
    cases step with
    | add n => rw [Cursor.add_eq_some (Except.ok.inj hstep), pendingFrom]
    | deref => rw [Cursor.pending_of_deref hstep, pendingFrom]
    | addressOf => rw [(Cursor.addressOf_eq_some (Except.ok.inj hstep)).2, pendingFrom]

theorem pending_eq_zero {chain : Chain} (hchain : ∀ n, chain.getLast? ≠ some (.add n))
    (hc : c.pending = 0) (h : (chain.foldlM (Cursor.step s) c).run = .ok (some d)) :
    d.pending = 0 := by
  rcases List.eq_nil_or_concat chain with rfl | ⟨init, last, rfl⟩
  · cases h
    exact hc
  · rw [List.concat_eq_append] at h hchain
    rw [List.foldlM_append] at h
    obtain ⟨before, _, hlast⟩ := optionBind_eq_some.1 h
    rw [List.foldlM_cons] at hlast
    obtain ⟨after, hstep, hnil⟩ := optionBind_eq_some.1 hlast
    cases hnil
    cases last with
    | add n => exact absurd (by simp) (hchain n)
    | deref => exact Cursor.pending_of_deref hstep
    | addressOf =>
      obtain ⟨hzero, rfl⟩ := Cursor.addressOf_eq_some (Except.ok.inj hstep)
      exact hzero

theorem foldlM_carrying {chain : Chain} (hchain : .deref ∉ chain) (member : Option MemberRef) :
    chain.foldlM (Cursor.step s) (c.carrying member) =
      (·.carrying member) <$> chain.foldlM (Cursor.step s) c := by
  induction chain generalizing c with
  | nil => rfl
  | cons step rest ih =>
    rw [List.mem_cons, not_or] at hchain
    rw [List.foldlM_cons, List.foldlM_cons, Cursor.step_carrying (Ne.symm hchain.1), map_bind,
      bind_map_left]
    congr 1
    funext next
    exact ih hchain.2

theorem foldlM_carrying_of_deref {chain : Chain} (hchain : .deref ∈ chain)
    (member : Option MemberRef) :
    chain.foldlM (Cursor.step s) (c.carrying member) = chain.foldlM (Cursor.step s) c := by
  induction chain generalizing c with
  | nil => cases hchain
  | cons step rest ih =>
    rw [List.foldlM_cons, List.foldlM_cons]
    by_cases hstep : step = .deref
    · rw [hstep]
      rfl
    · have hrest : .deref ∈ rest := (List.mem_cons.1 hchain).resolve_left (Ne.symm hstep)
      rw [Cursor.step_carrying hstep, bind_map_left]
      congr 1
      funext next
      exact ih hrest

/-- The second part is walked from the type that the first part reaches. Its member counts if it
lands on one, even on none at all. -/
theorem walk_append {first : Chain} (hfirst : ∀ n, first.getLast? ≠ some (.add n)) (rest : Chain)
    (start : Ty) : (first ++ rest).walk s start = (do
      let reached ← first.walk s start
      let target ← rest.walk s reached.type
      return { target with member :=
        if .deref ∈ rest ∨ rest.pending ≠ 0 then target.member else reached.member }) := by
  simp only [walk, List.foldlM_append, bind_assoc]
  apply optionBind_congr
  intro c hc
  have hzero : c.pending = 0 := pending_eq_zero hfirst rfl hc
  have hcarried : c = Cursor.carrying { type := c.type } c.member := by
    cases c
    simp_all [Cursor.carrying]
  rw [Cursor.finish_of_pending_eq_zero hzero, pure_bind]
  by_cases hderef : .deref ∈ rest
  · conv_lhs => rw [hcarried, foldlM_carrying_of_deref hderef]
    simp [hderef]
  · conv_lhs => rw [hcarried, foldlM_carrying hderef, bind_map_left]
    apply optionBind_congr
    intro d hd
    have hpending : d.pending = rest.pending := pending_of_foldlM hd
    by_cases hleft : rest.pending = 0
    · rw [Cursor.finish_of_pending_eq_zero (hpending.trans hleft),
        Cursor.finish_of_pending_eq_zero (c := d.carrying c.member) (hpending.trans hleft), pure_bind]
      simp [hderef, hleft, Cursor.carrying]
    · rw [Cursor.finish_carrying (by rwa [hpending])]
      simp [hleft]

end Chain
end Steps

theorem not_cyclic_of_lt {nesting : List (Nat × Nat)} (h : ∀ p ∈ nesting, p.2 < p.1) :
    ¬ Cyclic nesting := by
  rintro ⟨a, hcircle⟩
  have hlt : ∀ {a b}, Relation.TransGen (fun a b => (a, b) ∈ nesting) a b → b < a := by
    intro a b hpath
    induction hpath with
    | single hstep => exact h _ hstep
    | tail _ hstep ih => exact Nat.lt_trans (h _ hstep) ih
  exact Nat.lt_irrefl a (hlt hcircle)

namespace TypeStore

variable {σ : Type} [TypeStore σ] {s : σ}

/-- Every layout keeps its members under their own offsets. -/
def Keyed (s : σ) : Prop :=
  ∀ {id l a m}, layout? s id = some l → l.members.get? a = some m → m.offset = a

theorem Keyed.offset_le (hs : Keyed s) {id : StructId} {l : Layout} {offset : Nat} {m : Member}
    (hl : layout? s id = some l) (h : l.memberAt offset = .ok (some m)) : m.offset ≤ offset := by
  rcases Layout.memberAt_eq_ok h with ⟨_, hfound⟩ | ⟨a, n, hfloor, _, hfound⟩
  · cases hfound
  · split at hfound
    · cases hfound
      obtain ⟨hm, hle, _⟩ := Table.of_floor?_eq_some hfloor
      rwa [hs hl hm]
    · cases hfound

end TypeStore

theorem Database.lists (db : Database) : TypeStore.Lists db := by
  intro id l hl
  exact Table.mem_keys_iff.2 (Table.contains_of_get? hl)

theorem Database.keyed_of_entries {db : Database}
    (h : ∀ e ∈ db.structs.entries, ∀ p ∈ e.2.members.entries, p.2.offset = p.1) :
    TypeStore.Keyed db := by
  intro id l a m hl hm
  exact h _ (Table.get?_eq_some_iff.1 hl) _ (Table.get?_eq_some_iff.1 hm)

/-- With every member under its own offset, the offset inside a member is never negative. -/
theorem Chain.stops_walk_keyed {σ : Type} [TypeStore σ] {s : σ} (hs : TypeStore.Lists s)
    (hkeyed : TypeStore.Keyed s) (hnested : ¬ Cyclic (TypeStore.nesting s)) (chain : Chain)
    (start : Ty) : Checked.Stops (fun fault => fault = .overflow .add ∨ fault = .overflow .multiply)
      (chain.walk s start).run := by
  refine chain.stops_walk_of (stops_memberStartingAt hs (fun h => absurd h hnested) (.inl rfl) ?_)
    (Ty.stops_sizeWith_of (.inr rfl) _ _) start
  intro id l m offset hl hm fault hfault
  have hle := hkeyed.offset_le hl hm
  have hsub := Word.sub_eq_ok_iff.2 ⟨hle, rfl⟩
  rw [hfault] at hsub
  cases hsub

namespace Chain

open Checked (optionBind_eq_none optionBind_eq_some optionBind_eq_error)

/-- In a database without circles whose members stand under their own offsets, a chain of two parts,
the first of which does not end with an addition, is walked part by part. The walk fails where one
of its parts does. Otherwise it reaches the type that the second part reaches from where the first
one ends, on the member of the second part if that has a dereference or leaves an offset over, and
else on the member of the first. It stops without an answer only where a part does, at a number that
is too large. -/
theorem walk_in_parts (db : Database) (hkeyed : TypeStore.Keyed db)
    (hnested : ¬ Cyclic (TypeStore.nesting db)) (start : Ty) (first rest : Chain)
    (hfirst : ∀ n, first.getLast? ≠ some (.add n)) :
    (((first ++ rest).walk db start).run = .ok none ↔
      (first.walk db start).run = .ok none ∨
      ∃ reached, (first.walk db start).run = .ok (some reached) ∧
        (rest.walk db reached.type).run = .ok none) ∧
    (∀ found : ChainTarget, ((first ++ rest).walk db start).run = .ok (some found) ↔
      ∃ reached target, (first.walk db start).run = .ok (some reached) ∧
        (rest.walk db reached.type).run = .ok (some target) ∧ found.type = target.type ∧
        found.member = if .deref ∈ rest ∨ rest.pending ≠ 0 then target.member else reached.member) ∧
    (∀ fault, ((first ++ rest).walk db start).run = .error fault ↔
      (first.walk db start).run = .error fault ∨
      ∃ reached, (first.walk db start).run = .ok (some reached) ∧
        (rest.walk db reached.type).run = .error fault) ∧
    ∀ fault, ((first ++ rest).walk db start).run = .error fault →
      fault = .overflow .add ∨ fault = .overflow .multiply := by
  have hends := stops_walk_keyed db.lists hkeyed hnested (first ++ rest) start
  rw [walk_append hfirst] at hends ⊢
  refine ⟨?_, fun found => ?_, fun fault => ?_, hends⟩
  · simp only [optionBind_eq_none]
    simp [Checked.pure_eq_ok]
  · simp only [optionBind_eq_some]
    constructor
    · rintro ⟨reached, hreached, target, htarget, hfound⟩
      cases hfound
      exact ⟨reached, target, hreached, htarget, rfl, rfl⟩
    · rintro ⟨reached, target, hreached, htarget, htype, hmember⟩
      refine ⟨reached, hreached, target, htarget, ?_⟩
      rw [← htype, ← hmember]
      rfl
  · simp only [optionBind_eq_error]
    simp [Checked.pure_ne_error]

/-- One member of a struct lies in another struct, and points back to it. -/
theorem walk_in_parts_nested :
    let inner : Layout := {
      id := ⟨0⟩
      name := "inner"
      members := .ofList [(0, { offset := 0, name := "n", type := .int 4 true, size := 4 }),
        (4, { offset := 4, name := "next", type := .structPointer ⟨0⟩, size := 8 })]
      size := 12 }
    let outer : Layout := {
      id := ⟨1⟩
      name := "outer"
      members := .ofList [(0, { offset := 0, name := "first", type := .struct ⟨0⟩, size := 12 })]
      size := 12 }
    let db : Database := { structs := .ofList [(⟨0⟩, inner), (⟨1⟩, outer)], nextId := 2 }
    TypeStore.Keyed db ∧ ¬ Cyclic (TypeStore.nesting db) ∧
    (walk db ([.add 4, .deref] ++ [.add 4, .deref]) (.structPointer ⟨1⟩)).run =
      .ok (some { type := .structPointer ⟨0⟩, member := some ⟨⟨0⟩, 4⟩ }) ∧
    (walk db ([.add 4, .deref] ++ [.addressOf]) (.structPointer ⟨1⟩)).run =
      .ok (some { type := .pointer (.structPointer ⟨0⟩), member := some ⟨⟨0⟩, 4⟩ }) ∧
    (walk db ([.add 4, .deref] ++ [.add 2, .deref]) (.structPointer ⟨1⟩)).run = .ok none := by
  intro inner outer db
  have hkeyed : TypeStore.Keyed db := Database.keyed_of_entries (by decide)
  have hnested : ¬ Cyclic (TypeStore.nesting db) := not_cyclic_of_lt (by decide)
  have hparts := fun rest => walk_in_parts db hkeyed hnested (.structPointer ⟨1⟩) [.add 4, .deref]
    rest (by simp)
  have hfirst : (walk db [.add 4, .deref] (.structPointer ⟨1⟩)).run =
      .ok (some { type := .structPointer ⟨0⟩, member := some ⟨⟨0⟩, 4⟩ }) := rfl
  refine ⟨hkeyed, hnested, ?_, ?_, ?_⟩
  · exact ((hparts _).2.1 _).2 ⟨_, _, hfirst, rfl, rfl, rfl⟩
  · exact ((hparts _).2.1 _).2 ⟨_, _, hfirst, rfl, rfl, rfl⟩
  · exact (hparts _).1.2 (.inr ⟨_, hfirst, rfl⟩)

end Chain
end TypeRecovery
