import TypeRecovery.Proofs.InnerMembers

/-!
# Shapes of chains

The shape of a chain is what can be told of it without looking at any type: that it gives a pointer
itself, a member behind it, a pointer to such a member, or something beyond. A walk from a pointer
to a struct bears it out. What the walk gives is a matter of the member that starts at the offset of
the shape: if there is one, the rest of the walk starts with its type.
-/
namespace TypeRecovery

namespace TypeStore

variable {σ α : Type} [TypeStore σ] {s : σ}

/-- The result is made of the member that starts at an offset. It is missing where no member does,
and a fault where the way there leaves the range of words. -/
structure HangsOn (s : σ) (id : StructId) (offset : Nat) (x : OptionT Checked α)
    (f : MemberRef → Ty → OptionT Checked α) : Prop where
  found : ∀ r t, Starts s id offset r t → x = f r t
  missing : (∀ r t, ¬ Starts s id offset r t) → ¬ Overruns s id offset → x.run = .ok none
  overflow : Overruns s id offset → x.run = .error (.overflow .add)

theorem hangsOn_of_eq (hs : Lists s) (hkeyed : Keyed s) (hnested : ¬ Cyclic (nesting s))
    {id : StructId} {offset : Nat} {x : OptionT Checked α} {f : MemberRef → Ty → OptionT Checked α}
    (hx : x = memberStartingAt s id offset >>= fun found => f found.1 found.2) :
    HangsOn s id offset x f where
  found r t h := by
    apply OptionT.ext
    rw [hx, Checked.run_optionBind, h.memberStartingAt hs hkeyed hnested]
  missing hstarts hover := by
    rw [hx, Checked.run_optionBind]
    cases hrun : (memberStartingAt s id offset).run with
    | error fault => exact absurd ((memberStartingAt_eq_error hs hkeyed hnested).1 hrun).2 hover
    | ok found =>
      cases found with
      | none => rfl
      | some found =>
        exact absurd ((memberStartingAt_eq_some hs hkeyed hnested).1 hrun) (hstarts _ _)
  overflow h := by
    rw [hx, Checked.run_optionBind, h.memberStartingAt hs hkeyed hnested]

end TypeStore

namespace Chain

variable {c lead rest : Chain} {n k : Nat}

/-- The steps add an offset and do nothing else. -/
def Adds (n : Nat) (lead : Chain) : Prop := lead = [.add n] ∨ n = 0 ∧ lead = []

theorem Adds.isSigned (h : Adds n lead) (hwords : ∀ k, .add k ∈ lead → Word.isSigned k = true) :
    Word.isSigned n = true := by
  rcases h with rfl | ⟨rfl, rfl⟩
  · exact hwords n List.mem_cons_self
  · decide

/-- A chain that has a shape adds an offset first, which may be zero. -/
theorem exists_adds (h : c.shape ≠ .notPointer) :
    ∃ n lead rest, Adds n lead ∧ c = lead ++ rest ∧ c.shape = shapeFrom n rest := by
  match c with
  | .add n :: rest =>
    rw [shape] at h
    split at h
    case isTrue => exact absurd rfl h
    case isFalse hn =>
      have hcast : ((n.toNat : Nat) : Int) = n := Int.toNat_of_nonneg (Int.not_lt.1 hn)
      exact ⟨n.toNat, [.add n], rest, .inl (by rw [hcast]), rfl, by rw [shape, if_neg hn]⟩
  | [] => exact ⟨0, [], [], .inr ⟨rfl, rfl⟩, rfl, rfl⟩
  | .deref :: rest => exact ⟨0, [], .deref :: rest, .inr ⟨rfl, rfl⟩, rfl, rfl⟩
  | .addressOf :: rest => exact ⟨0, [], .addressOf :: rest, .inr ⟨rfl, rfl⟩, rfl, rfl⟩

theorem shapeFrom_eq_value (h : shapeFrom n rest = .value) : n = 0 ∧ rest = [] := by
  fun_cases shapeFrom n rest <;> simp_all [shapeFrom]

theorem shapeFrom_eq_member (h : shapeFrom n rest = .member k) : k = n ∧ rest = [.deref] := by
  fun_cases shapeFrom n rest <;> simp_all [shapeFrom]

theorem shapeFrom_eq_interior (h : shapeFrom n rest = .interior k) :
    k = n ∧ (0 < n ∧ rest = [] ∨ rest = [.deref, .addressOf]) := by
  fun_cases shapeFrom n rest <;> simp_all [shapeFrom]

theorem shapeFrom_eq_through (h : shapeFrom n rest = .through k) :
    k = n ∧ ∃ more, rest = .deref :: more := by
  fun_cases shapeFrom n rest <;> simp_all [shapeFrom]

end Chain

section Walks

variable {σ : Type} [TypeStore σ] {s : σ} {id : StructId} {n : Nat} {lead : Chain}

/-- A pointer to the struct to which an offset has been added. -/
def Cursor.into (id : StructId) (pending : Int) : Cursor := { type := .structPointer id, pending }

theorem Cursor.step_add_into {k : Int} (h : Word.isSigned k = true) :
    (into id 0).step s (.add k) = pure (into id k) := by
  have hadd : (into id 0).add k = some (into id k) := by
    simp [add, into, Ty.structPointer, Ty.isPointer, h]
  rw [step, hadd]
  rfl

theorem Cursor.object_into (id : StructId) (k : Int) :
    OptionT.mk (pure (into id k).type.object?) = (pure (.struct id) : OptionT Checked Ty) := rfl

theorem Cursor.deref_into (n : Nat) : (into id n).deref s = (do
    let found ← memberStartingAt s id n
    return { type := found.2, member := some found.1 }) := by
  have hpending : ¬ (into id n).pending < 0 := Int.not_lt.2 (Int.natCast_nonneg n)
  rw [deref, object_into, pure_bind, if_neg hpending]
  rfl

theorem Cursor.finish_into (hn : 0 < n) : (into id n).finish s = (do
    let found ← memberStartingAt s id n
    return { type := .pointer found.2, member := some found.1 }) := by
  have hpointee : OptionT.mk (pure ((into id n).type.pointee?.bind Ty.structId?)) =
      (pure id : OptionT Checked StructId) := rfl
  have hpending : (into id n).pending ≠ 0 := Int.natCast_ne_zero.2 (Nat.ne_of_gt hn)
  have hpos : ¬ (into id n).pending < 0 := Int.not_lt.2 (Int.natCast_nonneg n)
  rw [finish, if_neg hpending, if_neg hpos, hpointee]
  rfl

theorem Cursor.into_of_neg (s : σ) (id : StructId) {k : Int} (h : k < 0) :
    ((into id k).deref s).run = .ok none ∧ ((into id k).finish s).run = .ok none := by
  have hneg : (into id k).pending < 0 := h
  constructor
  · rw [deref, object_into, pure_bind, if_pos hneg]
    rfl
  · rw [finish, if_neg (Int.ne_of_lt hneg), if_pos hneg]
    rfl

namespace Chain

theorem foldlM_adds (h : Adds n lead) (hword : Word.isSigned n = true) (s : σ) (id : StructId) :
    lead.foldlM (Cursor.step s) (Cursor.into id 0) = pure (Cursor.into id n) := by
  rcases h with rfl | ⟨rfl, rfl⟩
  · rw [List.foldlM_cons, Cursor.step_add_into hword, pure_bind, List.foldlM_nil]
  · rfl

theorem walk_adds (h : Adds n lead) (hword : Word.isSigned n = true) (rest : Chain) :
    walk s (lead ++ rest) (.structPointer id) =
      (do let c ← rest.foldlM (Cursor.step s) (Cursor.into id n); c.finish s) := by
  have hstart : ({ type := .structPointer id } : Cursor) = Cursor.into id 0 := rfl
  rw [walk, hstart, List.foldlM_append, foldlM_adds h hword, pure_bind]

theorem walk_deref (h : Adds n lead) (hword : Word.isSigned n = true) :
    walk s (lead ++ [.deref]) (.structPointer id) = (do
      let found ← memberStartingAt s id n
      return { type := found.2, member := some found.1 }) := by
  have hstep : Cursor.step s (Cursor.into id n) .deref = (Cursor.into id n).deref s := rfl
  rw [walk_adds h hword, List.foldlM_cons, hstep, Cursor.deref_into]
  simp only [List.foldlM_nil, bind_assoc, pure_bind]
  rfl

theorem walk_through (h : Adds n lead) (hword : Word.isSigned n = true) (rest : Chain) :
    walk s (lead ++ .deref :: rest) (.structPointer id) = (do
      let found ← memberStartingAt s id n
      let target ← rest.walk s found.2
      return { target with member :=
        if .deref ∈ rest ∨ rest.pending ≠ 0 then target.member else some found.1 }) := by
  have hsplit : lead ++ .deref :: rest = (lead ++ [.deref]) ++ rest := by simp
  rw [hsplit, walk_append (by simp), walk_deref h hword]
  simp only [bind_assoc, pure_bind]

theorem walk_interior {rest : Chain} (h : Adds n lead) (hword : Word.isSigned n = true)
    (hrest : 0 < n ∧ rest = [] ∨ rest = [.deref, .addressOf]) :
    walk s (lead ++ rest) (.structPointer id) = (do
      let found ← memberStartingAt s id n
      return { type := .pointer found.2, member := some found.1 }) := by
  rcases hrest with ⟨hpos, rfl⟩ | rfl
  · rw [walk_adds h hword, List.foldlM_nil, pure_bind, Cursor.finish_into hpos]
  · have haddress : ∀ t, walk s [.addressOf] t = pure { type := .pointer t, member := none } :=
      fun _ => rfl
    have hpending : pending [.addressOf] = 0 := rfl
    rw [walk_through h hword]
    simp [haddress, hpending]

theorem walk_of_neg {k : Int} {rest : Chain} (hk : k < 0) (hword : Word.isSigned k = true)
    (hrest : rest = [] ∨ ∃ more, rest = .deref :: more) :
    (walk s (.add k :: rest) (.structPointer id)).run = .ok none := by
  have hstart : ({ type := .structPointer id } : Cursor) = Cursor.into id 0 := rfl
  obtain ⟨hderef, hfinish⟩ := Cursor.into_of_neg s id hk
  rw [walk, hstart, List.foldlM_cons, Cursor.step_add_into hword, pure_bind]
  rcases hrest with rfl | ⟨more, rfl⟩
  · exact hfinish
  · rw [List.foldlM_cons, bind_assoc]
    exact Checked.optionBind_eq_none.2 (.inl hderef)

/-- Along a chain of signed words, a walk from a pointer to a struct does what the shape of the
chain says. The pointer itself is given without a member. A member, or a pointer to it however it is
written, is the one that starts at the offset, in the struct or in one nested in it; beyond it, the
rest of the chain is walked from its type, and it stays the member unless the rest has a dereference
or leaves an offset over. Where no member starts, the walk fails, as it does at a negative offset;
where one on the way ends beyond the range of words, it overflows. -/
theorem walk_of_shape (s : σ) (hs : TypeStore.Lists s) (hkeyed : TypeStore.Keyed s)
    (hnested : ¬ Cyclic (TypeStore.nesting s)) (id : StructId) (c : Chain)
    (hwords : ∀ k, .add k ∈ c → Word.isSigned k = true) :
    (c.shape = .value → (c.walk s (.structPointer id)).run =
      .ok (some { type := .structPointer id, member := none })) ∧
    (∀ n, c.shape = .member n → TypeStore.HangsOn s id n (c.walk s (.structPointer id))
      fun r t => pure { type := t, member := some r }) ∧
    (∀ n, c.shape = .interior n → TypeStore.HangsOn s id n (c.walk s (.structPointer id))
      fun r t => pure { type := .pointer t, member := some r }) ∧
    (∀ n, c.shape = .through n → ∃ rest : Chain,
      (c = .add n :: .deref :: rest ∨ n = 0 ∧ c = .deref :: rest) ∧
      TypeStore.HangsOn s id n (c.walk s (.structPointer id)) fun r t => do
        let target ← rest.walk s t
        return { target with member :=
          if .deref ∈ rest ∨ rest.pending ≠ 0 then target.member else some r }) ∧
    ∀ k rest, k < 0 → c = .add k :: rest → (rest = [] ∨ ∃ more, rest = .deref :: more) →
      c.shape = .notPointer ∧ (c.walk s (.structPointer id)).run = .ok none := by
  have hlead : c.shape ≠ .notPointer → ∃ n lead rest, Adds n lead ∧ Word.isSigned n = true ∧
      c = lead ++ rest ∧ c.shape = shapeFrom n rest := by
    intro h
    obtain ⟨n, lead, rest, hadds, rfl, hshape⟩ := exists_adds h
    have hword := hadds.isSigned fun k hk => hwords k (List.mem_append_left _ hk)
    exact ⟨n, lead, rest, hadds, hword, rfl, hshape⟩
  refine ⟨fun h => ?_, fun n h => ?_, fun n h => ?_, fun n h => ?_, ?_⟩
  · obtain ⟨n, lead, rest, hadds, hword, rfl, hshape⟩ := hlead (by simp [h])
    obtain ⟨rfl, rfl⟩ := shapeFrom_eq_value (hshape.symm.trans h)
    rw [walk_adds hadds hword]
    rfl
  · obtain ⟨n, lead, rest, hadds, hword, rfl, hshape⟩ := hlead (by simp [h])
    obtain ⟨rfl, rfl⟩ := shapeFrom_eq_member (hshape.symm.trans h)
    exact TypeStore.hangsOn_of_eq hs hkeyed hnested (walk_deref hadds hword)
  · obtain ⟨n, lead, rest, hadds, hword, rfl, hshape⟩ := hlead (by simp [h])
    obtain ⟨rfl, hrest⟩ := shapeFrom_eq_interior (hshape.symm.trans h)
    exact TypeStore.hangsOn_of_eq hs hkeyed hnested (walk_interior hadds hword hrest)
  · obtain ⟨n, lead, rest, hadds, hword, rfl, hshape⟩ := hlead (by simp [h])
    obtain ⟨rfl, more, rfl⟩ := shapeFrom_eq_through (hshape.symm.trans h)
    refine ⟨more, ?_, TypeStore.hangsOn_of_eq hs hkeyed hnested (walk_through hadds hword more)⟩
    rcases hadds with rfl | ⟨rfl, rfl⟩
    · exact .inl rfl
    · exact .inr ⟨rfl, rfl⟩
  · rintro k rest hk rfl hrest
    exact ⟨if_pos hk, walk_of_neg hk (hwords k List.mem_cons_self) hrest⟩

/-- A member two structs down, a pointer to it written in both ways, the member that it points to,
and an offset below the struct. -/
theorem walk_of_shape_nestedTwice :
    TypeStore.Lists Database.nestedTwice ∧ TypeStore.Keyed Database.nestedTwice ∧
    ¬ Cyclic (TypeStore.nesting Database.nestedTwice) ∧
    TypeStore.Starts Database.nestedTwice ⟨2⟩ 12 ⟨⟨0⟩, 4⟩ (.structPointer ⟨0⟩) ∧
    (walk Database.nestedTwice [.add 0] (.structPointer ⟨2⟩)).run =
      .ok (some { type := .structPointer ⟨2⟩, member := none }) ∧
    (walk Database.nestedTwice [.add 12, .deref] (.structPointer ⟨2⟩)).run =
      .ok (some { type := .structPointer ⟨0⟩, member := some ⟨⟨0⟩, 4⟩ }) ∧
    (walk Database.nestedTwice [.add 12] (.structPointer ⟨2⟩)).run =
      .ok (some { type := .pointer (.structPointer ⟨0⟩), member := some ⟨⟨0⟩, 4⟩ }) ∧
    (walk Database.nestedTwice [.add 12, .deref, .addressOf] (.structPointer ⟨2⟩)).run =
      .ok (some { type := .pointer (.structPointer ⟨0⟩), member := some ⟨⟨0⟩, 4⟩ }) ∧
    (walk Database.nestedTwice [.add 12, .deref, .deref] (.structPointer ⟨2⟩)).run =
      .ok (some { type := .int 4 true, member := some ⟨⟨0⟩, 0⟩ }) ∧
    (walk Database.nestedTwice [.add (-4), .deref] (.structPointer ⟨2⟩)).run = .ok none := by
  have hs : TypeStore.Lists Database.nestedTwice := Database.lists _
  have hkeyed : TypeStore.Keyed Database.nestedTwice := Database.wellFormed_nestedTwice.keyed
  have hnested := Database.not_cyclic_nestedTwice
  have hwalk := walk_of_shape _ hs hkeyed hnested ⟨2⟩
  have hstarts : TypeStore.Starts Database.nestedTwice ⟨2⟩ 12 ⟨⟨0⟩, 4⟩ (.structPointer ⟨0⟩) :=
    (TypeStore.memberStartingAt_eq_some hs hkeyed hnested).1 rfl
  refine ⟨hs, hkeyed, hnested, hstarts, ?_, ?_, ?_, ?_, ?_, ?_⟩
  · exact (hwalk _ (by simp +decide)).1 rfl
  · exact congrArg OptionT.run (((hwalk _ (by simp +decide)).2.1 12 rfl).found _ _ hstarts)
  · exact congrArg OptionT.run (((hwalk _ (by simp +decide)).2.2.1 12 rfl).found _ _ hstarts)
  · exact congrArg OptionT.run (((hwalk _ (by simp +decide)).2.2.1 12 rfl).found _ _ hstarts)
  · obtain ⟨rest, hrest, hhangs⟩ :=
      (hwalk [.add 12, .deref, .deref] (by simp +decide)).2.2.2.1 12 rfl
    obtain rfl : [.deref] = rest := by simpa using hrest
    exact congrArg OptionT.run (hhangs.found _ _ hstarts)
  · exact ((hwalk _ (by simp +decide)).2.2.2.2 (-4) [.deref] (by decide) rfl (.inr ⟨[], rfl⟩)).2

/-- A member that starts where the shape says, but ends beyond the range of words. -/
theorem wide_member_overflows :
    let node : Layout := {
      id := ⟨0⟩
      name := "node"
      members := .ofList [(8,
        { offset := 8, name := "tail", type := .int 8 false, size := 18446744073709551615 })]
      size := 16 }
    let db : Database := { structs := .ofList [(⟨0⟩, node)], nextId := 1 }
    TypeStore.Keyed db ∧ ¬ Cyclic (TypeStore.nesting db) ∧
    TypeStore.layout? db ⟨0⟩ = some node ∧ (node.members.get? 8).isSome = true ∧
    shape [.add 8, .deref] = .member 8 ∧
    (walk db [.add 8, .deref] (.structPointer ⟨0⟩)).run = .error (.overflow .add) :=
  ⟨Database.keyed_of_entries (by decide), not_cyclic_of_lt (by decide), rfl, rfl, rfl, rfl⟩

end Chain
end Walks
end TypeRecovery
