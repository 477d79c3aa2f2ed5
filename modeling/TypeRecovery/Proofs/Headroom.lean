import Mathlib.Algebra.BigOperators.Group.Finset.Basic
import Mathlib.Algebra.GroupWithZero.Nat
import Mathlib.Algebra.Order.BigOperators.Group.Finset
import TypeRecovery.Proofs.Extents
import TypeRecovery.Proofs.Reports

/-!
# Room for all that is found

A struct that is placed in another makes that one larger, and it may be placed again once it has
grown itself, so no bound on the inputs alone bounds the sizes of structs. But every merge is due to
a use of a variable, and there are only so many occasions for it: when the type of the variable is
settled, when the uses that were open then are looked at again, and when the variable adopts a type.
`Session.potential` counts the occasions that are left, and `Session.Spare` says that there is room
for as many merges, each of which raises the bounds by the reach of a use.
-/
namespace TypeRecovery

/-- The variables that a function uses, one for each use. -/
def FunctionBody.useSites (body : FunctionBody) : List Variable :=
  body.reads.map (·.var) ++ body.writes.map (·.var) ++ body.casts.map (·.var)

theorem FunctionBody.size_usesOf (body : FunctionBody) (var : Variable) :
    (body.usesOf var).size = body.useSites.count var := by
  have hcount : ∀ {α : Type} (f : α → Variable) (xs : List α),
      (xs.filter (f · = var)).length = (xs.map f).count var := by
    intro α f xs
    rw [List.count_eq_countP, List.countP_map, List.countP_eq_length_filter]
    rfl
  simp only [Uses.size, usesOf, castsOf, useSites, List.count_append, hcount]

namespace Program

variable (p : Program) (var : Variable)

def useSites : List Variable := p.functions.values.flatMap FunctionBody.useSites

/-- The number of uses of a variable in one function. -/
def usesIn (function : Nat) : Nat :=
  ((p.function? function).map fun body => (body.usesOf var).size).getD 0

variable {p var}

theorem usesIn_eq {function : Nat} {body : FunctionBody} (h : p.function? function = some body) :
    p.usesIn var function = (body.usesOf var).size := by
  simp [usesIn, h]

theorem sum_usesIn_keys : (p.functions.keys.map (p.usesIn var)).sum = p.useSites.count var := by
  have hentry : ∀ e ∈ p.functions.entries, p.usesIn var e.1 = e.2.useSites.count var := by
    intro e he
    rw [usesIn_eq (Table.get?_eq_some_iff.2 he), FunctionBody.size_usesOf]
  simp only [Table.keys, useSites, Table.values, List.map_map, List.count_flatMap]
  exact congrArg List.sum (List.map_congr_left hentry)

theorem sum_usesIn_le {functions : List Nat} (h : functions.Nodup) :
    (functions.map (p.usesIn var)).sum ≤ p.useSites.count var := by
  rw [← sum_usesIn_keys, ← List.sum_toFinset _ h, ← List.sum_toFinset _ p.functions.keys_nodup]
  refine Finset.sum_le_sum_of_ne_zero fun function _ hne => ?_
  rw [List.mem_toFinset, Table.mem_keys_iff]
  by_contra hnone
  refine hne ?_
  simp [usesIn, function?, Table.contains_eq_false_iff.1 (Bool.not_eq_true _ ▸ hnone)]

theorem nodup_usersOf : (p.usersOf var).Nodup := by
  cases var with
  | «local» function slot => exact List.nodup_singleton function
  | global address => exact Table.keys_nodup _

theorem sum_usersOf_le : ((p.usersOf var).map (p.usesIn var)).sum ≤ p.useSites.count var :=
  sum_usesIn_le nodup_usersOf

theorem size_usesOf_le {function : Nat} {body : FunctionBody}
    (h : p.function? function = some body) (slot : Nat) :
    (body.usesOf (.local function slot)).size ≤ p.useSites.count (.local function slot) := by
  have hle : ((p.usersOf (.local function slot)).map _).sum ≤ _ := sum_usersOf_le
  simpa [usersOf, usesIn_eq h] using hle

end Program

/-- The numbers in a function body are within the bounds. -/
@[mk_iff]
structure FunctionBody.Bounded (m : Margins) (body : FunctionBody) : Prop where
  reads : ∀ r ∈ body.reads, Chain.Bounded m r.chain
  writes : ∀ w ∈ body.writes, Chain.Bounded m w.chain ∧ w.value.Bounded m
  casts : ∀ k ∈ body.casts, Chain.Bounded m k.chain

instance (m : Margins) (body : FunctionBody) : Decidable (body.Bounded m) :=
  decidable_of_iff' _ (FunctionBody.bounded_iff m body)

def Program.Bounded (m : Margins) (p : Program) : Prop :=
  ∀ body ∈ p.functions.values, body.Bounded m

instance (m : Margins) (p : Program) : Decidable (p.Bounded m) :=
  inferInstanceAs (Decidable (∀ body ∈ p.functions.values, body.Bounded m))

theorem Program.Bounded.body {m : Margins} {p : Program} (h : p.Bounded m) {function : Nat}
    {body : FunctionBody} (hbody : p.function? function = some body) : body.Bounded m :=
  h body (List.mem_map_of_mem (Table.get?_eq_some_iff.1 hbody))

/-- The numbers in a database are within the bounds. -/
@[mk_iff]
structure Database.Bounded (m : Margins) (db : Database) : Prop where
  layouts : ∀ l ∈ db.structs.values, l.Bounded m m.extent
  declared : ∀ t ∈ db.declared.values, t.Bounded m

instance (m : Margins) (db : Database) : Decidable (db.Bounded m) :=
  decidable_of_iff' _ (Database.bounded_iff m db)

theorem Database.Bounded.overlay {m : Margins} (h : m.db.Bounded m) :
    (Overlay.ofDatabase m.db).Bounded m m.extent m.db.nextId where
  extent := Nat.le_refl _
  pointer := rfl
  counter := Nat.le_refl _
  next := Nat.max_le.2 ⟨Nat.le_refl _, Nat.le_refl _⟩
  settled hl _ := ⟨hl, rfl⟩
  layout hl := h.layouts _ (List.mem_map_of_mem (Table.get?_eq_some_iff.1 hl))
  declared ht := h.declared _ (List.mem_map_of_mem (Table.get?_eq_some_iff.1 ht))

namespace Session

/-- What each use of a variable may still bring about: as long as the variable has no entry, a new
struct and three merges, and once it has one of unknown type, one merge. -/
def stake (s : Session) (var : Variable) : Nat :=
  match s.vars.get? var with
  | none => 4
  | some r => if r.type.isUnknown then 1 else 0

def potential (c : Context) (s : Session) : Nat := (c.program.useSites.map s.stake).sum

/-- All numbers are in range, and stay there when `k` members are merged or structs created, and
another for each occasion that the uses leave. -/
structure Spare (c : Context) (m : Margins) (k : Nat) (s : Session) : Prop where
  overlay : ∃ n top, s.db.Bounded m n top ∧
    n + m.reach * (k + s.potential c + 1) < Word.bound ∧ top + (k + s.potential c) < Word.bound
  vars : ∀ var, (s.varType var).Bounded m
  returns : ∀ function, (s.returnType function).Bounded m

/-- As much room is left as there was. -/
def Spares (c : Context) (m : Margins) (k : Nat) (s t : Session) : Prop :=
  s.Spare c m k → t.Spare c m k

variable {c : Context} {m : Margins} {k d : Nat} {s t : Session} {var : Variable}

instance : Std.Refl (Spares c m k) := ⟨fun _ h => h⟩

instance : IsTrans Session (Spares c m k) := ⟨fun _ _ _ hst htu h => htu (hst h)⟩

theorem stake_le (s : Session) (var : Variable) : s.stake var ≤ 4 := by
  unfold stake
  split
  · exact Nat.le_refl _
  · split <;> omega

theorem potential_le (c : Context) (s : Session) :
    s.potential c ≤ 4 * c.program.useSites.length := by
  have hsum := List.sum_le_card_nsmul (c.program.useSites.map s.stake) 4 (by simp [stake_le])
  simpa [potential, Nat.mul_comm] using hsum

/-- A variable with a lower stake frees what it no longer needs, once for each of its uses. -/
theorem potential_add_le (hvar : t.stake var + d ≤ s.stake var)
    (hother : ∀ other, other ≠ var → t.stake other = s.stake other) :
    t.potential c + d * c.program.useSites.count var ≤ s.potential c := by
  unfold potential
  induction c.program.useSites with
  | nil => simp
  | cons other rest ih =>
    simp only [List.map_cons, List.sum_cons, List.count_cons]
    -- a use of the variable counts `d` less, and any other as much as before
    by_cases heq : other = var
    · subst heq
      simp only [beq_self_eq_true, if_true, Nat.mul_add]
      omega
    · have hsame := hother other heq
      simp only [beq_iff_eq, heq, if_false, Nat.add_zero]
      omega

theorem stake_insert_self (s : Session) (var : Variable) (r : Resolution) :
    stake { s with vars := s.vars.insert var r } var = if r.type.isUnknown then 1 else 0 := by
  simp [stake]

theorem stake_insert_of_ne {other : Variable} (h : other ≠ var) (r : Resolution) :
    stake { s with vars := s.vars.insert var r } other = s.stake other := by
  simp [stake, Table.get?_insert_of_ne _ h]

theorem potential_congr (h : t.vars = s.vars) : t.potential c = s.potential c := by
  unfold potential
  congr 2
  funext var
  unfold stake
  rw [h]

theorem room_le {n a b : Nat} (h : n + m.reach * b < Word.bound) (hab : a ≤ b) :
    n + m.reach * a < Word.bound :=
  Nat.lt_of_le_of_lt (Nat.add_le_add_left (Nat.mul_le_mul_left _ hab) _) h

namespace Spare

theorem kept {n top k' : Nat} (h : s.Spare c m k') (hst : s.Kept t) (ho : t.db.Bounded m n top)
    (hn : n + m.reach * (k + s.potential c + 1) < Word.bound)
    (htop : top + (k + s.potential c) < Word.bound) : t.Spare c m k := by
  obtain ⟨db, newTypes, diagnostics, _, rfl⟩ := hst
  exact ⟨⟨n, top, ho, hn, htop⟩, h.vars, h.returns⟩

theorem frame (h : s.Spare c m k) (hdb : t.db = s.db) (hvars : t.vars = s.vars)
    (hreturns : t.returns = s.returns) : t.Spare c m k := by
  constructor
  · rw [hdb, potential_congr hvars]
    exact h.overlay
  · unfold Run.varType
    rw [hvars]
    exact h.vars
  · unfold Run.returnType
    rw [hreturns]
    exact h.returns

theorem mono (h : s.Spare c m k) (hd : d ≤ k) : s.Spare c m d := by
  obtain ⟨n, top, ho, hn, htop⟩ := h.overlay
  exact ⟨⟨n, top, ho, room_le hn (by omega), by omega⟩, h.vars, h.returns⟩

theorem bounded (h : s.Spare c m k) :
    ∃ n top, s.db.Bounded m n top ∧ n + m.reach < Word.bound := by
  obtain ⟨n, top, ho, hn, _⟩ := h.overlay
  have hone := room_le hn (Nat.succ_le_succ (Nat.zero_le _))
  exact ⟨n, top, ho, by simpa using hone⟩

/-- A variable gets another entry, and what it no longer needs is free for other merges. -/
theorem insert (h : s.Spare c m k) {r : Resolution} (hr : r.type.Bounded m)
    (hd : (if r.type.isUnknown then 1 else 0) + d ≤ s.stake var) :
    Spare c m (k + d * c.program.useSites.count var)
      { s with vars := s.vars.insert var r } := by
  have hpotential : potential c { s with vars := s.vars.insert var r } +
      d * c.program.useSites.count var ≤ s.potential c := by
    refine potential_add_le ?_ fun other hne => stake_insert_of_ne hne r
    rw [stake_insert_self]
    exact hd
  obtain ⟨n, top, ho, hn, htop⟩ := h.overlay
  refine ⟨⟨n, top, ho, room_le hn (by omega), by omega⟩, fun other => ?_, h.returns⟩
  simp only [Run.varType, Table.get?_insert]
  split
  · exact hr
  · exact h.vars other

theorem adopt (h : s.Spare c m k) {type : Ty} (htype : type.Bounded m)
    (hknown : type.isUnknown = false) (hvar : (s.varType var).isUnknown) :
    Spare c m (k + c.program.useSites.count var)
      { s with vars := s.vars.insert var (.resolved type) } := by
  have hstake : (if type.isUnknown then 1 else 0) + 1 ≤ s.stake var := by
    unfold Run.varType at hvar
    unfold stake
    cases hentry : s.vars.get? var with
    | none => simp [hknown]
    | some r => simp_all
  rw [← Nat.one_mul (c.program.useSites.count var)]
  exact h.insert (r := .resolved type) htype hstake

theorem insertReturn (h : s.Spare c m k) {r : Resolution} (hr : r.type.Bounded m)
    (function : Nat) : Spare c m k { s with returns := s.returns.insert function r } := by
  refine ⟨h.overlay, h.vars, fun other => ?_⟩
  simp only [Run.returnType, Table.get?_insert]
  split
  · exact hr
  · exact h.returns other

end Spare
end Session

namespace Infer

open Session

variable {α β : Type} {c : Context} {m : Margins} {k : Nat} {s : Session}

/-- The computation does not overflow, and its result satisfies `Q`. -/
abbrev Safe (s : Session) (x : Infer α) (Q : α → Session → Prop) : Prop :=
  EndsAt Fault.InRange s x Q

theorem safe_forM {f : α → Infer PUnit} (cost : α → Nat) {xs : List α}
    (hf : ∀ x ∈ xs, ∀ {k t}, t.Spare c m (k + cost x) → Safe t (f x) fun _ u => u.Spare c m k)
    (hs : s.Spare c m (k + (xs.map cost).sum)) :
    Safe s (xs.forM f) fun _ t => t.Spare c m k := by
  induction xs generalizing s with
  | nil => exact ends_pure hs
  | cons x rest ih =>
    simp only [List.map_cons, List.sum_cons] at hs
    have hfirst : s.Spare c m (k + (rest.map cost).sum + cost x) := hs.mono (by omega)
    refine ends_bind (hf x (by simp) hfirst) fun _ t ht => ?_
    exact ih (fun y hy => hf y (by simp [hy])) ht

theorem safe_forM_free {f : α → Infer PUnit} {xs : List α}
    (hf : ∀ x ∈ xs, ∀ {t}, t.Spare c m k → Safe t (f x) fun _ u => u.Spare c m k)
    (hs : s.Spare c m k) : Safe s (xs.forM f) fun _ t => t.Spare c m k := by
  have hloop : Safe s (xs.forM f) fun _ t => s.Spares c m k t :=
    ends_forM_move fun x hx t hst => (hf x hx (hst hs)).imp fun _ _ hu _ => hu
  exact hloop.imp fun _ _ hst => hst hs

theorem safe_mapM {f : α → Infer β} {xs : List α} {P : β → Prop}
    (hf : ∀ x ∈ xs, ∀ {t}, t.Spare c m k → Safe t (f x) fun b u => u.Spare c m k ∧ P b)
    (hs : s.Spare c m k) :
    Safe s (xs.mapM f) fun bs t => t.Spare c m k ∧ (∀ b ∈ bs, P b) ∧ bs.length = xs.length := by
  have hloop : Safe s (xs.mapM f) fun bs t => s.Spares c m k t ∧ List.Forall₂ (fun _ => P) xs bs := by
    refine ends_mapM_forall₂ fun x hx t hst => (hf x hx (hst hs)).imp ?_
    rintro b u ⟨hu, hb⟩
    exact ⟨fun _ => hu, hb⟩
  refine hloop.imp ?_
  rintro bs t ⟨hst, hbs⟩
  exact ⟨hst hs, forall_mem_of_forall₂ hbs, hbs.length_eq.symm⟩

theorem safe_report (hs : s.Spare c m k) (d : Diagnostic) :
    Safe s (report d) fun _ t => t.Spare c m k :=
  ends_modify (hs.frame rfl rfl rfl)

theorem safe_edit {change : Edit Overlay α} {P : Overlay → Prop}
    (h : (change.run.run s.db).Safe fun p => P p.2) :
    Safe s (edit change) fun _ t => s.Kept t ∧ P t.db := by
  refine ends_get_bind (ends_lift_bind h.inRange ?_)
  rintro ⟨r, db⟩ hrun
  exact ends_set_bind (ends_pure ⟨⟨db, s.newTypes, s.diagnostics, fun _ h => h, rfl⟩, h.of_ok hrun⟩)

/-- A merge raises the bounds by no more than a use reaches. -/
theorem safe_addMemberTypeWithin {n top offset : Nat} {type : Ty} (nesting : List (Nat × Nat))
    (fuel : Nat) (id : StructId) (hs : s.db.Bounded m n top) (hn : n + m.reach < Word.bound)
    (hoffset : offset ≤ m.reach) (htype : type.Bounded m) :
    Safe s (addMemberTypeWithin nesting fuel id offset type) fun _ t =>
      s.Kept t ∧ t.db.Bounded m (n + m.reach) top := by
  -- the members that are added on the way down fit the bounds; only the last step widens them
  induction fuel generalizing s id offset with
  | zero => exact trivial
  | succ fuel ih =>
    have hwider : n ≤ n + m.reach := Nat.le_add_right _ _
    apply ends_get_bind
    split
    · exact ends_modify_bind (ends_pure ⟨s.kept_report _, hs.mono hwider⟩)
    · have hextent := hs.extent
      have hreach := m.reach_lt
      have hadd : (Overlay.provisional id (TypeStore.addMember id offset)).Maintains
          (Overlay.Bounded m n top) :=
        Overlay.maintains_provisional (Layout.maintains_addMember (by omega) (by omega))
      refine ends_bind (safe_edit (hadd s.db hs)) ?_
      rintro r t ⟨hst, ht⟩
      have hreported : ∀ d, s.Kept { t with toRun := t.toRun.report d } := fun d =>
        IsTrans.trans _ _ _ hst (t.kept_report d)
      cases r with
      | error cause => exact ends_modify ⟨hreported _, ht.mono hwider⟩
      | ok added =>
        apply ends_get_bind
        refine ends_lift_bind (Merge.inRange_plan hn ht hoffset htype) fun merge hplan => ?_
        cases merge with
        | nothing => exact ends_pure ⟨hst, ht.mono hwider⟩
        | refuse subject message => exact ends_modify ⟨hreported _, ht.mono hwider⟩
        | descend nested relative =>
          obtain ⟨_, _, _, _, _, _, _, rfl⟩ := Merge.plan_eq_descend hplan
          refine (ih nested ht (by omega)).imp ?_
          rintro _ u ⟨htu, hu⟩
          exact ⟨IsTrans.trans _ _ _ hst htu, hu⟩
        | place name =>
          refine ends_bind (safe_edit (ht.safe_setMemberType hn hoffset htype)) ?_
          rintro r u ⟨htu, hu⟩
          have hsu : s.Kept u := IsTrans.trans _ _ _ hst htu
          cases r with
          | ok _ => exact ends_pure ⟨hsu, hu⟩
          | error cause => exact ends_modify ⟨IsTrans.trans _ _ _ hsu (u.kept_report _), hu⟩

theorem safe_addMemberType {offset : Nat} {type : Ty} (hs : s.Spare c m (k + 1)) (id : StructId)
    (hoffset : offset ≤ m.reach) (htype : type.Bounded m) :
    Safe s (addMemberType id offset type) fun _ t => t.Spare c m k := by
  obtain ⟨n, top, ho, hn, htop⟩ := hs.overlay
  have hroom : n + m.reach + m.reach * (k + s.potential c + 1) < Word.bound := by
    have hmul : m.reach * (k + 1 + s.potential c + 1) =
        m.reach + m.reach * (k + s.potential c + 1) := by
      rw [Nat.add_comm m.reach, ← Nat.mul_succ]
      congr 1
      omega
    omega
  have hmerge := safe_addMemberTypeWithin (TypeStore.nesting s.db)
    ((s.db.structIds.length + 1) * (offset + 1)) id ho (by omega) hoffset htype
  refine ends_get_bind (hmerge.imp ?_)
  rintro _ t ⟨hst, ht⟩
  exact hs.kept hst ht hroom (by omega)

theorem safe_sizeFromCast (hs : s.Spare c m k) (id : StructId) (argType : Ty) :
    Safe s (sizeFromCast id argType) fun _ t => t.Spare c m k := by
  apply ends_get_bind
  split
  · exact ends_pure hs
  · split
    · exact ends_pure hs
    · split
      · exact ends_pure hs
      case h_2 l hl =>
        split
        · exact ends_pure hs
        · obtain ⟨n, top, ho, hn, htop⟩ := hs.overlay
          have hgrow : (Overlay.provisional id (TypeStore.maximizeSize id l.size)).Maintains
              (Overlay.Bounded m n top) :=
            Overlay.maintains_provisional
              (Layout.maintains_maximizeSize (by omega) (ho.layout hl).size)
          refine ends_bind (safe_edit (hgrow s.db ho)) ?_
          rintro _ t ⟨hst, ht⟩
          exact ends_pure (hs.kept hst ht hn htop)

variable {id : StructId}

theorem safe_addWrite (hs : s.Spare c m (k + 1)) {w : Write}
    (hw : Chain.Bounded m w.chain ∧ w.valueType.Bounded m) :
    Safe s (addWrite id w) fun _ t => t.Spare c m k := by
  unfold addWrite
  split
  case h_1 offset hshape =>
    exact safe_addMemberType hs id (hw.1 offset (by simp [Chain.pointerOffset?, hshape])) hw.2
  case h_2 offset hshape =>
    exact safe_addMemberType hs id (hw.1 offset (by simp [Chain.pointerOffset?, hshape])) trivial
  case h_3 => exact ends_pure (hs.mono (Nat.le_succ k))

theorem safe_addRead (hs : s.Spare c m (k + 1)) {r : Read} (hr : Chain.Bounded m r.chain) :
    Safe s (addRead id r) fun _ t => t.Spare c m k := by
  unfold addRead
  split
  case h_1 offset hshape | h_2 offset hshape | h_3 offset hshape =>
    exact safe_addMemberType hs id (hr offset (by simp [Chain.pointerOffset?, hshape])) trivial
  case h_4 | h_5 => exact ends_pure (hs.mono (Nat.le_succ k))

theorem safe_addCast (hs : s.Spare c m (k + 1)) {a : Cast}
    (ha : Chain.Bounded m a.chain ∧ a.argType.Bounded m) :
    Safe s (addCast id a) fun _ t => t.Spare c m k := by
  unfold addCast
  split
  case h_1 => exact safe_sizeFromCast (hs.mono (Nat.le_succ k)) id a.argType
  case h_2 offset hshape =>
    exact safe_addMemberType hs id (ha.1 offset (by simp [Chain.pointerOffset?, hshape])) ha.2
  case h_3 offset hshape =>
    refine safe_addMemberType hs id (ha.1 offset (by simp [Chain.pointerOffset?, hshape])) ?_
    cases hpointee : a.argType.pointee? with
    | none => exact trivial
    | some target => exact ha.2.pointee hpointee
  case h_4 offset hshape =>
    exact safe_addMemberType hs id (ha.1 offset (by simp [Chain.pointerOffset?, hshape])) trivial
  case h_5 => exact ends_pure (hs.mono (Nat.le_succ k))

theorem safe_addUses {uses : Uses} (hs : s.Spare c m (k + uses.size)) (huses : uses.Bounded m)
    (type : Ty) : Safe s (addUses uses type) fun _ t => t.Spare c m k := by
  unfold addUses
  split
  · exact ends_pure (hs.mono (Nat.le_add_right _ _))
  · have hsize : k + uses.size = k + uses.casts.length + uses.reads.length +
        uses.writes.length := by
      unfold Uses.size
      omega
    rw [hsize] at hs
    refine ends_bind (safe_forM (fun _ => 1) (fun w hw _ _ ht => ?_) (by simpa using hs))
      fun _ t ht => ?_
    · exact safe_addWrite ht (huses.writes w hw)
    refine ends_bind (safe_forM (fun _ => 1) (fun r hr _ _ hu => ?_) (by simpa using ht))
      fun _ u hu => ?_
    · exact safe_addRead hu (huses.reads r hr)
    refine safe_forM (fun _ => 1) (fun a ha _ _ hv => ?_) (by simpa using hu)
    exact safe_addCast hv (huses.casts a ha)

theorem safe_createStruct (hs : s.Spare c m (k + 1)) :
    Safe s (createStruct c.settings) fun _ t => t.Spare c m k := by
  obtain ⟨n, top, ho, hn, htop⟩ := hs.overlay
  have hnext := ho.next
  have hcreate : (s.toRun.createStruct c.settings).InRange := by
    refine Checked.stops_bind (Checked.stops_bind ?_ fun _ _ => Checked.stops_pure _) fun _ _ =>
      Checked.stops_pure _
    exact (Word.safe_add (a := s.db.next) (by omega)).inRange
  refine ends_get_bind (ends_lift_bind hcreate ?_)
  rintro ⟨id, run⟩ hrun
  obtain ⟨rfl, rfl⟩ := Run.createStruct_eq_ok hrun
  refine ends_set_bind (ends_pure ?_)
  refine hs.kept ⟨_, _, s.diagnostics, ?_, rfl⟩ (ho.create _) (room_le hn (by omega)) (by omega)
  exact fun other hother => KeySet.contains_add_of_contains hother _

/-- A new struct costs as much as a merge, and needs a use. -/
theorem safe_typeByUses {uses : Uses} (hs : s.Spare c m (k + uses.size)) (huses : uses.Bounded m)
    (var : Variable) :
    Safe s (typeByUses c.settings var uses) fun type t => t.Spare c m k ∧ type.Bounded m := by
  obtain ⟨n, top, ho, hn⟩ := hs.bounded
  have hfree : s.Spare c m k := hs.mono (Nat.le_add_right _ _)
  have hverdict := Verdict.safe_ofUses ho hn huses
  refine ends_get_bind (ends_lift_bind hverdict.inRange fun verdict hrun => ?_)
  have hbounded := hverdict.of_ok hrun
  cases verdict with
  | type t => exact ends_pure ⟨hfree, hbounded⟩
  | unknown reason => exact ends_bind (safe_report hfree _) fun _ t ht => ends_pure ⟨ht, trivial⟩
  | newStruct =>
    have hone : s.Spare c m (k + 1) := hs.mono (Nat.add_le_add_left hbounded k)
    exact ends_bind (safe_createStruct hone) fun _ t ht => ends_pure ⟨ht, trivial⟩

theorem safe_callee? (hs : s.Spare c m k) (call : Call) :
    Safe s (callee? c call) fun _ t => t = s := by
  obtain ⟨n, top, ho, hn⟩ := hs.bounded
  unfold callee?
  split
  · exact ends_pure rfl
  · exact ends_pure rfl
  · split
    · exact ends_pure rfl
    · have htarget := fun origin => inRange_targetOfOrigin ho (by omega) c rfl hs.vars origin
      refine ends_get_bind (ends_lift_bind (htarget _).inRange fun found _ => ?_)
      cases found with
      | ok target => exact ends_pure rfl
      | error failure => exact ends_pure rfl

theorem safe_indirectTarget (hs : s.Spare c m k) (call : Call) :
    Safe s (indirectTarget c call) fun _ t => t.Spare c m k := by
  obtain ⟨n, top, ho, hn⟩ := hs.bounded
  unfold indirectTarget
  split
  case h_1 origin _ =>
    have htarget := inRange_targetOfOrigin ho (by omega) c rfl hs.vars origin
    refine ends_get_bind (ends_lift_bind htarget.inRange fun found hfound => ?_)
    cases found with
    | ok target => exact ends_pure hs
    | error failure =>
      refine ends_lift_bind (htarget.of_ok hfound failure rfl) fun message _ => ?_
      exact ends_bind (safe_report hs _) fun _ t ht => ends_pure ht
  case h_2 => exact ends_pure hs

end Infer
end TypeRecovery
