import TypeRecovery.Proofs.Headroom
import TypeRecovery.Proofs.ProgramSnapshots
import TypeRecovery.Proofs.Rests
import TypeRecovery.Proofs.Turns

/-!
# Sessions in range

Every activity of the engine keeps a session within its bounds. A variable that is marked frees the
room that its own uses need, and what is asked for in between leaves that room alone; so does a
parameter that adopts a type.
-/
namespace TypeRecovery

variable {c : Context} {m : Margins} {k : Nat} {s : Session}

/-- Uses as a program has them: chains and values are within the bounds. -/
structure Uses.Sourced (m : Margins) (u : Uses) : Prop where
  reads : ∀ r ∈ u.reads, Chain.Bounded m r.chain
  writes : ∀ w ∈ u.writes, Chain.Bounded m w.chain ∧ w.value.Bounded m
  casts : ∀ a ∈ u.casts, Chain.Bounded m a.chain

/-- Uses whose types were filled in, at most `n` of them. -/
structure UseGroups.Bounded (m : Margins) (n : Nat) (groups : UseGroups) : Prop where
  sourced : ∀ g ∈ groups, g.2.Sourced m
  resolved : ∀ g ∈ groups, g.2.Bounded m
  size : (groups.map (·.2.size)).sum ≤ n

theorem FunctionBody.Bounded.usesOf {body : FunctionBody} (h : body.Bounded m) (var : Variable) :
    (body.usesOf var).Sourced m where
  reads r hr := h.reads r (List.mem_filter.1 hr).1
  writes w hw := h.writes w (List.mem_filter.1 hw).1
  casts a ha := h.casts a (List.mem_filter.1 ha).1

theorem Uses.Bounded.append {u v : Uses} (hu : u.Bounded m) (hv : v.Bounded m) :
    (u.append v).Bounded m where
  reads r hr := (List.mem_append.1 hr).elim (hu.reads r) (hv.reads r)
  writes w hw := (List.mem_append.1 hw).elim (hu.writes w) (hv.writes w)
  casts a ha := (List.mem_append.1 ha).elim (hu.casts a) (hv.casts a)

theorem Uses.size_append (u v : Uses) : (u.append v).size = u.size + v.size := by
  simp only [Uses.size, Uses.append, List.length_append]
  omega

namespace UseGroups

theorem bounded_nil (m : Margins) (n : Nat) : Bounded m n [] := ⟨nofun, nofun, Nat.zero_le n⟩

theorem size_merged (groups : UseGroups) : groups.merged.size = (groups.map (·.2.size)).sum := by
  have hfold : ∀ (gs : UseGroups) (all : Uses),
      (gs.foldl (fun all g => all.append g.2) all).size = all.size + (gs.map (·.2.size)).sum := by
    intro gs
    induction gs with
    | nil => exact fun _ => rfl
    | cons g rest ih =>
      intro all
      rw [List.foldl_cons, ih, Uses.size_append, List.map_cons, List.sum_cons, Nat.add_assoc]
  rw [merged, hfold]
  exact Nat.zero_add _

theorem bounded_merged {groups : UseGroups} (h : ∀ g ∈ groups, g.2.Bounded m) :
    groups.merged.Bounded m := by
  refine List.foldlRecOn (motive := Uses.Bounded m) groups _ ⟨nofun, nofun, nofun⟩ ?_
  exact fun all hall g hg => hall.append (h g hg)

end UseGroups

namespace Inference

open Infer Session

/-- The activities of a level keep a session in range, with as much room to spare as there was. -/
structure Safe (c : Context) (m : Margins) (i : Inference) : Prop where
  inferVariable : ∀ (var : Variable) {k : Nat} {s : Session}, s.Spare c m k →
    Infer.Safe s (i.inferVariable var) fun type t => t.Spare c m k ∧ t.varType var = type
  inferReturn : ∀ (function : Nat) {k : Nat} {s : Session}, s.Spare c m k →
    Infer.Safe s (i.inferReturn function) fun type t => t.Spare c m k ∧ type.Bounded m
  visitFunction : ∀ (function : Nat) {k : Nat} {s : Session}, s.Spare c m k →
    Infer.Safe s (i.visitFunction function) fun _ t => t.Spare c m k
  propagate : ∀ (var : Variable) {k : Nat} {s : Session}, s.Spare c m k →
    Infer.Safe s (i.propagate var) fun _ t => t.Spare c m k

variable {deeper : Inference} (hdeeper : deeper.Safe c m)
include hdeeper

theorem Safe.infer (var : Variable) (hs : s.Spare c m k) :
    Infer.Safe s (deeper.inferVariable var) fun type t => t.Spare c m k ∧ type.Bounded m := by
  refine (hdeeper.inferVariable var hs).imp ?_
  rintro type t ⟨ht, rfl⟩
  exact ⟨ht, ht.vars var⟩

theorem safe_globalValue (hs : s.Spare c m k) (address : Nat) :
    Infer.Safe s (globalValue deeper address) fun type t => t.Spare c m k ∧ type.Bounded m := by
  refine ends_bind (hdeeper.infer _ hs) ?_
  rintro type t ⟨ht, htype⟩
  split
  · exact ends_pure ⟨ht, trivial⟩
  · apply ends_get_bind
    split
    · exact ends_pure ⟨ht, htype.1⟩
    · exact ends_pure ⟨ht, htype⟩
    · exact ends_pure ⟨ht, htype⟩

theorem safe_globalAddress (hs : s.Spare c m k) (address : Nat) :
    Infer.Safe s (globalAddress deeper address) fun type t => t.Spare c m k ∧ type.Bounded m := by
  refine ends_bind (hdeeper.infer _ hs) ?_
  rintro type t ⟨ht, htype⟩
  refine ends_pure ⟨ht, ?_⟩
  split
  · exact trivial
  · exact htype

theorem safe_bareType (hs : s.Spare c m k) {function : Nat} {e : Expr} (he : e.Bounded m)
    {x : Infer Ty} (h : bareType c deeper function e = some x) :
    Infer.Safe s x fun type t => t.Spare c m k ∧ type.Bounded m := by
  unfold bareType at h
  split at h
  case h_1 =>
    cases h
    exact hdeeper.infer _ hs
  case h_2 =>
    split at h
    · split at h
      · cases h
        exact hdeeper.inferReturn _ hs
      · cases h
    · cases h
  case h_3 =>
    cases h
    exact ends_pure ⟨hs, he _ (List.mem_cons_self ..)⟩
  case h_4 =>
    split at h
    · cases h
    · cases h
      exact safe_globalValue hdeeper hs _
  case h_5 =>
    split at h
    · split at h
      · cases h
      · cases h
        exact safe_globalAddress hdeeper hs _
    · cases h
  case h_6 => cases h

theorem safe_exprType (hs : s.Spare c m k) (function : Nat) {e : Expr} (he : e.Bounded m) :
    Infer.Safe s (exprType c deeper function e) fun type t => t.Spare c m k ∧ type.Bounded m := by
  unfold exprType
  split
  case h_1 t ht =>
    have hmem : t ∈ e.types := by
      unfold castEvidence? at ht
      split at ht
      · split at ht
        · cases ht
          exact List.mem_cons_self ..
        · cases ht
      · cases ht
    exact ends_pure ⟨hs, he t hmem⟩
  case h_2 =>
    cases hbare : bareType c deeper function e.stripCasts with
    | some x => exact safe_bareType hdeeper hs he.stripCasts hbare
    | none =>
      refine ends_lift_bind (Expr.inRange_text e he) fun text _ => ?_
      exact ends_bind (safe_report hs _) fun _ t ht => ends_pure ⟨ht, trivial⟩

theorem safe_argType (hs : s.Spare c m k) (a : Cast) :
    Infer.Safe s (argType c deeper a) fun type t => t.Spare c m k ∧ type.Bounded m := by
  refine ends_bind (safe_callee? hs a.call) ?_
  rintro callee s rfl
  cases callee with
  | none => exact ends_pure ⟨hs, trivial⟩
  | some callee =>
    dsimp only
    split
    · obtain ⟨n, top, ho, _⟩ := hs.bounded
      exact ends_get_bind (ends_pure ⟨hs, ho.declared_getD _⟩)
    · split
      · exact ends_pure ⟨hs, trivial⟩
      · split
        · exact hdeeper.infer _ hs
        · exact ends_pure ⟨hs, trivial⟩

theorem safe_resolveWrites (hs : s.Spare c m k) (function : Nat) {ws : List Write}
    (hws : ∀ w ∈ ws, Chain.Bounded m w.chain ∧ w.value.Bounded m) :
    Infer.Safe s (ws.mapM (resolveWrite c deeper function)) fun ws' t => t.Spare c m k ∧
      (∀ w ∈ ws', Chain.Bounded m w.chain ∧ w.value.Bounded m ∧ w.valueType.Bounded m) ∧
      ws'.length = ws.length := by
  refine safe_mapM (fun w hw t ht => ?_) hs
  refine ends_bind (safe_exprType hdeeper ht function (hws w hw).2) ?_
  rintro type u ⟨hu, htype⟩
  exact ends_pure ⟨hu, (hws w hw).1, (hws w hw).2, htype⟩

theorem safe_resolveCasts (hs : s.Spare c m k) {as : List Cast}
    (has : ∀ a ∈ as, Chain.Bounded m a.chain) :
    Infer.Safe s (as.mapM (resolveCast c deeper)) fun as' t => t.Spare c m k ∧
      (∀ a ∈ as', Chain.Bounded m a.chain ∧ a.argType.Bounded m) ∧ as'.length = as.length := by
  refine safe_mapM (fun a ha t ht => ?_) hs
  refine ends_bind (safe_argType hdeeper ht a) ?_
  rintro type u ⟨hu, htype⟩
  exact ends_pure ⟨hu, has a ha, htype⟩

theorem safe_resolveUses (hs : s.Spare c m k) (function : Nat) {uses : Uses}
    (huses : uses.Sourced m) :
    Infer.Safe s (resolveUses c deeper function uses) fun uses' t => t.Spare c m k ∧
      uses'.Sourced m ∧ uses'.Bounded m ∧ uses'.size = uses.size := by
  refine ends_bind (safe_resolveWrites hdeeper hs function huses.writes) ?_
  rintro writes t ⟨ht, hwrites, hlength⟩
  refine ends_bind (safe_resolveCasts hdeeper ht huses.casts) ?_
  rintro casts u ⟨hu, hcasts, hlength'⟩
  refine ends_pure ⟨hu, ⟨huses.reads, ?_, ?_⟩, ⟨huses.reads, ?_, hcasts⟩, ?_⟩
  · exact fun w hw => ⟨(hwrites w hw).1, (hwrites w hw).2.1⟩
  · exact fun a ha => (hcasts a ha).1
  · exact fun w hw => ⟨(hwrites w hw).1, (hwrites w hw).2.2⟩
  · simp only [Uses.size, hlength, hlength']

theorem safe_collectFrom (hprogram : c.program.Bounded m) (hs : s.Spare c m k) (var : Variable)
    (functions : List Nat) :
    Infer.Safe s (collectFrom c deeper var functions) fun groups t => t.Spare c m k ∧
      UseGroups.Bounded m (functions.map (c.program.usesIn var)).sum groups := by
  induction functions generalizing s with
  | nil => exact ends_pure ⟨hs, nofun, nofun, Nat.le_refl _⟩
  | cons function rest ih =>
    have hskip : Infer.Safe s (collectFrom c deeper var rest) fun groups t => t.Spare c m k ∧
        UseGroups.Bounded m ((function :: rest).map (c.program.usesIn var)).sum groups := by
      refine (ih hs).imp ?_
      rintro groups t ⟨ht, hgroups⟩
      refine ⟨ht, hgroups.sourced, hgroups.resolved, Nat.le_trans hgroups.size ?_⟩
      rw [List.map_cons, List.sum_cons]
      exact Nat.le_add_left _ _
    unfold collectFrom
    split
    · exact hskip
    case h_2 body hbody =>
      dsimp only
      split
      · exact hskip
      · refine ends_bind (safe_resolveUses hdeeper hs function ((hprogram.body hbody).usesOf var)) ?_
        rintro uses t ⟨ht, hsourced, hresolved, hsize⟩
        refine ends_bind (ih ht) ?_
        rintro groups u ⟨hu, hgroups⟩
        refine ends_pure ⟨hu, ?_, ?_, ?_⟩
        · exact List.forall_mem_cons.2 ⟨hsourced, hgroups.sourced⟩
        · exact List.forall_mem_cons.2 ⟨hresolved, hgroups.resolved⟩
        · have hrest := hgroups.size
          simp only [List.map_cons, List.sum_cons, hsize, Program.usesIn_eq hbody]
          omega

theorem safe_deferredUses (hs : s.Spare c m k) (function : Nat) {uses : Uses}
    (huses : uses.Sourced m) :
    Infer.Safe s (deferredUses c deeper function uses) fun uses' t => t.Spare c m k ∧
      uses'.Bounded m ∧ uses'.size ≤ uses.size := by
  refine ends_bind (safe_resolveWrites hdeeper hs function ?_) ?_
  · exact fun w hw => huses.writes w (List.mem_filter.1 hw).1
  rintro writes t ⟨ht, hwrites, hlength⟩
  refine ends_bind (safe_resolveCasts hdeeper ht ?_) ?_
  · exact fun a ha => huses.casts a (List.mem_filter.1 ha).1
  rintro casts u ⟨hu, hcasts, hlength'⟩
  refine ends_pure ⟨hu, ⟨nofun, ?_, ?_⟩, ?_⟩
  · intro w hw
    obtain ⟨hmem, _⟩ := List.mem_filter.1 hw
    exact ⟨(hwrites w hmem).1, (hwrites w hmem).2.2⟩
  · exact fun a ha => hcasts a (List.mem_filter.1 ha).1
  · -- what was open is among the uses, and what has a type now is among what was open
    have hopen := List.length_filter_le (fun w => !w.isAssign && w.valueType.isUnknown) uses.writes
    have hopen' := List.length_filter_le (fun a => !a.isWhole && a.argType.isUnknown) uses.casts
    have hfound := List.length_filter_le (·.valueType.isKnown) writes
    have hfound' := List.length_filter_le (·.argType.isKnown) casts
    simp only [Uses.size, List.length_nil]
    omega

/-- Uses that were open are looked at again, and cost a merge each if their types are known now. -/
theorem safe_mergeDeferred {group : Nat × Uses} (hgroup : group.2.Sourced m)
    (hs : s.Spare c m (k + group.2.size)) (type : Ty) :
    Infer.Safe s (mergeDeferred c deeper type group) fun _ t => t.Spare c m k := by
  refine ends_bind (safe_deferredUses hdeeper hs group.1 hgroup) ?_
  rintro uses t ⟨ht, huses, hsize⟩
  split
  · exact safe_addUses (ht.mono (Nat.add_le_add_left hsize k)) huses type
  · exact ends_pure (ht.mono (Nat.le_add_right _ _))

omit hdeeper in
theorem safe_inferable (hs : s.Spare c m k) (var : Variable) :
    Infer.Safe s (inferable c var) fun _ t => t.Spare c m k := by
  unfold inferable
  split
  · exact ends_pure hs
  · split
    · exact ends_pure hs
    · split
      · exact ends_pure hs
      · split
        · exact ends_bind (safe_report hs _) fun _ t ht => ends_pure ht
        · exact ends_pure hs

theorem safe_inferFresh (hprogram : c.program.Bounded m) {var : Variable}
    (hs : s.Spare c m (k + c.program.useSites.count var)) :
    Infer.Safe s (inferFresh c deeper var) fun outcome t => t.Spare c m k ∧
      ∀ {type groups}, outcome = .ok (type, groups) → type.Bounded m ∧
        UseGroups.Bounded m (c.program.useSites.count var) groups := by
  have hle : k ≤ k + c.program.useSites.count var := Nat.le_add_right _ _
  obtain ⟨n, top, ho, _⟩ := hs.bounded
  apply ends_get_bind
  dsimp only
  split
  · refine ends_pure ⟨hs.mono hle, ?_⟩
    rintro _ _ ⟨⟩
    exact ⟨ho.declared_getD var, UseGroups.bounded_nil m _⟩
  · refine ends_bind (safe_inferable hs var) fun ready t ht => ?_
    split
    · exact ends_pure ⟨ht.mono hle, nofun⟩
    · refine ends_pure ⟨ht.mono hle, ?_⟩
      rintro _ _ ⟨⟩
      exact ⟨trivial, UseGroups.bounded_nil m _⟩
    · split
      case h_1 type hfilter =>
        refine ends_pure ⟨ht.mono hle, ?_⟩
        rintro _ _ ⟨⟩
        exact ⟨ho.declared (Option.eq_some_of_filter_eq_some hfilter), UseGroups.bounded_nil m _⟩
      case h_2 =>
        refine ends_bind (safe_collectFrom hdeeper hprogram ht var _) ?_
        rintro groups u ⟨hu, hgroups⟩
        have hsize := Nat.le_trans hgroups.size Program.sum_usersOf_le
        have hspare : u.Spare c m (k + groups.merged.size) := by
          refine hu.mono ?_
          rw [UseGroups.size_merged]
          omega
        refine ends_bind
          (safe_typeByUses hspare (UseGroups.bounded_merged hgroups.resolved) var) ?_
        rintro type v ⟨hv, htype⟩
        refine ends_pure ⟨hv, ?_⟩
        rintro _ _ ⟨⟩
        exact ⟨htype, hgroups.sourced, hgroups.resolved, hsize⟩

/-- A variable in progress is settled. Its uses are merged at once, and those that were open once
more. -/
theorem safe_settleVariable (htypes : deeper.Types c (.reaching (Discreet fun _ => True)))
    {var : Variable} (hvar : s.vars.get? var = some .inProgress)
    (hs : s.Spare c m (k + 2 * c.program.useSites.count var)) {type : Ty} (htype : type.Bounded m)
    {groups : UseGroups} (hgroups : groups.Bounded m (c.program.useSites.count var)) :
    Infer.Safe s (settleVariable c deeper var type groups) fun answer t =>
      t.Spare c m k ∧ t.varType var = answer := by
  have hstake : (if type.isUnknown then 1 else 0) + 0 ≤ s.stake var := by
    have hone : s.stake var = 1 := by simp [stake, hvar, Resolution.type, Ty.isUnknown]
    rw [hone]
    split <;> omega
  have hsettled := hs.insert (r := .resolved type) htype hstake
  have hsize := hgroups.size
  refine ends_modify_bind ?_
  have hmerged : Infer.Safe { s with vars := s.vars.insert var (.resolved type) } (do
      if (← get).isProvisional type then
        groups.forM fun g => Infer.addUses g.2 type
        groups.forM (mergeDeferred c deeper type)
      return type) fun answer t => t.Spare c m k ∧ answer = type := by
    apply ends_get_bind
    dsimp only
    split
    · have hboth : Spare c m (k + (groups.map (·.2.size)).sum + (groups.map (·.2.size)).sum)
          { s with vars := s.vars.insert var (.resolved type) } := hsettled.mono (by omega)
      have hadd := safe_forM (s := { s with vars := s.vars.insert var (.resolved type) })
        (f := fun g : Nat × Uses => Infer.addUses g.2 type) (fun g : Nat × Uses => g.2.size)
        (fun g (hg : g ∈ groups) _ _ ht => safe_addUses ht (hgroups.resolved g hg) type) hboth
      refine ends_bind hadd fun _ t ht => ?_
      have hagain := safe_forM (fun g : Nat × Uses => g.2.size)
        (fun g (hg : g ∈ groups) _ _ hu =>
          safe_mergeDeferred hdeeper (hgroups.sourced g hg) hu type) ht
      exact ends_bind hagain fun _ u hu => ends_pure ⟨hu, rfl⟩
    · exact ends_pure ⟨hsettled.mono (by omega), rfl⟩
  refine hmerged.with_run.imp ?_
  rintro answer t ⟨⟨ht, rfl⟩, hrun⟩
  -- the entry is not touched while the uses are merged
  have hmoved := Moves.reaches (moves_mergeGroups htypes answer groups) hrun
  have hentry := (Discreet.of_moves hmoved).entry
    (Table.get?_insert_self s.vars var (.resolved answer))
  exact ⟨ht, by simp [Run.varType, hentry, Resolution.type]⟩

theorem safe_variableType (htypes : deeper.Types c (.reaching (Discreet fun _ => True)))
    (hprogram : c.program.Bounded m) (hs : s.Spare c m k) (var : Variable) :
    Infer.Safe s (variableType c deeper var) fun type t =>
      t.Spare c m k ∧ t.varType var = type := by
  apply ends_get_bind
  split
  case h_1 r hr => exact ends_pure ⟨hs, by simp [Run.varType, hr]⟩
  case h_2 hnone =>
    refine ends_bind (ends_enter _) ?_
    rintro entered t (⟨rfl, _, d, rfl⟩ | ⟨rfl, _, rfl⟩)
    · exact ends_pure ⟨hs.frame rfl rfl rfl, by simp [Run.varType, Run.report, hnone]⟩
    · refine ends_modify_bind ?_
      have hstake : 1 + 3 ≤ s.stake var := by simp [stake, hnone]
      -- of the three merges that each use is now free for, one may go into finding the type
      have hmarked := hs.insert (r := .inProgress) (m := m) trivial hstake
      have hdeep : Spare c m (k + 2 * c.program.useSites.count var +
          c.program.useSites.count var)
          { s with vars := s.vars.insert var .inProgress, depth := s.depth + 1 } :=
        (hmarked.mono (by omega)).frame rfl rfl rfl
      refine ends_bind (safe_inferFresh hdeeper hprogram hdeep).with_run ?_
      rintro outcome t ⟨⟨ht, hfound⟩, hrun⟩
      have hentry : t.vars.get? var = some .inProgress :=
        ((yields_inferQuietly htypes (Table.get?_insert_self _ _ _)).of_ok hrun).1.entry
          (Table.get?_insert_self _ _ _)
      refine ends_modify_bind ?_
      have hback : Spare c m (k + 2 * c.program.useSites.count var)
          { t with depth := t.depth - 1 } := ht.frame rfl rfl rfl
      cases outcome with
      | ok found =>
        obtain ⟨htype, hgroups⟩ := hfound rfl
        refine safe_settleVariable hdeeper htypes ?_ hback htype hgroups
        exact hentry
      | error e =>
        have hunknown : Ty.Bounded m .unknown := trivial
        refine ends_modify_bind (safe_settleVariable hdeeper htypes ?_ ?_ hunknown
          (UseGroups.bounded_nil m _))
        · exact hentry
        · exact hback.frame rfl rfl rfl

theorem safe_returnedType (hs : s.Spare c m k) (function : Nat) (ret : Return) :
    Infer.Safe s (returnedType deeper function ret) fun type t =>
      t.Spare c m k ∧ type.Bounded m := by
  refine ends_bind (hdeeper.infer ret.var hs) ?_
  rintro type t ⟨ht, htype⟩
  split
  · exact ends_pure ⟨ht, htype⟩
  · obtain ⟨n, top, ho, hn⟩ := ht.bounded
    have hwalk := Chain.safe_walk ho (by omega) ret.chain htype
    refine ends_get_bind (ends_lift_bind hwalk.inRange fun target htarget => ?_)
    cases target with
    | some target => exact ends_pure ⟨ht, hwalk.of_ok htarget target rfl⟩
    | none => exact ends_bind (safe_report ht _) fun _ u hu => ends_pure ⟨hu, trivial⟩

omit hdeeper in
theorem safe_commonType (hs : s.Spare c m k) (function : Nat) {types : List Ty}
    (htypes : ∀ t ∈ types, t.Bounded m) :
    Infer.Safe s (commonType function types) fun type t => t.Spare c m k ∧ type.Bounded m := by
  unfold commonType
  split
  · exact ends_bind (safe_report hs _) fun _ t ht => ends_pure ⟨ht, trivial⟩
  case h_2 t ht =>
    exact ends_pure ⟨hs, htypes t (mem_distinctTypes.1 (by simp [ht]))⟩
  · exact ends_bind (safe_report hs _) fun _ t ht => ends_pure ⟨ht, trivial⟩

theorem safe_returnType (hs : s.Spare c m k) (function : Nat) :
    Infer.Safe s (returnType c deeper function) fun type t => t.Spare c m k ∧ type.Bounded m := by
  apply ends_get_bind
  split
  case h_1 r hr =>
    have hreturn := hs.returns function
    simp only [Run.returnType, hr, Option.map_some, Option.getD_some] at hreturn
    exact ends_pure ⟨hs, hreturn⟩
  case h_2 =>
    split
    · exact ends_pure ⟨hs, trivial⟩
    · refine ends_bind (ends_enter _) ?_
      rintro entered t (⟨rfl, _, d, rfl⟩ | ⟨rfl, _, rfl⟩)
      · exact ends_pure ⟨hs.frame rfl rfl rfl, trivial⟩
      · refine ends_modify_bind ?_
        have hdeep : Spare c m k { s with depth := s.depth + 1 } := hs.frame rfl rfl rfl
        have hmarked := hdeep.insertReturn (r := .inProgress) trivial function
        refine ends_bind (safe_mapM (P := Ty.Bounded m) (fun ret _ _ ht => ?_) hmarked) ?_
        · exact safe_returnedType hdeeper ht function ret
        rintro types t ⟨ht, htypes, _⟩
        refine ends_modify_bind ?_
        have hback : Spare c m k { t with depth := t.depth - 1 } := ht.frame rfl rfl rfl
        refine ends_bind (safe_commonType hback function htypes) ?_
        rintro type u ⟨hu, htype⟩
        exact ends_modify_bind (ends_pure ⟨hu.insertReturn (r := .resolved type) htype _, htype⟩)

/-- A parameter of unknown type has room for its uses left, and adopting a type pays for them. -/
theorem safe_propagateInto (hprogram : c.program.Bounded m) (hs : s.Spare c m k) {type : Ty}
    (htype : type.Bounded m) (hknown : type.isUnknown = false) (a : Cast) :
    Infer.Safe s (propagateInto c deeper type a) fun _ t => t.Spare c m k := by
  refine ends_bind (safe_callee? hs a.call) ?_
  rintro callee s rfl
  cases callee with
  | none => exact ends_pure hs
  | some callee =>
    dsimp only
    split
    · exact ends_pure hs
    · split
      · exact ends_pure hs
      case h_2 body hbody =>
        split
        · exact ends_pure hs
        · apply ends_get_bind
          split
          · exact ends_pure hs
          · refine ends_bind (hdeeper.inferVariable _ hs) ?_
            rintro current t ⟨ht, hcurrent⟩
            split
            · split
              · apply ends_get_bind
                have hbounded : current.Bounded m := hcurrent ▸ ht.vars _
                refine ends_lift_bind (htype.inRange_renderWith _) fun text _ => ?_
                refine ends_lift_bind (hbounded.inRange_renderWith _) fun text' _ => ?_
                exact ends_bind (safe_report ht _) fun _ u hu => ends_pure hu
              · exact ends_pure ht
            case isFalse hunknown =>
              split
              · exact ends_pure ht
              · refine ends_modify_bind (ends_modify_bind ?_)
                have hvar : (t.varType (.local callee a.argIndex)).isUnknown := by
                  rw [hcurrent]
                  simpa [Ty.isKnown] using hunknown
                have hadopted := ht.adopt htype hknown hvar
                refine ends_bind (hdeeper.propagate _ (hadopted.frame rfl rfl rfl)) fun _ u hu => ?_
                refine ends_bind
                  (safe_resolveUses hdeeper hu callee ((hprogram.body hbody).usesOf _)) ?_
                rintro uses v ⟨hv, _, huses, hsize⟩
                have hle := Program.size_usesOf_le hbody a.argIndex
                exact safe_addUses (hv.mono (by omega)) huses type

theorem safe_propagateVariable (hprogram : c.program.Bounded m) (hs : s.Spare c m k)
    (var : Variable) :
    Infer.Safe s (propagateVariable c deeper var) fun _ t => t.Spare c m k := by
  unfold propagateVariable
  split
  · exact ends_pure hs
  · apply ends_get_bind
    dsimp only
    split
    · exact ends_pure hs
    case isFalse hfresh =>
      simp only [Bool.or_eq_true, Bool.not_eq_true', not_or, Bool.not_eq_false] at hfresh
      have hknown := ne_unknown_of_isProvisional hfresh.1
      refine ends_set_bind (safe_forM_free (fun a _ _ ht => ?_) (hs.frame rfl rfl rfl))
      refine safe_propagateInto hdeeper hprogram ht (hs.vars var) ?_ a
      cases htype : s.varType var with
      | unknown => exact absurd htype hknown
      | _ => rfl

theorem safe_visit (hs : s.Spare c m k) (function : Nat) :
    Infer.Safe s (visit c deeper function) fun _ t => t.Spare c m k := by
  unfold visit
  split
  · exact ends_pure hs
  · apply ends_get_bind
    split
    · exact ends_pure hs
    · split
      · exact ends_set_bind (ends_pure (hs.frame rfl rfl rfl))
      · refine ends_set_bind ?_
        have hslots : ∀ (slots : List Variable) {t : Session}, t.Spare c m k → Infer.Safe t (do
            slots.forM fun var => discard (deeper.inferVariable var)
            let _ ← deeper.inferReturn function
            slots.forM deeper.propagate) fun _ u => u.Spare c m k := by
          intro slots t ht
          refine ends_bind (safe_forM_free (fun var _ _ hu => ?_) ht) fun _ u hu => ?_
          · exact ends_map _ ((hdeeper.infer var hu).imp fun _ _ h => h.1)
          refine ends_bind (hdeeper.inferReturn function hu) ?_
          rintro _ v ⟨hv, _⟩
          exact safe_forM_free (fun var _ _ hw => hdeeper.propagate var hw) hv
        refine ends_bind (ends_enter _) ?_
        rintro entered t (⟨rfl, _, d, rfl⟩ | ⟨rfl, _, rfl⟩)
        · exact hslots _ (hs.frame rfl rfl rfl)
        · refine ends_bind (safe_forM_free (fun callee _ _ ht => ?_) (hs.frame rfl rfl rfl))
            fun _ t ht => ?_
          · exact hdeeper.visitFunction callee ht
          · exact ends_modify_bind (hslots _ (ht.frame rfl rfl rfl))

omit hdeeper in
theorem safe_upTo (hprogram : c.program.Bounded m) (n : Nat) : (upTo c n).Safe c m := by
  induction n with
  | zero => exact ⟨fun _ _ _ _ => trivial, fun _ _ _ _ => trivial, fun _ _ _ _ => trivial,
      fun _ _ _ _ => trivial⟩
  | succ n ih =>
    constructor
    · exact fun var _ _ hs => safe_variableType ih (types_quietly n) hprogram hs var
    · exact fun function _ _ hs => safe_returnType ih hs function
    · exact fun function _ _ hs => safe_visit ih hs function
    · exact fun var _ _ hs => safe_propagateVariable ih hprogram hs var

end Inference

namespace Infer

open Session

section Analyses

variable (hprogram : c.program.Bounded m)
include hprogram

theorem safe_ofContext : (Inference.ofContext c).Safe c m := Inference.safe_upTo hprogram _

theorem safe_drainDeferred (hs : s.Spare c m k) (fuel : Nat) :
    Safe s (drainDeferred c fuel) fun _ t => t.Spare c m k := by
  induction fuel generalizing s with
  | zero => exact trivial
  | succ fuel ih =>
    apply ends_get_bind
    split
    · exact ends_pure hs
    · apply ends_modify_bind
      refine ends_bind ((safe_ofContext hprogram).visitFunction _ (hs.frame rfl rfl rfl)) ?_
      exact fun _ t ht => ih ht

theorem safe_analyzeFunction (hs : s.Spare c m k) (function : Nat) :
    Safe s (analyzeFunction c function) fun _ t => t.Spare c m k := by
  refine ends_bind ((safe_ofContext hprogram).visitFunction function hs) fun _ t ht => ?_
  apply ends_get_bind
  split
  · exact safe_drainDeferred hprogram ht _
  · exact ends_pure ht

theorem safe_analyzeEverything (hs : s.Spare c m k) :
    Safe s (analyzeEverything c) fun _ t => t.Spare c m k :=
  safe_forM_free (fun function _ _ ht => safe_analyzeFunction hprogram ht function) hs

theorem safe_propagateTracked (hs : s.Spare c m k) :
    Safe s (propagateTracked c) fun _ t => t.Spare c m k :=
  ends_get_bind (safe_forM_free (fun var _ _ ht => (safe_ofContext hprogram).propagate var ht) hs)

end Analyses

theorem safe_indirectEdges (hs : s.Spare c m k) (function : Nat) :
    Safe s (indirectEdges c function) fun _ t => t.Spare c m k := by
  unfold indirectEdges
  split
  · exact ends_pure hs
  · refine ends_bind (safe_mapM (P := fun _ => True) (fun call _ _ ht => ?_) hs) ?_
    · refine ends_bind (safe_indirectTarget ht call) fun _ u hu => ends_pure ⟨hu, trivial⟩
    · rintro _ t ⟨ht, _⟩
      exact ends_pure ht

theorem safe_resolveCalls (hs : s.Spare c m k) :
    Safe s (resolveCalls c) fun _ t => t.Spare c m k := by
  unfold resolveCalls
  split
  · apply ends_get_bind
    refine ends_bind (safe_mapM (P := fun _ => True) (fun function _ _ ht => ?_) hs) ?_
    · exact (safe_indirectEdges ht function).imp fun _ _ hu => ⟨hu, trivial⟩
    · rintro _ t ⟨ht, _⟩
      exact ends_pure ht
  · exact ends_pure hs

end Infer

namespace Session

theorem spare_start {db : Database} {n top : Nat} (ho : (Overlay.ofDatabase db).Bounded m n top)
    (hn : n + m.reach * (k + 4 * c.program.useSites.length + 1) < Word.bound)
    (htop : top + (k + 4 * c.program.useSites.length) < Word.bound) : (start db).Spare c m k := by
  have hpotential := potential_le c (start db)
  exact ⟨⟨n, top, ho, room_le hn (by omega), by omega⟩, fun _ => trivial, fun _ => trivial⟩

variable {n top : Nat}

theorem Unwritten.index_lt (hs : s.Unwritten) (ho : s.db.Bounded m n top) {id : StructId}
    {l : Layout} (hl : s.db.structs.get? id = some l) : id.index < top := by
  have hbelow := hs.below hl
  have hnext : max s.db.nextId s.db.inner.nextId ≤ top := ho.next
  omega

theorem Unwritten.committed_nextId_le (hs : s.Unwritten) (ho : s.db.Bounded m n top) :
    s.declaredOverlay.committed.nextId ≤ top := by
  have hnext : max s.db.nextId s.db.inner.nextId ≤ top := ho.next
  rw [committed_nextId]
  refine Nat.lt_succ_iff.1 (Overlay.nextAfter_lt (by omega) fun l hl => ?_)
  obtain ⟨⟨id, _⟩, hmem, rfl⟩ := List.mem_map.1 hl
  have hget := Table.get?_eq_some_iff.2 hmem
  have hindex := hs.index_lt ho hget
  rw [hs.own hget]
  omega

theorem Unwritten.bounded_committed (hs : s.Unwritten) (hspare : s.Spare c m k)
    (ho : s.db.Bounded m n top) :
    (Overlay.ofDatabase s.declaredOverlay.committed).Bounded m n top where
  extent := ho.extent
  pointer := by
    rw [← ho.pointer]
    exact (Overlay.deleteAll_frame s.db.inner s.db.deleted.toList).1
  counter := by
    refine Nat.le_trans ho.counter ?_
    have hle := Overlay.le_nextAfter s.db.inner.nextId s.db.structs.values
    rw [← committed_nextId] at hle
    exact hle
  next := Nat.max_le.2 ⟨hs.committed_nextId_le ho, hs.committed_nextId_le ho⟩
  settled := by
    intro id l hl hlt
    exact ⟨(hs.committed_structs id).trans (ho.settled hl hlt).1, rfl⟩
  layout := by
    intro id l hl
    exact ho.layout ((hs.committed_structs id).symm.trans hl)
  declared := by
    intro var t ht
    have hcommitted : s.declaredOverlay.committed.declared.get? var = some t := ht
    rw [committed_declared] at hcommitted
    cases hfound : s.declarations.get? var with
    | some found =>
      rw [hfound] at hcommitted
      cases hcommitted
      rw [get?_declarations, Option.filter_eq_some_iff] at hfound
      have htype := hspare.vars var
      simpa [Run.varType, (known_of_knownTypes hfound.1).1, Resolution.type] using htype
    | none =>
      rw [hfound] at hcommitted
      have hdeclared : TypeStore.declared? s.db var =
          (s.db.declared.get? var <|> s.db.inner.declared.get? var) := rfl
      rw [hs.declared] at hdeclared
      exact ho.declared (hdeclared.trans hcommitted)

end Session

namespace Infer

open Session

theorem safe_commit (hs : s.Unwritten)
    (hspare : s.Spare c m (k + 4 * c.program.useSites.length)) (edges : List CallEdge) :
    Safe s (change (commit edges)) fun _ t => t.Spare c m k := by
  obtain ⟨n, top, ho, hn, htop⟩ := hspare.overlay
  -- the ids of the run are behind the counter, which is in range
  have hword : ∀ {id l}, s.declaredOverlay.structs.get? id = some l →
      id.index + 1 < Word.bound := by
    intro id l hl
    have hindex := hs.index_lt ho hl
    omega
  have htargets : s.declaredOverlay.callTargets = .empty := hs.callTargets
  have hcommit := Overlay.commit_eq_committed (o := s.declaredOverlay) hs.own hword
    hs.committed_structs (by simp [htargets])
  unfold Safe EndsAt
  rw [run_change, hs.commit_eq_ok hcommit edges]
  exact spare_start (hs.bounded_committed hspare ho) (room_le hn (by omega)) (by omega)

theorem safe_writeBack (hprogram : c.program.Bounded m) (hs : s.Unwritten)
    (hspare : s.Spare c m (k + 4 * c.program.useSites.length)) :
    Safe s (writeBack c) fun _ t => t.Spare c m k := by
  refine ends_bind (safe_propagateTracked hprogram hspare).with_run ?_
  rintro _ t ⟨ht, hrun⟩
  have hpushed := hs.leads (leads_of_moves (trails_propagateTracked.reaches hrun))
  refine ends_bind (safe_resolveCalls ht).with_run ?_
  rintro edges u ⟨hu, hresolved⟩
  obtain ⟨ds, _, rfl⟩ := resolveCalls_eq_ok hresolved
  refine safe_commit ?_ hu edges
  exact hpushed.frame rfl rfl

end Infer

namespace Operation

open Infer Session

/-- Whether all evidence that an operation looks at comes from the program and the database. -/
def addsNothing : Operation → Bool
  | visit _ => true
  | visitAll => true
  | typeVariable _ => true
  | typeReturn _ => true
  | propagate _ => true
  | indirectTarget _ => true
  | takeDiagnostics => true
  | apply => true
  | _ => false

def commits : Operation → Bool
  | apply => true
  | _ => false

/-- The merges that may come anew after an operation. -/
def charge (c : Context) (op : Operation) : Nat :=
  if op.commits then 4 * c.program.useSites.length else 0

theorem sum_charge (ops : List Operation) :
    (ops.map (charge c)).sum = 4 * c.program.useSites.length * ops.countP commits := by
  induction ops with
  | nil => rfl
  | cons op rest ih =>
    simp only [List.map_cons, List.sum_cons, ih, charge, List.countP_cons, Nat.mul_add]
    split <;> omega

theorem safe_perform (hprogram : c.program.Bounded m) {op : Operation}
    (hop : op.addsNothing = true) (hs : s.Unwritten) (hspare : s.Spare c m (k + op.charge c)) :
    Infer.Safe s (op.perform c) fun _ t => t.Spare c m k := by
  have hlevel := safe_ofContext hprogram
  cases op with
  | visit function =>
    exact ends_bind (safe_analyzeFunction hprogram hspare function) fun _ _ ht => ends_pure ht
  | visitAll => exact ends_bind (safe_analyzeEverything hprogram hspare) fun _ _ ht => ends_pure ht
  | typeVariable var =>
    exact ends_bind (hlevel.inferVariable var hspare) fun _ _ ht => ends_pure ht.1
  | typeReturn function =>
    exact ends_bind (hlevel.inferReturn function hspare) fun _ _ ht => ends_pure ht.1
  | propagate var => exact ends_bind (hlevel.propagate var hspare) fun _ _ ht => ends_pure ht
  | indirectTarget call =>
    exact ends_bind (safe_indirectTarget hspare call) fun _ _ ht => ends_pure ht
  | takeDiagnostics =>
    have htaken : Infer.Safe s Infer.takeDiagnostics fun _ t => t.Spare c m k :=
      ends_get_bind (ends_set_bind (ends_pure (hspare.frame rfl rfl rfl)))
    exact ends_bind htaken fun _ _ ht => ends_pure ht
  | apply => exact ends_bind (safe_writeBack hprogram hs hspare) fun _ _ ht => ends_pure ht
  | _ => cases hop

theorem safe_performAll (hprogram : c.program.Bounded m) {ops : List Operation}
    (hops : ∀ op ∈ ops, op.addsNothing = true) (hs : s.Unwritten)
    (hspare : s.Spare c m (k + (ops.map (charge c)).sum)) :
    Infer.Safe s (performAll c ops) fun _ t => t.Spare c m k := by
  unfold performAll
  induction ops generalizing s with
  | nil => exact ends_pure hspare
  | cons op rest ih =>
    rw [List.mapM_cons]
    have hfirst : s.Spare c m (k + (rest.map (charge c)).sum + op.charge c) := by
      refine hspare.mono ?_
      rw [List.map_cons, List.sum_cons]
      omega
    refine ends_bind (safe_perform hprogram (hops op (by simp)) hs hfirst).with_run ?_
    rintro reply t ⟨ht, hrun⟩
    have hrest := ih (fun other hother => hops other (by simp [hother]))
      (hs.leads ((trails_turns _).reaches hrun)) ht
    exact ends_bind hrest fun _ u hu => ends_pure hu

/-- Analyses return as long as the numbers they start from leave room for what they find. A use
reaches no further than `m.reach`, types, members and structs are no larger than `m.extent`, and
between two commits every use leads to at most four merges or new structs. Then no arithmetic leaves
the range of words, the structs and the types that are found stay within bounds, and all that can
keep a result from coming is a descent into structs that contain themselves at their start. -/
theorem arithmetic_stays_in_range (c : Context) (m : Margins) (hprogram : c.program.Bounded m)
    (hdb : m.db.Bounded m) (ops : List Operation) (hops : ∀ op ∈ ops, op.addsNothing = true)
    (hsize : m.extent + m.reach *
      (4 * c.program.useSites.length * (ops.countP commits + 1) + 1) < Word.bound)
    (hcount : m.db.nextId +
      4 * c.program.useSites.length * (ops.countP commits + 1) < Word.bound) :
    (∃ replies s, (performAll c ops).run (Session.start m.db) = .ok (replies, s) ∧
      s.db.next < Word.bound ∧ (∀ var, (s.varType var).Bounded m) ∧
      ∃ n < Word.bound, ∀ id l, TypeStore.layout? s.db id = some l → l.Bounded m n) ∨
    ∃ nesting, Cyclic nesting ∧
      (performAll c ops).run (Session.start m.db) = .error (.endless nesting) := by
  have hstart : (Session.start m.db).Spare c m (0 + (ops.map (charge c)).sum) := by
    rw [sum_charge, Nat.zero_add]
    rw [Nat.mul_succ] at hsize hcount
    exact spare_start hdb.overlay hsize hcount
  have hsafe := safe_performAll hprogram hops (unwritten_start m.db) hstart
  have hends := (ends_performAll ops (idle_start c m.db)).genuine
  cases hrun : (performAll c ops).run (Session.start m.db) with
  | ok p =>
    have hspare := hsafe.of_ok hrun
    obtain ⟨n, top, ho, hn, htop⟩ := hspare.overlay
    have hnext := ho.next
    exact .inl ⟨p.1, p.2, rfl, by omega, hspare.vars, n, by omega, fun _ _ hl => ho.layout hl⟩
  | error fault =>
    have hfault := hends fault hrun
    have hinRange := hsafe.stops fault hrun
    cases fault with
    | overflow op => exact hinRange.elim
    | endless nesting => exact .inr ⟨nesting, hfault, rfl⟩
    | exhausted => exact hfault.elim

/-- A struct is found through a parameter and its uses in a callee, points to one of the database,
and is committed before the program is analysed again. -/
theorem arithmetic_stays_in_range_found :
    let p : Variable := .local 4096 0
    let q : Variable := .local 8192 0
    let call : Call := { address := 4112, target := .explicit 8192 }
    let caller : FunctionBody := {
      address := 4096
      locals := [{ name := "p", isArg := true }]
      writes := [
        { var := p, chain := [.deref], value := .num 1 4 },
        { var := p, chain := [.add 8, .deref], value := .addressOf (.global 20480) }]
      casts := [{ var := p, chain := [], argIndex := 0, call }]
      calls := [call] }
    let callee : FunctionBody := {
      address := 8192
      locals := [{ name := "q", isArg := true }]
      writes := [{ var := q, chain := [.add 16, .deref], value := .num 2 8 }] }
    let c : Context := {
      program := (Program.addFunction {} caller).addFunction callee
      settings := {} }
    let db : Database := {
      structs := .ofList [(⟨0⟩, { id := ⟨0⟩, name := "node", size := 8 })]
      declared := .ofList [(.global 20480, .structPointer ⟨0⟩)]
      nextId := 1 }
    let m : Margins :=
      { db, reach := 32, extent := 64, reach_lt := by decide, pointer_le := by decide }
    let ops : List Operation := [.visitAll, .apply, .visit 4096, .propagate p, .apply]
    c.program.Bounded m ∧ db.Bounded m ∧ ∃ replies s,
      (performAll c ops).run (Session.start db) = .ok (replies, s) ∧
      (TypeStore.layout? s.db ⟨1⟩).map (·.size) = some 24 := by
  intro p q call caller callee c db m ops
  have hprogram : c.program.Bounded m := by decide +kernel
  have hdb : db.Bounded m := by decide +kernel
  have heval : (do
      let found ← (performAll c ops).run (Session.start db)
      pure ((TypeStore.layout? found.2.db ⟨1⟩).map (·.size))) = (.ok (some 24) : Checked _) := by
    decide +kernel
  have hrange := arithmetic_stays_in_range c m hprogram hdb ops (by decide) (by decide +kernel)
    (by decide +kernel)
  rcases hrange with ⟨replies, s, hs, _⟩ | ⟨nesting, _, hs⟩
  · rw [hs] at heval
    exact ⟨hprogram, hdb, replies, s, hs, Checked.pure_eq_ok.1 heval⟩
  · rw [hs] at heval
    cases heval

/-- A program is read in which a value is larger than what is left of the range of words behind the
member that it is written to. The type of the variable is not found, and the session stops. -/
theorem wide_value_overflows :
    let p : Variable := .local 4096 0
    let written : Program := Program.addFunction {} {
      address := 4096
      locals := [{ name := "p", isArg := true }]
      writes := [
        { var := p, chain := [.deref], value := .num 1 4 },
        { var := p, chain := [.add 8, .deref], value := .num 2 18446744073709551615 }] }
    ∃ program, Program.parse? written.render = some program ∧
      (performAll { program, settings := {} } [.typeVariable p]).run (Session.start {}) =
        .error (.overflow .add) := by
  intro p written
  let program := Program.ofParts written.functions.values written.imports.entries
  have hparse : Program.parse? written.render = some program := by
    have hread := Program.readAs (p := written) (by decide +kernel) (by decide +kernel)
    have hnest : written.toJson.nesting ≤ Json.maxNesting := by decide +kernel
    rw [Program.parse?, Program.render, Json.parse?_pretty hread.written hnest, Option.bind_some]
    exact hread.decoded hnest
  have heval : (fun _ => ()) <$>
      (performAll { program, settings := {} } [.typeVariable p]).run (Session.start {}) =
      (.error (.overflow .add) : Checked Unit) := by
    decide +kernel
  refine ⟨program, hparse, ?_⟩
  cases hrun : (performAll { program, settings := {} } [.typeVariable p]).run (Session.start {}) with
  | ok answer =>
    rw [hrun] at heval
    cases heval
  | error fault =>
    rw [hrun] at heval
    cases heval
    rfl

end Operation
end TypeRecovery
