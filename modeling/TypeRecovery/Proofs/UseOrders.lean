import Mathlib.Data.List.Nodup
import TypeRecovery.Proofs.Containment
import TypeRecovery.Proofs.Extents

/-!
# The order of uses

Uses of one variable are collected function by function, so their order says nothing about the
program. Verdicts search the uses, keep the first of equal types and look at single entries;
`type_ignores_use_order` says that none of this lets the order show, except in the words of a
diagnostic.
-/
namespace TypeRecovery

theorem nodup_distinctTypes (ts : List Ty) : (distinctTypes ts).Nodup := by
  have hseen : ∀ seen : List Ty, seen.Nodup →
      (ts.foldl (fun seen t => if t ∈ seen then seen else seen ++ [t]) seen).Nodup := by
    induction ts with
    | nil => exact fun _ h => h
    | cons t rest ih =>
      intro seen h
      rw [List.foldl_cons]
      split
      · exact ih seen h
      case isFalse ht => exact ih _ (List.nodup_append_comm.1 (List.nodup_cons.2 ⟨ht, h⟩))
  exact hseen [] List.nodup_nil

theorem perm_distinctTypes {ts us : List Ty} (h : ts.Perm us) :
    (distinctTypes ts).Perm (distinctTypes us) := by
  rw [List.perm_ext_iff_of_nodup (nodup_distinctTypes ts) (nodup_distinctTypes us)]
  intro t
  rw [mem_distinctTypes, mem_distinctTypes, h.mem_iff]

theorem Ty.stops_renderWith_of_bearsStruct {F : Fault → Prop} {name : StructId → String} {t : Ty}
    (h : t.bearsStruct = true) : Checked.Stops F (t.renderWith name) := by
  induction t with
  | struct id => exact Checked.stops_pure _
  | pointer t ih => exact Checked.stops_bind (ih h) fun _ _ => Checked.stops_pure _
  | array t length ih =>
    cases length with
    | none => exact Checked.stops_bind (ih h) fun _ _ => Checked.stops_pure _
    | some n => exact Checked.stops_bind (ih h) fun _ _ => Checked.stops_pure _
  | _ => cases h

theorem Checked.agree_of_stops {α β : Type} {x : Checked α} {y : Checked β}
    (hx : Stops (fun _ => False) x) (hy : Stops (fun _ => False) y) :
    Agree (fun _ _ => True) x y := by
  cases x with
  | error fault => exact (hx fault rfl).elim
  | ok a =>
    cases y with
    | error fault => exact (hy fault rfl).elim
    | ok b => trivial

/-- The same uses in another order. -/
structure Uses.Perm (u v : Uses) : Prop where
  reads : u.reads.Perm v.reads
  writes : u.writes.Perm v.writes
  casts : u.casts.Perm v.casts

/-- A write through a pointer ends at a word. -/
def Write.Fits (db : Overlay) (w : Write) : Prop :=
  ∀ start, w.chain.pointerOffset? = some start →
    ∃ size, TypeStore.sizeOf db w.valueType = .ok size ∧ start + max (size.getD 1) 1 < Word.bound

/-- A write through a pointer ends at `limit` or before. -/
def Write.EndsBy (db : Overlay) (limit : Nat) (w : Write) : Prop :=
  ∀ start size, w.chain.pointerOffset? = some start → TypeStore.sizeOf db w.valueType = .ok size →
    start + max (size.getD 1) 1 ≤ limit

theorem Write.endsBy_iff {db : Overlay} {limit start : Nat} {w : Write} {size : Option Nat}
    (hstart : w.chain.pointerOffset? = some start)
    (hsize : TypeStore.sizeOf db w.valueType = .ok size) :
    w.EndsBy db limit ↔ start + max (size.getD 1) 1 ≤ limit := by
  constructor
  · exact fun hends => hends start size hstart hsize
  · intro hle start' size' hstart' hsize'
    cases hstart.symm.trans hstart'
    cases hsize.symm.trans hsize'
    exact hle

namespace Uses.Perm

variable {u v : Uses}

theorem isEmpty_eq (h : u.Perm v) : u.isEmpty = v.isEmpty := by
  unfold isEmpty size
  rw [h.reads.length_eq, h.writes.length_eq, h.casts.length_eq]

theorem assigns (h : u.Perm v) : u.assigns.Perm v.assigns := h.writes.filter _

theorem symm (h : u.Perm v) : v.Perm u := ⟨h.reads.symm, h.writes.symm, h.casts.symm⟩

theorem eq_of_write (h : u.Perm v) {w : Write} (hreads : u.reads = []) (hwrites : u.writes = [w])
    (hcasts : u.casts = []) : v = u := by
  have hreads' : v.reads = [] := List.perm_nil.1 (hreads ▸ h.reads.symm)
  have hwrites' : v.writes = [w] := List.perm_singleton.1 (hwrites ▸ h.writes.symm)
  have hcasts' : v.casts = [] := List.perm_nil.1 (hcasts ▸ h.casts.symm)
  cases u
  cases v
  simp_all

end Uses.Perm

namespace Verdict

/-- The same verdict, but for the reason why a type is unknown. -/
def Alike : Verdict → Verdict → Prop
  | type t, type t' => t = t'
  | unknown _, unknown _ => True
  | newStruct, newStruct => True
  | _, _ => False

theorem alike_refl (verdict : Verdict) : verdict.Alike verdict := by
  cases verdict with
  | type t => exact rfl
  | unknown reason => trivial
  | newStruct => trivial

variable {db : Overlay} {u v : Uses}

theorem ofAssigns_perm {assigns assigns' : List Write} (h : assigns.Perm assigns') :
    ofAssigns assigns = ofAssigns assigns' := by
  have htypes := perm_distinctTypes ((h.map (·.valueType)).filter Ty.bearsStruct)
  unfold ofAssigns
  split
  case h_1 w =>
    rw [← List.singleton_perm.1 h]
  case h_2 hnot =>
    split
    case h_1 w => exact (hnot w (List.perm_singleton.1 h)).elim
    case h_2 =>
      dsimp only
      rw [h.length_eq, htypes.length_eq]
      split
      case h_1 t ht =>
        rw [ht] at htypes
        rw [← List.singleton_perm.1 htypes]
      case h_2 hnone =>
        split
        case h_1 t ht =>
          rw [ht] at htypes
          exact (hnone t (List.perm_singleton.1 htypes)).elim
        case h_2 => rfl

theorem nonPointer?_eq_none : nonPointer? u = none ↔
    (∀ w ∈ u.writes, w.isPossiblePointer = true) ∧
    (∀ k ∈ u.casts, k.isPossiblePointer = true) ∧
    ∀ r ∈ u.reads, r.chain.isPossiblePointer = true := by
  have hwrites : u.writes.find? (!·.isPossiblePointer) = none ↔
      ∀ w ∈ u.writes, w.isPossiblePointer = true := by simp
  have hcasts : u.casts.find? (!·.isPossiblePointer) = none ↔
      ∀ k ∈ u.casts, k.isPossiblePointer = true := by simp
  unfold nonPointer?
  cases hwrite : u.writes.find? (!·.isPossiblePointer) with
  | some w =>
    rw [hwrite] at hwrites
    exact iff_of_false (by simp) fun h => nomatch hwrites.2 h.1
  | none =>
    cases hcast : u.casts.find? (!·.isPossiblePointer) with
    | some k =>
      rw [hcast] at hcasts
      exact iff_of_false (by simp) fun h => nomatch hcasts.2 h.2.1
    | none =>
      rw [and_iff_right (hwrites.1 hwrite), and_iff_right (hcasts.1 hcast)]
      simp

theorem nonPointer?_eq_none_perm (h : u.Perm v) : nonPointer? u = none ↔ nonPointer? v = none := by
  simp only [nonPointer?_eq_none, h.reads.mem_iff, h.writes.mem_iff, h.casts.mem_iff]

theorem perm_passedAs (h : u.Perm v) : (passedAs u).Perm (passedAs v) :=
  perm_distinctTypes (((h.casts.filter _).map _).filter _)

theorem stops_render_passedAs {F : Fault → Prop} (u : Uses) :
    Checked.Stops F ((passedAs u).mapM (TypeStore.render db)) := by
  refine Checked.stops_mapM fun t ht => Ty.stops_renderWith_of_bearsStruct ?_
  exact (List.mem_filter.1 (mem_distinctTypes.1 ht)).2

theorem writeOutside_eq_ok {writes : List Write} (h : ∀ w ∈ writes, w.Fits db) (limit : Nat) :
    ∃ outside, writeOutside db limit writes = .ok outside ∧
      (outside = none ↔ ∀ w ∈ writes, w.EndsBy db limit) := by
  induction writes with
  | nil => exact ⟨none, rfl, by simp⟩
  | cons w rest ih =>
    obtain ⟨outside, hrest, hiff⟩ := ih fun w' hw' => h w' (List.mem_cons_of_mem _ hw')
    unfold writeOutside
    split
    case h_1 hnone =>
      have hends : w.EndsBy db limit := by
        intro start size hstart
        cases hnone.symm.trans hstart
      refine ⟨outside, hrest, ?_⟩
      rw [hiff, List.forall_mem_cons, and_iff_right hends]
    case h_2 start hstart =>
      obtain ⟨size, hsize, hfits⟩ := h w (List.mem_cons_self ..) start hstart
      have hstop : Word.add start (max (size.getD 1) 1) = .ok (start + max (size.getD 1) 1) :=
        Word.add_eq_ok_iff.2 ⟨hfits, rfl⟩
      rw [List.forall_mem_cons, Write.endsBy_iff hstart hsize]
      by_cases hlimit : limit < start + max (size.getD 1) 1
      · refine ⟨some (start, max (size.getD 1) 1), ?_, ?_⟩
        · refine Checked.bind_eq_ok.2 ⟨size, hsize, Checked.bind_eq_ok.2 ⟨_, hstop, ?_⟩⟩
          rw [if_pos hlimit]
          rfl
        · simp only [reduceCtorEq, false_iff]
          intro hall
          omega
      · refine ⟨outside, ?_, ?_⟩
        · refine Checked.bind_eq_ok.2 ⟨size, hsize, Checked.bind_eq_ok.2 ⟨_, hstop, ?_⟩⟩
          rw [if_neg hlimit]
          exact hrest
        · rw [hiff, and_iff_right (by omega)]

theorem agree_writeOutside {writes writes' : List Write} (h : writes.Perm writes')
    (hfits : ∀ w ∈ writes, w.Fits db) (limit : Nat) :
    Checked.Agree (fun outside outside' => outside = none ↔ outside' = none)
      (writeOutside db limit writes) (writeOutside db limit writes') := by
  have hfits' : ∀ w ∈ writes', w.Fits db := fun w hw => hfits w (h.mem_iff.2 hw)
  obtain ⟨outside, houtside, hiff⟩ := writeOutside_eq_ok hfits limit
  obtain ⟨outside', houtside', hiff'⟩ := writeOutside_eq_ok hfits' limit
  rw [houtside, houtside']
  show outside = none ↔ outside' = none
  rw [hiff, hiff']
  simp only [h.mem_iff]

theorem agree_ofCastAndWrites {writes writes' : List Write} (h : writes.Perm writes')
    (hfits : ∀ w ∈ writes, w.Fits db) (argType : Ty) :
    Checked.Agree Alike (ofCastAndWrites db argType writes)
      (ofCastAndWrites db argType writes') := by
  refine Checked.Agree.bind_self fun size _ => ?_
  cases size with
  | none => exact Checked.Agree.bind_self fun _ _ => trivial
  | some limit =>
    refine Checked.Agree.bind (agree_writeOutside h hfits limit) fun outside outside' hnone => ?_
    cases outside with
    | none =>
      rw [hnone.1 rfl]
      exact rfl
    | some first =>
      cases outside' with
      | none => cases hnone.2 rfl
      | some first' => exact Checked.Agree.bind_self fun _ _ => trivial

theorem ofPointer_of_cast {k : Cast} (h : u.casts = [k]) :
    ofPointer db u =
      if k.isWhole then
        if u.writes.isEmpty then pure (type k.argType)
        else if k.argType.isKnown then ofCastAndWrites db k.argType u.writes
        else pure newStruct
      else pure newStruct := by
  obtain ⟨reads, writes, casts⟩ := u
  cases h
  unfold ofPointer
  split
  case h_1 hcasts => cases hcasts
  case h_2 hcasts =>
    cases hcasts
    rfl
  case h_3 hnot _ => exact (hnot k rfl).elim

theorem ofPointer_eq_newStruct (hwrite : ∀ w, ¬(u.reads = [] ∧ u.writes = [w] ∧ u.casts = []))
    (hcast : ∀ k, u.casts ≠ [k]) : ofPointer db u = pure newStruct := by
  unfold ofPointer
  split
  case h_1 w hreads hwrites hcasts => exact (hwrite w ⟨hreads, hwrites, hcasts⟩).elim
  case h_2 k hk => exact (hcast k hk).elim
  case h_3 => rfl

theorem agree_ofPointer (h : u.Perm v) (hfits : ∀ w ∈ u.writes, w.Fits db) :
    Checked.Agree Alike (ofPointer db u) (ofPointer db v) := by
  by_cases hcast : ∃ k, u.casts = [k]
  · obtain ⟨k, hk⟩ := hcast
    have hk' : v.casts = [k] := List.perm_singleton.1 (hk ▸ h.casts.symm)
    rw [ofPointer_of_cast hk, ofPointer_of_cast hk', h.writes.isEmpty_eq]
    split
    · split
      · exact rfl
      · split
        · exact agree_ofCastAndWrites h.writes hfits k.argType
        · exact trivial
    · exact trivial
  · by_cases hwrite : ∃ w, u.reads = [] ∧ u.writes = [w] ∧ u.casts = []
    · obtain ⟨w, hreads, hwrites, hcasts⟩ := hwrite
      rw [h.eq_of_write hreads hwrites hcasts]
      exact Checked.agree_self alike_refl _
    · have hwrite' : ¬ ∃ w, v.reads = [] ∧ v.writes = [w] ∧ v.casts = [] := by
        rintro ⟨w, hreads, hwrites, hcasts⟩
        have hsame := h.symm.eq_of_write hreads hwrites hcasts
        exact hwrite ⟨w, by rw [hsame]; exact ⟨hreads, hwrites, hcasts⟩⟩
      have hcast' : ¬ ∃ k, v.casts = [k] := by
        rintro ⟨k, hk⟩
        exact hcast ⟨k, List.perm_singleton.1 (hk ▸ h.casts)⟩
      rw [ofPointer_eq_newStruct (not_exists.1 hwrite) (not_exists.1 hcast),
        ofPointer_eq_newStruct (not_exists.1 hwrite') (not_exists.1 hcast')]
      exact trivial

theorem agree_ofUses (h : u.Perm v) (hfits : ∀ w ∈ u.writes, w.Fits db) :
    Checked.Agree Alike (ofUses db u) (ofUses db v) := by
  have hnone := nonPointer?_eq_none_perm h
  have htypes := perm_passedAs h
  unfold ofUses
  rw [h.isEmpty_eq, h.assigns.isEmpty_eq, ofAssigns_perm h.assigns]
  split
  · exact trivial
  · split
    · exact alike_refl _
    · cases hu : nonPointer? u with
      | some reason =>
        cases hv : nonPointer? v with
        | none => cases hu.symm.trans (hnone.2 hv)
        | some reason' => exact trivial
      | none =>
        rw [hnone.1 hu]
        dsimp only
        rw [htypes.length_eq]
        split
        · refine Checked.Agree.bind (R := fun _ _ => True) ?_ fun _ _ _ => trivial
          exact Checked.agree_of_stops (stops_render_passedAs u) (stops_render_passedAs v)
        · exact agree_ofPointer h hfits

end Verdict

namespace Infer

/-- The type of a variable and the session that is left do not depend on the order in which its
reads, writes and casts are given: a struct is made for both orders or for neither, and it is the
same. Only the diagnostics may differ, which name the first use that rules a type out. Without an
overflow there is a type. -/
theorem type_ignores_use_order (settings : Settings) (s : Session) (var : Variable) (u v : Uses)
    (hreads : u.reads.Perm v.reads) (hwrites : u.writes.Perm v.writes)
    (hcasts : u.casts.Perm v.casts) (hfits : ∀ w ∈ u.writes, w.Fits s.db) :
    Checked.Agree (fun p q => p.1 = q.1 ∧ q.2 = { p.2 with diagnostics := q.2.diagnostics })
      ((typeByUses settings var u).run s) ((typeByUses settings var v).run s) ∧
    Checked.Stops Fault.IsOverflow ((typeByUses settings var u).run s) := by
  constructor
  · simp only [typeByUses, run_get_bind, run_lift_bind]
    refine Checked.Agree.bind (Verdict.agree_ofUses ⟨hreads, hwrites, hcasts⟩ hfits) ?_
    intro verdict verdict' h
    cases verdict with
    | type t =>
      cases verdict' with
      | type t' => exact ⟨h, rfl⟩
      | _ => exact h.elim
    | unknown reason =>
      cases verdict' with
      | unknown reason' => exact ⟨rfl, rfl⟩
      | _ => exact h.elim
    | newStruct =>
      cases verdict' with
      | newStruct => exact Checked.agree_self (fun p => ⟨rfl, rfl⟩) _
      | _ => exact h.elim
  · exact (ends_typeByUses settings var u).stops

/-- Two writes that end outside of what a call expects, in both orders: the type is unknown, and the
reports tell the orders apart. -/
theorem type_ignores_use_order_outside :
    let p : Variable := .local 4096 0
    let write (offset : Int) : Write := {
      var := p, chain := [.add offset, .deref], value := .num 1 4, valueType := .int 4 true }
    let k : Cast := {
      var := p, chain := [], argIndex := 0, call := ⟨4200, .explicit 8192⟩,
      argType := .pointer (.int 4 true) }
    let u : Uses := { writes := [write 8, write 16], casts := [k] }
    let v : Uses := { writes := [write 16, write 8], casts := [k] }
    let s := Session.start {}
    (∀ w ∈ u.writes, w.Fits s.db) ∧
    ((typeByUses {} p u).run s).map (·.1) = .ok .unknown ∧
    ((typeByUses {} p u).run s).map (·.2.diagnostics) ≠
      ((typeByUses {} p v).run s).map (·.2.diagnostics) ∧
    Checked.Agree (fun p q => p.1 = q.1 ∧ q.2 = { p.2 with diagnostics := q.2.diagnostics })
      ((typeByUses {} p u).run s) ((typeByUses {} p v).run s) ∧
    Checked.Stops Fault.IsOverflow ((typeByUses {} p u).run s) := by
  intro p write k u v s
  have hfits : ∀ w ∈ u.writes, w.Fits s.db := by
    intro w hw start hstart
    refine ⟨some 4, ?_, ?_⟩
    · rcases hw with _ | ⟨_, _ | ⟨_, ⟨⟩⟩⟩ <;> rfl
    · rcases hw with _ | ⟨_, _ | ⟨_, ⟨⟩⟩⟩ <;> cases hstart <;> decide
  refine ⟨hfits, by decide +kernel, by decide +kernel, ?_⟩
  exact type_ignores_use_order {} s p u v (.refl _) (.swap _ _ _) (.refl _) hfits

end Infer
end TypeRecovery
