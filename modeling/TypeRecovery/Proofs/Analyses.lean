import TypeRecovery.Proofs.Progress
import TypeRecovery.Proofs.WriteBacks

/-!
# What can be asked of a session

The levels that `Inference.ofContext` stacks are enough in every session, so all that a session is
asked for ends. The functions put off by a visit are visited in turn: each of these visits analyses
one more function or leaves one less to visit, and after the last none is put off.
-/
namespace TypeRecovery

namespace Infer

open Session

variable {c : Context} {s : Session}

theorem ends_analyzeVariable (var : Variable) :
    Ends s (analyzeVariable c var) (Inference.Typed c s var) := by
  have hweight : s.unmarked c ≤ c.program.weight := unmarked_le_weight
  have hsurplus := c.program.surplus_le var
  exact (Inference.ends_upTo _).inferVariable var (by omega)

theorem ends_analyzeReturn (function : Nat) :
    Ends s (analyzeReturn c function) fun _ t => Infers c s t := by
  have hweight : s.unmarked c ≤ c.program.weight := unmarked_le_weight
  exact ((Inference.ends_upTo _).inferReturn function (by omega)).imp fun _ _ h => h.1

theorem ends_analyzeExpr (function : Nat) (e : Expr) :
    Ends s (analyzeExpr c function e) fun _ t => Infers c s t := by
  have hweight : s.unmarked c ≤ c.program.weight := unmarked_le_weight
  refine Inference.ends_exprType (Inference.ends_upTo _) (by omega) fun {var} _ => ?_
  have hsurplus := c.program.surplus_le var
  omega

theorem ends_propagate (var : Variable) :
    Ends s (propagate c var) fun _ t => Inference.Propagated c s var t := by
  have hweight : s.unmarked c ≤ c.program.weight := unmarked_le_weight
  have hslots : s.unvisited c + s.unpropagated c ≤ c.program.weight :=
    unvisited_add_unpropagated_le_weight
  refine (Inference.ends_upTo _).propagate var ?_
  split <;> omega

theorem ends_visitFunction (function : Nat) :
    Ends s ((Inference.ofContext c).visitFunction function) fun _ t =>
      Inference.Visited c s function t := by
  have hweight : s.unmarked c ≤ c.program.weight := unmarked_le_weight
  have hslots : s.unvisited c + s.unpropagated c ≤ c.program.weight :=
    unvisited_add_unpropagated_le_weight
  exact (Inference.ends_upTo _).visitFunction function (by omega)

theorem size_deferred_le (h : ∀ function, s.deferred.contains function = true →
    c.program.hasBody function) : s.deferred.size ≤ c.program.functions.size :=
  Table.size_le_of_contains h

theorem drain_lt {function : Nat} {t : Session} (hpop : s.deferred.contains function = true)
    (hbody : c.program.hasBody function) (hst : Visits c s t)
    (hdone : t.analyzed.contains function = true)
    (hagain : s.analyzed.contains function = true →
      t = { s with deferred := s.deferred.erase function })
    (hsize : t.deferred.size ≤ c.program.functions.size) :
    t.unvisited c * (c.program.functions.size + 1) + t.deferred.size <
      s.unvisited c * (c.program.functions.size + 1) + s.deferred.size := by
  by_cases hanalyzed : s.analyzed.contains function = true
  · have hlt : (s.deferred.erase function).size < s.deferred.size := Table.size_erase_lt hpop
    rw [hagain hanalyzed]
    exact Nat.add_lt_add_left hlt _
  · have hlt : t.unvisited c < s.unvisited c :=
      Table.missing_lt_of_contains (fun _ => hst.analyzed) (Table.mem_keys_iff.2 hbody)
        (by simpa using hanalyzed) hdone
    have hmul : (t.unvisited c + 1) * (c.program.functions.size + 1) ≤
        s.unvisited c * (c.program.functions.size + 1) := Nat.mul_le_mul_right _ hlt
    rw [Nat.add_mul] at hmul
    omega

theorem ends_drainDeferred (fuel : Nat) (hdepth : s.depth = 0)
    (hdeferred : ∀ function, s.deferred.contains function = true → c.program.hasBody function)
    (hfuel : s.unvisited c * (c.program.functions.size + 1) + s.deferred.size < fuel) :
    Ends s (drainDeferred c fuel) fun _ t => Visits c s t ∧ t.deferred = .empty := by
  induction fuel generalizing s with
  | zero => exact absurd hfuel (by omega)
  | succ fuel ih =>
    apply ends_get_bind
    split
    case h_1 hnone => exact ends_pure ⟨refl s, KeySet.popFirst?_eq_none hnone⟩
    case h_2 function rest hsome =>
      obtain ⟨hpop, rfl⟩ := KeySet.popFirst?_eq_some hsome
      refine ends_modify_bind (ends_bind (ends_visitFunction function) fun _ t ht => ?_)
      have hdone : t.analyzed.contains function = true :=
        ht.outermost hdepth (hdeferred function hpop)
      have hst : Visits c s t := ht.visits.resume (.inl hdone)
      have hdeferred' : ∀ other, t.deferred.contains other = true → c.program.hasBody other := by
        intro other hother
        rcases hst.deferred hother with hs | ⟨_, hbody⟩
        · exact hdeferred other hs
        · exact hbody
      have hlt := drain_lt hpop (hdeferred function hpop) hst hdone ht.again
        (size_deferred_le hdeferred')
      refine (ih (hst.depth.trans hdepth) hdeferred' (by omega)).imp ?_
      rintro _ u ⟨htu, hempty⟩
      exact ⟨hst.trans htu, hempty⟩

theorem ends_analyzeFunction (function : Nat) (hdepth : s.depth = 0)
    (hdeferred : s.deferred = .empty) :
    Ends s (analyzeFunction c function) fun _ t => Visits c s t ∧ t.deferred = .empty ∧
      (c.program.hasBody function → t.analyzed.contains function = true) := by
  refine ends_bind (ends_visitFunction function) fun _ t ht => ends_get_bind ?_
  have hst := ht.visits
  have hzero : t.depth = 0 := hst.depth.trans hdepth
  rw [if_pos hzero]
  have hbodies : ∀ other, t.deferred.contains other = true → c.program.hasBody other := by
    intro other hother
    rcases hst.deferred hother with hs | ⟨_, hbody⟩
    · rw [hdeferred] at hs
      exact absurd hs (by simp)
    · exact hbody
  have hfuel : t.unvisited c * (c.program.functions.size + 1) + t.deferred.size <
      (c.program.functions.size + 1) * (c.program.functions.size + 1) + 1 := by
    have hsize := size_deferred_le hbodies
    have hunvisited : t.unvisited c ≤ c.program.functions.size := by
      rw [Table.size_eq_length_keys]
      exact t.analyzed.missing_le_length _
    have hmul := Nat.mul_le_mul_right (c.program.functions.size + 1) hunvisited
    rw [Nat.add_mul c.program.functions.size 1]
    omega
  refine (ends_drainDeferred _ hzero hbodies hfuel).imp ?_
  rintro _ u ⟨htu, hempty⟩
  exact ⟨hst.trans htu, hempty, fun hbody => htu.analyzed (ht.outermost hdepth hbody)⟩

theorem ends_analyzeEverything (hdepth : s.depth = 0) (hdeferred : s.deferred = .empty) :
    Ends s (analyzeEverything c) fun _ t => Visits c s t ∧ t.deferred = .empty := by
  unfold analyzeEverything
  induction c.program.functionAddresses generalizing s with
  | nil => exact ends_pure ⟨refl s, hdeferred⟩
  | cons function rest ih =>
    refine ends_bind (ends_analyzeFunction function hdepth hdeferred) ?_
    rintro _ t ⟨hst, hempty, _⟩
    refine (ih (hst.depth.trans hdepth) hempty).imp ?_
    rintro _ u ⟨htu, hempty'⟩
    exact ⟨hst.trans htu, hempty'⟩

theorem ends_propagateTracked : Ends s (propagateTracked c) fun _ t => Propagates c s t ∧
    (c.settings.isEnabled .crossCallPropagation = true → ∀ var ∈ s.trackedVariables,
      s.isProvisional (s.varType var) = true → t.propagated.contains var = true) := by
  apply ends_get_bind
  have hloop := ends_forM (R := Propagates c) (s := s) (f := propagate c)
    (P := fun var t => c.settings.isEnabled .crossCallPropagation = true →
      s.isProvisional (s.varType var) = true → t.propagated.contains var = true)
    (fun var t u ht htu henabled hvar => htu.propagated (ht henabled hvar))
    fun var (_ : var ∈ s.trackedVariables) t hst => by
      refine (ends_propagate var).imp fun _ u htu => ⟨htu.propagates, fun henabled hvar => ?_⟩
      have hentry := hst.entry_of_known (Inference.entry_of_isProvisional hvar)
        (ne_unknown_of_isProvisional hvar)
      have htype : t.varType var = s.varType var := by simp [Run.varType, hentry, Resolution.type]
      refine htu.marked henabled ?_
      rw [htype]
      exact isProvisional_mono hst.newTypes hvar
  refine hloop.imp ?_
  rintro _ t ⟨hst, hmarked⟩
  exact ⟨hst, fun henabled var hvar => hmarked var hvar henabled⟩

theorem ends_indirectEdges (function : Nat) :
    Ends s (indirectEdges c function) fun _ t => s.Kept t := by
  unfold indirectEdges
  split
  · exact ends_pure (refl s)
  · refine ends_bind (ends_mapM_move (R := Session.Kept) fun call _ t _ => ?_) fun _ t hst => ?_
    · exact ends_bind (ends_indirectTarget c call) fun _ u htu => ends_pure htu
    · exact ends_pure hst

theorem ends_resolveCalls : Ends s (resolveCalls c) fun _ t => s.Kept t := by
  unfold resolveCalls
  split
  · refine ends_get_bind (ends_bind (ends_mapM_move (R := Session.Kept) fun function _ t _ => ?_)
      fun _ t hst => ?_)
    · exact ends_indirectEdges function
    · exact ends_pure hst
  · exact ends_pure (refl s)

end Infer

namespace Overlay

theorem commit_of_callTargets {o o' : Overlay} {answer : Except Refusal CommitReport}
    (h : commit.run.run o = .ok (answer, o')) (ho : o.callTargets = .empty) :
    ∃ report db, answer = .ok report ∧ o' = ofDatabase db := by
  simp only [commit, Edit.run_get_bind, Edit.run_lift_bind, ho] at h
  obtain ⟨db, _, h⟩ := Checked.bind_eq_ok.1 h
  cases h
  exact ⟨_, _, rfl, rfl⟩

end Overlay

namespace Run

theorem report_foldl (r : Run) (es : List (Variable × Refusal)) :
    es.foldl (fun r e => r.report (refusedWriteBack e.1 e.2)) r =
      { r with diagnostics := r.diagnostics ++ es.map fun e => refusedWriteBack e.1 e.2 } := by
  induction es generalizing r with
  | nil => simp
  | cons e rest ih =>
    rw [List.foldl_cons, ih]
    simp [report]

theorem commit_of_callTargets {r r' : Run} {answer : Except Refusal WriteBack}
    (h : commit.run.run r = .ok (answer, r')) (hr : r.db.callTargets = .empty) :
    ∃ written db diagnostics, answer = .ok written ∧ r' = { Run.start db with diagnostics } := by
  simp only [commit, Edit.run_get_bind, Edit.run_lift_bind, declareResolved_foldl] at h
  obtain ⟨⟨found, o⟩, ho, h⟩ := Checked.bind_eq_ok.1 h
  obtain ⟨report, db, rfl, rfl⟩ := Overlay.commit_of_callTargets ho hr
  simp only [report_foldl] at h
  cases h
  exact ⟨_, db, _, rfl, rfl⟩

end Run

namespace Infer

open Session

variable {c : Context} {s : Session}

theorem commit_of_callTargets {edges : List CallEdge} {t : Session}
    {answer : Except Refusal Summary} (h : (commit edges).run.run s = .ok (answer, t))
    (hs : s.db.callTargets = .empty) :
    ∃ summary db, answer = .ok summary ∧ t = Session.start db := by
  simp only [commit, Edit.run_get_bind, Edit.run_lift_bind] at h
  obtain ⟨⟨found, run⟩, hrun, h⟩ := Checked.bind_eq_ok.1 h
  obtain ⟨written, db, diagnostics, rfl, rfl⟩ := Run.commit_of_callTargets hrun hs
  cases h
  exact ⟨_, db, rfl, rfl⟩

end Infer
end TypeRecovery
