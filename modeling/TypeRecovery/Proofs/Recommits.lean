import TypeRecovery.Proofs.Recalls
import TypeRecovery.Proofs.Rests

/-!
# Analysing a program again

A program is analysed and committed, and then analysed and committed once more. The second run adds
to what the first one left: no struct changes, and no trusted declaration gets lost. It leaves the
database as it is if that agrees with the program. This can fail where the first run met a variable
that was still in progress, and the second finds it declared.
-/
namespace TypeRecovery

namespace Infer

open Session Context

variable {c : Context} {db : Database} {s : Session}

section Engine

variable (hengine : (Inference.ofContext c).Recalls c db)
include hengine

theorem recalls_analyzeEverything (hs : s.Steady c db) :
    Returns s (analyzeEverything c) fun _ t => Keeps (Steady c db) s t := by
  have hpop : ∀ {s : Session} {rest : KeySet Nat}, s.Steady c db →
      Steady c db { s with deferred := rest } :=
    fun hs => hs.frame rfl rfl rfl rfl rfl (Nat.le_refl _)
  refine ends_forM_move fun function _ _ hst => ?_
  exact analyzeFunction_keeps (F := (· = .exhausted)) rfl hpop hengine.visitFunction function
    (hst hs).1

theorem recalls_propagateTracked (hs : s.Steady c db) :
    Returns s (propagateTracked c) fun _ t => Keeps (Steady c db) s t := by
  refine ends_get_bind (ends_forM_move fun var _ t hst => ?_)
  refine (hengine.propagate var (hst hs).1).imp ?_
  rintro _ _ rfl
  exact refl _

end Engine

theorem recalls_indirectTarget (hs : s.Steady c db) {call : Call}
    (hresolves : c.resolves db call = true) :
    Returns s (indirectTarget c call) fun _ t => Keeps (Steady c db) s t := by
  unfold indirectTarget
  cases htarget : call.target with
  | implicit origin =>
    obtain ⟨found, hfound, _, hmessage⟩ := hs.targetOfOrigin_eq_ok htarget hresolves
    apply ends_get_bind
    rw [hfound]
    refine ends_lift_bind nofun fun found' heq => ?_
    cases heq
    cases found with
    | ok target => exact ends_pure (refl s)
    | error failure =>
      refine ends_lift_bind (Checked.stops_of_isOk (hmessage rfl)) fun text _ => ?_
      exact ends_modify_bind (ends_pure fun hs => ⟨hs.report _, rfl⟩)
  | _ => exact ends_pure (refl s)

theorem recalls_resolveCalls (hagrees : c.Agrees db) (hs : s.Steady c db) :
    Returns s (resolveCalls c) fun _ t => Keeps (Steady c db) s t := by
  unfold resolveCalls
  split
  · refine ends_get_bind (ends_bind (ends_mapM_move (R := Keeps (Steady c db))
      fun function _ t hst => ?_) fun _ _ hst => ends_pure hst)
    unfold indirectEdges
    cases hbody : c.program.function? function with
    | none => exact ends_pure (refl t)
    | some body =>
      refine ends_bind (ends_mapM_move (R := Keeps (Steady c db)) fun call hcall u htu => ?_)
        fun _ _ htu => ends_pure htu
      have hresolves := hagrees.resolves hbody
        (List.mem_append_right _ (List.mem_filter.1 hcall).1)
      refine ends_bind (recalls_indirectTarget (htu (hst hs).1).1 hresolves) fun _ _ huw => ?_
      exact ends_pure huw
  · exact ends_pure (refl s)

end Infer

namespace Session

variable {c : Context} {db : Database} {s t : Session}

theorem Steady.unwritten (h : s.Steady c db) : s.Unwritten :=
  (unwritten_start db).frame h.overlay h.newTypes

theorem Steady.committed_eq (h : s.Steady c db) : s.declaredOverlay.committed = db := by
  have hdeclared : s.declaredOverlay.committed.declared = db.declared := by
    refine Table.ext_get? fun var => ?_
    rw [committed_declared, h.overlay]
    cases hnew : s.declarations.get? var with
    | none => rfl
    | some type =>
      rw [get?_declarations, Option.filter_eq_some_iff] at hnew
      obtain ⟨hentry, hknown⟩ := known_of_knownTypes hnew.1
      exact (Context.declared_of_mem_answers (h.entry hentry) hknown).symm
  have hrest : s.declaredOverlay.committed =
      { db with declared := s.declaredOverlay.committed.declared } := by
    unfold declaredOverlay
    rw [h.overlay]
    rfl
  rw [hrest, hdeclared]

theorem Steady.commit_eq_ok (h : s.Steady c db) (edges : List CallEdge) :
    ∃ summary, (Infer.commit edges).run.run s = .ok (.ok summary, start db) ∧
      summary.structsCommitted = [] := by
  have hstructs : s.declaredOverlay.structs = .empty := by
    unfold declaredOverlay
    rw [h.overlay]
    rfl
  have htargets : s.declaredOverlay.callTargets = .empty := h.unwritten.callTargets
  have hcommit := Overlay.commit_eq_committed (o := s.declaredOverlay) h.unwritten.own
    (by rw [hstructs]; nofun) h.unwritten.committed_structs (by rw [htargets]; nofun)
  have hrun := h.unwritten.commit_eq_ok hcommit edges
  rw [h.committed_eq] at hrun
  refine ⟨_, hrun, ?_⟩
  rw [h.newTypes]
  rfl

end Session

namespace Operation

open Infer Session

variable {c : Context} {db : Database} {s t : Session}

/-- A run over a database that agrees with the program ends where it started. -/
theorem recalls_performAll (hagrees : c.Agrees db) :
    Returns (Session.start db) (performAll c [.visitAll, .apply]) fun replies t =>
      t = Session.start db ∧ ∃ summary, replies = [.done, .applied (.ok summary)] ∧
        summary.structsCommitted = [] := by
  have hengine : (Inference.ofContext c).Recalls c db := Inference.recalls_upTo hagrees _
  have hs := steady_start c db
  have hfirst : Returns (Session.start db) (perform c .visitAll) fun reply t =>
      reply = .done ∧ t.Steady c db :=
    ends_bind (recalls_analyzeEverything hengine hs) fun _ _ h => ends_pure ⟨rfl, (h hs).1⟩
  have hlast : ∀ t : Session, t.Steady c db → Returns t (perform c .apply) fun reply u =>
      u = Session.start db ∧ ∃ summary, reply = .applied (.ok summary) ∧
        summary.structsCommitted = [] := by
    intro t ht
    unfold perform writeBack
    rw [bind_assoc]
    refine ends_bind (recalls_propagateTracked hengine ht) fun _ u htu => ?_
    rw [bind_assoc]
    refine ends_bind (recalls_resolveCalls hagrees (htu ht).1) fun edges w huw => ?_
    obtain ⟨summary, hcommit, hnone⟩ := (huw (htu ht).1).1.commit_eq_ok edges
    rw [← run_change] at hcommit
    refine ends_of_run_eq_ok (Checked.bind_eq_ok.2 ⟨_, hcommit, rfl⟩) ⟨rfl, summary, rfl, hnone⟩
  unfold performAll
  rw [List.mapM_cons, List.mapM_cons, List.mapM_nil]
  refine ends_bind hfirst ?_
  rintro _ t ⟨rfl, ht⟩
  rw [bind_assoc]
  refine ends_bind (hlast t ht) ?_
  rintro _ _ ⟨rfl, summary, rfl, hnone⟩
  exact ends_pure ⟨rfl, summary, rfl, hnone⟩

theorem writtenBack_of_apply (hs : s.Staged db) {answer : Except Refusal Summary}
    (h : (Infer.apply c).run.run s = .ok (answer, t)) :
    t = Session.start t.db.inner ∧ t.db.inner.WellKeyed ∧
      ∃ (found : Session) (summary : Summary), found.WrittenBack db summary t := by
  rw [run_apply] at h
  obtain ⟨⟨_, found⟩, hfound, h⟩ := Checked.bind_eq_ok.1 h
  obtain ⟨⟨edges, later⟩, hlater, hcommit⟩ := Checked.bind_eq_ok.1 h
  obtain ⟨ds, hds, rfl⟩ := resolveCalls_eq_ok hlater
  have hstaged := (hs.moves (trails_propagateTracked.reaches hfound)).note hds
  rw [hstaged.commit_eq_ok edges] at hcommit
  cases hcommit
  exact ⟨rfl, hstaged.declaredOverlay.committed_wellKeyed, _, _, hstaged.writtenBack edges⟩

theorem writtenBack_of_performAll (hdb : db.WellKeyed) {replies : List Reply}
    (h : (performAll c [.visitAll, .apply]).run (Session.start db) = .ok (replies, t)) :
    t = Session.start t.db.inner ∧ t.db.inner.WellKeyed ∧
      ∃ (found : Session) (summary : Summary), found.WrittenBack db summary t := by
  obtain ⟨_, u, _, hvisit, hrest, _⟩ := performAll_cons_eq_ok.1 h
  obtain ⟨_, w, _, hperform, hnil, _⟩ := performAll_cons_eq_ok.1 hrest
  cases hnil
  have hother : Operation.visitAll ≠ .takeDiagnostics := nofun
  have hmoves := (trails_perform hother nofun nofun).reaches hvisit
  obtain ⟨⟨answer, v⟩, happly, hreply⟩ := Checked.bind_eq_ok.1 hperform
  cases hreply
  exact writtenBack_of_apply ((staged_start hdb).moves hmoves) happly

/-- A program that was analysed and committed is analysed and committed again. What the first run
left stays: the structs with their layouts, the call targets and the declarations that reach a
struct, other than those of skipped slots that something is passed as. If it agrees with the
program, the second run returns, creates no struct and leaves the whole session as it was. -/
theorem agreeing_recommit_unchanged (c : Context) (db : Database) (hdb : db.WellKeyed)
    (replies : List Reply) (s : Session)
    (hs : (performAll c [.visitAll, .apply]).run (Session.start db) = .ok (replies, s)) :
    (∀ fault, (performAll c [.visitAll, .apply]).run s = .error fault → fault.Genuine) ∧
    (∀ (later : List Reply) (t : Session),
      (performAll c [.visitAll, .apply]).run s = .ok (later, t) →
      (∀ id l, s.db.inner.structs.get? id = some l → t.db.inner.structs.get? id = some l) ∧
      t.db.inner.callTargets = s.db.inner.callTargets ∧
      ∀ var type, s.db.inner.declared.get? var = some type → type.bearsStruct = true →
        (∀ source, c.Adopts source var → c.skips var = false) →
        t.db.inner.declared.get? var = some type) ∧
    (c.Agrees s.db.inner → ∃ summary : Summary,
      (performAll c [.visitAll, .apply]).run s = .ok ([.done, .applied (.ok summary)], s) ∧
      summary.structsCommitted = []) := by
  obtain ⟨hstart, hkeyed, _⟩ := writtenBack_of_performAll hdb hs
  -- the second run starts like the first, over what that has written back
  generalize s.db.inner = first at hstart hkeyed ⊢
  subst hstart
  have hends := ends_performAll (c := c) [.visitAll, .apply] (idle_start c first)
  refine ⟨hends.genuine, ?_, ?_⟩
  · intro later t ht
    obtain ⟨_, _, found, summary, hwritten⟩ := writtenBack_of_performAll hkeyed ht
    refine ⟨hwritten.kept, hwritten.callTargets, ?_⟩
    intro var type hdeclared hbears hkept
    have hengine := Inference.trusts_upTo hbears hkept (2 * (c.program.weight + 2))
    have hunwritten := unwritten_start first
    have hfaithful := faithful_of_performAll hengine (faithful_start hdeclared) hunwritten rfl ht
    have hlast := hunwritten.leads (leads_of_performAll ht)
    exact (hlast.declared?_eq var).symm.trans hfaithful.declared
  · intro hagrees
    obtain ⟨_, _, hrun, rfl, summary, rfl, hnone⟩ :=
      (recalls_performAll hagrees).exists_run_eq_ok hends
    exact ⟨summary, hrun, hnone⟩

/-- The first run finds two structs, one by the uses of a variable that is returned and one by those
of a parameter that another variable is passed as, and types a number by what is assigned to it. -/
theorem agreeing_recommit_unchanged_returned :
    let p : Variable := .local 4096 0
    let q : Variable := .local 4096 1
    let param : Variable := .local 8192 0
    let v : Variable := .local 12288 0
    let n : Variable := .local 12288 1
    let call : Call := { address := 4112, target := .explicit 8192 }
    let c : Context := {
      program := ((Program.addFunction {} {
        address := 4096
        locals := [{ name := "p", isArg := true }, { name := "q", isArg := true }]
        writes := [
          { var := p, chain := [.deref], value := .num 0 4 },
          { var := p, chain := [.add 8, .deref], value := .num 0 4 }]
        casts := [{ var := q, chain := [], argIndex := 0, call }]
        returns := [{ var := p, chain := [] }]
        calls := [call] }).addFunction {
        address := 8192
        locals := [{ name := "param", isArg := true }]
        reads := [{ var := param, chain := [.add 4, .deref] }]
        writes := [{ var := param, chain := [.deref], value := .num 0 4 }] }).addFunction {
        address := 12288
        locals := [{ name := "v" }, { name := "n" }]
        reads := [{ var := v, chain := [.add 16, .deref] }]
        writes := [
          { var := v, chain := [], value := .call (.global 4096) [] },
          { var := n, chain := [], value := .num 7 4 }]
        calls := [{ address := 12292, target := .explicit 4096 }] }
      settings := {} }
    Database.WellKeyed {} ∧ ∃ replies s,
      (performAll c [.visitAll, .apply]).run (Session.start {}) = .ok (replies, s) ∧
      [p, q, param, v, n].map s.db.inner.declared.get? =
        [some (.structPointer ⟨1⟩), some (.structPointer ⟨0⟩), some (.structPointer ⟨0⟩),
          some (.structPointer ⟨1⟩), some (.uint 4)] ∧
      c.Agrees s.db.inner ∧ ∃ summary : Summary,
        (performAll c [.visitAll, .apply]).run s = .ok ([.done, .applied (.ok summary)], s) ∧
        summary.structsCommitted = [] := by
  intro p q param v n call c
  have hdb : Database.WellKeyed {} := Database.wellKeyed_of_entries (by decide) (by decide)
  have heval : (do
      let found ← (performAll c [.visitAll, .apply]).run (Session.start {})
      let db := found.2.db.inner
      pure ([p, q, param, v, n].map db.declared.get?, decide (c.Agrees db))) =
      (.ok ([some (.structPointer ⟨1⟩), some (.structPointer ⟨0⟩), some (.structPointer ⟨0⟩),
        some (.structPointer ⟨1⟩), some (.uint 4)], true) : Checked _) := by
    decide +kernel
  obtain ⟨⟨replies, s⟩, hs, heval⟩ := Checked.bind_eq_ok.1 heval
  simp only [Checked.pure_eq_ok, Prod.mk.injEq, decide_eq_true_eq] at heval
  obtain ⟨hdeclared, hagrees⟩ := heval
  have hagain := (agreeing_recommit_unchanged c {} hdb replies s hs).2.2 hagrees
  exact ⟨hdb, replies, s, hs, hdeclared, hagrees, hagain⟩

/-- Two variables are assigned to each other, and one of them a pointer to a struct as well. The
first run meets the second variable while the first is in progress, and finds no type for it. The
second run finds the first one declared, and declares the other. -/
theorem recommit_declares_more :
    let a : Variable := .local 4096 0
    let b : Variable := .local 4096 1
    let c : Context := {
      program := Program.addFunction {} {
        address := 4096
        locals := [{ name := "a" }, { name := "b" }]
        writes := [
          { var := a, chain := [], value := .slot 1 },
          { var := a, chain := [], value := .cast (.num 0 8) (.structPointer ⟨0⟩) },
          { var := b, chain := [], value := .slot 0 }] }
      settings := {} }
    let db : Database := {
      structs := .ofList [(⟨0⟩, { id := ⟨0⟩, name := "node", size := 8 })]
      nextId := 1 }
    db.WellKeyed ∧ ∃ replies s later t,
      (performAll c [.visitAll, .apply]).run (Session.start db) = .ok (replies, s) ∧
      (performAll c [.visitAll, .apply]).run s = .ok (later, t) ∧
      s.db.inner.declared.get? b = none ∧
      t.db.inner.declared.get? b = some (.structPointer ⟨0⟩) := by
  intro a b c db
  have hdb : db.WellKeyed := Database.wellKeyed_of_entries (by decide) (by decide)
  have heval : (do
      let first ← (performAll c [.visitAll, .apply]).run (Session.start db)
      let second ← (performAll c [.visitAll, .apply]).run first.2
      pure (first.2.db.inner.declared.get? b, second.2.db.inner.declared.get? b)) =
      (.ok (none, some (.structPointer ⟨0⟩)) : Checked _) := by
    decide +kernel
  obtain ⟨⟨replies, s⟩, hs, heval⟩ := Checked.bind_eq_ok.1 heval
  obtain ⟨⟨later, t⟩, ht, heval⟩ := Checked.bind_eq_ok.1 heval
  simp only [Checked.pure_eq_ok, Prod.mk.injEq] at heval
  exact ⟨hdb, replies, s, later, t, hs, ht, heval.1, heval.2⟩

end Operation
end TypeRecovery
