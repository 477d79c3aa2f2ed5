import TypeRecovery.Proofs.Inferences

/-!
# Operations on a session

All that can be done with a session, as data, so that any sequence of operations can be spoken of.
Inference stays in the overlay: nothing but a commit changes the database below it, and a session
that is cleared is one that has just been started on that database.
-/
namespace TypeRecovery

inductive Operation where
  | visit (function : Nat)
  | visitAll
  | typeVariable (var : Variable)
  | typeExpr (function : Nat) (e : Expr)
  | typeReturn (function : Nat)
  | propagate (var : Variable)
  | typeByUses (var : Variable) (uses : Uses)
  | addMemberType (id : StructId) (offset : Nat) (type : Ty)
  | createStruct
  | indirectTarget (call : Call)
  | takeDiagnostics
  | apply
  | clear

inductive Reply where
  | done
  | type (t : Ty)
  | struct (id : StructId)
  | target (address : Option Nat)
  | diagnostics (ds : List Diagnostic)
  | applied (result : Except Refusal Summary)

namespace Session

/-- Two sessions stand on the same database, and neither redirects a call that the other does
not. -/
def SameBase (s t : Session) : Prop :=
  t.db.inner = s.db.inner ∧ t.db.callTargets = s.db.callTargets

variable {settings : Settings} {s t : Session}

theorem sameBase_of_createStruct {id : StructId} {run : Run}
    (h : s.toRun.createStruct settings = .ok (id, run)) : SameBase s { s with toRun := run } := by
  obtain ⟨⟨_, o⟩, ho, hrun⟩ := Checked.bind_eq_ok.1 h
  obtain ⟨_, _, hcreate⟩ := Checked.bind_eq_ok.1 ho
  cases hcreate
  cases hrun
  exact ⟨rfl, rfl⟩

theorem Draft.sameBase (h : Draft settings s t) : s.SameBase t := by
  cases h with
  | create hcreate => exact sameBase_of_createStruct hcreate
  | _ => exact ⟨rfl, rfl⟩

theorem Step.sameBase (h : Step settings s t) : s.SameBase t := by
  cases h with
  | draft hdraft => exact hdraft.sameBase
  | _ => exact ⟨rfl, rfl⟩

theorem sameBase_of_moves (h : Relation.ReflTransGen (Step settings) s t) : s.SameBase t := by
  induction h with
  | refl => exact ⟨rfl, rfl⟩
  | tail _ hstep ih =>
    have hbase := hstep.sameBase
    exact ⟨hbase.1.trans ih.1, hbase.2.trans ih.2⟩

end Session

namespace Operation

open Infer

variable {c : Context} {s t : Session} {op : Operation} {reply : Reply}

def perform (c : Context) : Operation → Infer Reply
  | visit function => do
    analyzeFunction c function
    return .done
  | visitAll => do
    analyzeEverything c
    return .done
  | typeVariable var => return .type (← analyzeVariable c var)
  | typeExpr function e => return .type (← analyzeExpr c function e)
  | typeReturn function => return .type (← analyzeReturn c function)
  | propagate var => do
    Infer.propagate c var
    return .done
  | typeByUses var uses => return .type (← Infer.typeByUses c.settings var uses)
  | addMemberType id offset type => do
    Infer.addMemberType id offset type
    return .done
  | createStruct => return .struct (← Infer.createStruct c.settings)
  | indirectTarget call => return .target (← Infer.indirectTarget c call)
  | takeDiagnostics => return .diagnostics (← Infer.takeDiagnostics)
  | apply => return .applied (← writeBack c)
  | clear => do
    modify Session.clear
    return .done

/-- The operations in turn, with all replies. -/
def performAll (c : Context) (ops : List Operation) : Infer (List Reply) := ops.mapM (perform c)

theorem moves_replying {α : Type} {M : Manner} {x : Infer α} (f : α → Reply) (hx : M.Moves s x) :
    M.Moves s (x >>= fun a => pure (f a) : Infer Reply) :=
  moves_bind hx fun a _ => moves_pure (f a)

theorem trails_perform (hreports : op ≠ .takeDiagnostics) (happly : op ≠ .apply)
    (hclear : op ≠ .clear) : Trails (Session.Step c.settings) s (op.perform c) := by
  cases op with
  | visit function => exact moves_replying _ (along_analyzeFunction moves_ofContext function)
  | visitAll => exact moves_replying _ (along_analyzeEverything moves_ofContext)
  | typeVariable var => exact moves_replying .type (moves_ofContext.inferVariable var s)
  | typeExpr function e =>
    exact moves_replying .type (Inference.moves_exprType moves_ofContext.toTypes function e)
  | typeReturn function => exact moves_replying .type (moves_ofContext.inferReturn function s)
  | propagate var => exact moves_replying _ (moves_ofContext.propagate var s)
  | typeByUses var uses => exact moves_replying .type ((trails_typeByUses var uses).mono .draft)
  | addMemberType id offset type =>
    exact moves_replying _ ((trails_addMemberType id offset type).mono .sketch)
  | createStruct => exact moves_replying .struct (trails_createStruct.mono .sketch)
  | indirectTarget call =>
    exact moves_replying .target ((trails_indirectTarget call).mono Noted.step)
  | takeDiagnostics => exact absurd rfl hreports
  | apply => exact absurd rfl happly
  | clear => exact absurd rfl hclear

theorem sameBase_of_perform (happly : op ≠ .apply) (hclear : op ≠ .clear)
    (h : (op.perform c).run s = .ok (reply, t)) : s.SameBase t := by
  by_cases hreports : op = .takeDiagnostics
  · subst hreports
    cases h
    exact ⟨rfl, rfl⟩
  · exact Session.sameBase_of_moves ((trails_perform hreports happly hclear).reaches h)

theorem inner_of_perform (happly : op ≠ .apply) (h : (op.perform c).run s = .ok (reply, t)) :
    t.db.inner = s.db.inner := by
  by_cases hclear : op = .clear
  · subst hclear
    cases h
    rfl
  · exact (sameBase_of_perform happly hclear h).1

theorem performAll_cons_eq_ok {ops : List Operation} {replies : List Reply} :
    (performAll c (op :: ops)).run s = .ok (replies, t) ↔
      ∃ reply u rest, (op.perform c).run s = .ok (reply, u) ∧
        (performAll c ops).run u = .ok (rest, t) ∧ replies = reply :: rest := by
  unfold performAll
  rw [List.mapM_cons]
  constructor
  · intro h
    obtain ⟨⟨reply, u⟩, hop, h⟩ := Checked.bind_eq_ok.1 h
    obtain ⟨⟨rest, _⟩, hrest, h⟩ := Checked.bind_eq_ok.1 h
    cases h
    exact ⟨reply, u, rest, hop, hrest, rfl⟩
  · rintro ⟨reply, u, rest, hop, hrest, rfl⟩
    refine Checked.bind_eq_ok.2 ⟨(reply, u), hop, Checked.bind_eq_ok.2 ⟨(rest, t), hrest, rfl⟩⟩

theorem inner_of_performAll {ops : List Operation} {replies : List Reply}
    (happly : ∀ op ∈ ops, op ≠ .apply) (h : (performAll c ops).run s = .ok (replies, t)) :
    t.db.inner = s.db.inner := by
  induction ops generalizing s replies with
  | nil =>
    cases h
    rfl
  | cons op rest ih =>
    obtain ⟨_, u, _, hop, hrest, _⟩ := performAll_cons_eq_ok.1 h
    have hfirst := inner_of_perform (happly op (by simp)) hop
    have hlast := ih (fun other hother => happly other (by simp [hother])) hrest
    exact hlast.trans hfirst

/-- Whatever was done with a session, only a commit has changed the database below it, and once
cleared it is a new session on that database: empty, and with the same answers to the same
operations. -/
theorem cleared_session_is_new (c : Context) (db : Database) (ops : List Operation)
    (replies : List Reply) (s : Session)
    (hs : (performAll c ops).run (Session.start db) = .ok (replies, s)) :
    ((∀ op ∈ ops, op ≠ .apply) → s.db.inner = db) ∧
    (∀ (op : Operation) (reply : Reply) (t : Session), op ≠ .apply →
      (op.perform c).run s = .ok (reply, t) → t.db.inner = s.db.inner) ∧
    s.clear = Session.start s.db.inner ∧
    s.clear.isClean = true ∧ s.clear.diagnostics = [] ∧ s.clear.depth = 0 ∧
    TypeStore.nextId s.clear.db = TypeStore.nextId s.db.inner ∧
    ∀ more : List Operation, (performAll c (.clear :: more)).run s =
      (fun p => (.done :: p.1, p.2)) <$> (performAll c more).run (Session.start s.db.inner) := by
  refine ⟨fun happly => ?_, fun op reply t happly h => ?_, rfl, rfl, rfl, rfl, ?_, fun more => ?_⟩
  · exact inner_of_performAll happly hs
  · exact inner_of_perform happly h
  · exact Nat.max_self _
  · unfold performAll
    rw [List.mapM_cons, map_eq_pure_bind]
    rfl

/-- A session that wrote one struct back and holds another. -/
theorem cleared_session_is_new_after_commit :
    let p : Variable := .local 4096 0
    let c : Context := {
      program := Program.addFunction {} {
        address := 4096
        locals := [{ name := "p", isArg := true }]
        writes := [
          { var := p, chain := [.deref], value := .num 1 4 },
          { var := p, chain := [.add 8, .deref], value := .num 2 4 }] }
      settings := {} }
    ∃ replies s, (performAll c [.visitAll, .apply, .createStruct]).run (Session.start {}) =
        .ok (replies, s) ∧
      s.isClean = false ∧ s.db.inner ≠ {} ∧ s.clear = Session.start s.db.inner ∧
      (performAll c [.clear, .visitAll]).run s =
        (fun p => (.done :: p.1, p.2)) <$>
          (performAll c [.visitAll]).run (Session.start s.db.inner) := by
  intro p c
  have heval : (do
      let found ← (performAll c [.visitAll, .apply, .createStruct]).run (Session.start {})
      pure (found.2.isClean, decide (found.2.db.inner = {}))) =
      (.ok (false, false) : Checked _) := by
    decide +kernel
  obtain ⟨⟨replies, s⟩, hs, heval⟩ := Checked.bind_eq_ok.1 heval
  simp only [Checked.pure_eq_ok, Prod.mk.injEq, decide_eq_false_iff_not] at heval
  obtain ⟨_, _, hclear, _, _, _, _, hmore⟩ := cleared_session_is_new c {} _ replies s hs
  exact ⟨replies, s, hs, heval.1, heval.2, hclear, hmore [.visitAll]⟩

end Operation
end TypeRecovery
