import TypeRecovery.Proofs.WriteBacks

/-!
# Sessions turn by turn

Whatever is done with a session comes down to a few kinds of turns: the single steps of inference,
handing the reports over, committing and clearing. What every turn keeps holds after every sequence
of operations. The first such thing is that the overlay holds the structs of the run and nothing
else, whatever the database below it is like.
-/
namespace TypeRecovery

/-- The single changes that can be made to a session. -/
inductive Session.Turn (settings : Settings) : Session → Session → Prop
  | step {s t : Session} (h : Step settings s t) : Turn settings s t
  | handOver {s : Session} : Turn settings s { s with diagnostics := [] }
  | commit {s t : Session} {edges : List CallEdge} {answer : Except Refusal Summary}
      (h : (Infer.commit edges).run.run s = .ok (answer, t)) : Turn settings s t
  | clear {s : Session} : Turn settings s s.clear

namespace Session

variable {settings : Settings} {s t : Session}

/-- One session is reached from another turn by turn. -/
abbrev Leads (settings : Settings) : Session → Session → Prop :=
  Relation.ReflTransGen (Turn settings)

theorem leads_of_moves (h : Relation.ReflTransGen (Step settings) s t) : Leads settings s t :=
  Relation.ReflTransGen.mono (fun _ _ => .step) _ _ h

theorem Unwritten.turn (h : s.Unwritten) (hturn : Turn settings s t) : t.Unwritten := by
  cases hturn with
  | step hstep => exact h.step hstep
  | handOver => exact h.frame rfl rfl
  | commit hcommit =>
    obtain ⟨rfl, _⟩ := h.of_commit_eq_ok hcommit
    exact unwritten_start _
  | clear => exact unwritten_start _

theorem Unwritten.leads (h : s.Unwritten) (hleads : Leads settings s t) : t.Unwritten := by
  induction hleads with
  | refl => exact h
  | tail _ hturn ih => exact ih.turn hturn

end Session

namespace Operation

open Infer

variable {c : Context} {s t : Session}

theorem trails_writeBack : Trails (Session.Turn c.settings) s (writeBack c) := by
  refine moves_bind (trails_propagateTracked.mono .step) fun _ t => ?_
  refine moves_bind (trails_resolveCalls.mono fun h => .step h.step) fun edges u => ?_
  exact trails_change (stops_commit edges) .commit

/-- Whatever is done with a session is done turn by turn. -/
theorem trails_turns (op : Operation) : Trails (Session.Turn c.settings) s (op.perform c) := by
  by_cases hreports : op = .takeDiagnostics
  · subst hreports
    refine moves_replying .diagnostics (moves_get_bind ?_)
    exact moves_bind (trails_set (.single .handOver)) fun _ t => moves_pure _
  by_cases happly : op = .apply
  · subst happly
    exact moves_replying .applied trails_writeBack
  by_cases hclear : op = .clear
  · subst hclear
    exact moves_replying _ (trails_modify .clear)
  · exact (trails_perform hreports happly hclear).mono .step

theorem trails_performAll (ops : List Operation) :
    Trails (Session.Turn c.settings) s (performAll c ops) :=
  moves_mapM fun op _ _ => trails_turns op

/-- The sessions that a run of operations passes through, the one that it starts with first. -/
def sessions (c : Context) (db : Database) (ops : List Operation) : List Session :=
  Session.start db :: (performAll c ops).trail (Session.start db)

theorem isChain_sessions (c : Context) (db : Database) (ops : List Operation) :
    (sessions c db ops).IsChain (Relation.ReflGen (Session.Turn c.settings)) :=
  (trails_performAll ops).chain

theorem leads_of_mem_sessions {db : Database} {ops : List Operation} (h : s ∈ sessions c db ops) :
    Session.Leads c.settings (Session.start db) s :=
  reaches_of_mem (isChain_sessions c db ops) h

theorem leads_of_performAll {ops : List Operation} {replies : List Reply}
    (h : (performAll c ops).run s = .ok (replies, t)) : Session.Leads c.settings s t :=
  (trails_performAll ops).reaches h

end Operation
end TypeRecovery
