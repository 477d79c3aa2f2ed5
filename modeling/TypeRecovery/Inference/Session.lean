import TypeRecovery.Inference.Run
import TypeRecovery.Program.Basic

/-!
# Sessions

A session is a run together with the bookkeeping of the inference over a program: which functions
were visited or put off, which variables were propagated, and how deep the inference is nested.
-/
namespace TypeRecovery

/-- What stays fixed during a session. -/
structure Context where
  program : Program
  settings : Settings

structure Session extends Run where
  analyzed : KeySet Nat := .empty
  /-- Functions cut off by the depth limit, visited again from the outermost call. -/
  deferred : KeySet Nat := .empty
  propagated : KeySet Variable := .empty
  depth : Nat := 0
deriving DecidableEq

namespace Session

def start (db : Database) : Session := { db := .ofDatabase db }

def isClean (s : Session) : Bool :=
  s.toRun.isClean && s.analyzed.isEmpty && s.deferred.isEmpty && s.propagated.isEmpty

/-- Forgets which functions and variables were worked on. -/
def forget (s : Session) : Session :=
  { s with analyzed := .empty, deferred := .empty, propagated := .empty, depth := 0 }

/-- Drops everything that the session has found. -/
def clear (s : Session) : Session := { s with toRun := s.toRun.rollback }.forget

end Session
end TypeRecovery
