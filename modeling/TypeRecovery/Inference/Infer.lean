import TypeRecovery.Inference.Session

/-!
# Computations on sessions

A computation reads and changes a session, and returns or stops. Besides its outcome it has a trail,
the sessions that it passes through. Nothing that a computation does depends on its trail: that is
there to speak of the way that a run takes.
-/
namespace TypeRecovery

@[ext]
structure Infer (α : Type) where
  run : Session → Checked (α × Session)
  /-- The session after each change, in order, up to where the computation returns or stops. -/
  trail : Session → List Session
  last_trail : ∀ {s a t}, run s = .ok (a, t) → (trail s).getLastD s = t

namespace Infer

variable {α β γ : Type}

/-- The trail of what follows a computation with the given outcome. -/
def trailAfter (f : α → Infer β) : Checked (α × Session) → List Session
  | .ok (a, t) => (f a).trail t
  | .error _ => []

theorem getLastD_append (l l' : List Session) (s : Session) :
    (l ++ l').getLastD s = l'.getLastD (l.getLastD s) := by
  simp only [List.getLastD_eq_getLast?, List.getLast?_append, Option.getD_or]

instance : Monad Infer where
  pure a := {
    run s := .ok (a, s)
    trail _ := []
    last_trail := by
      rintro _ _ _ ⟨⟩
      rfl }
  bind x f := {
    run s := do
      let (a, t) ← x.run s
      (f a).run t
    trail s := x.trail s ++ trailAfter f (x.run s)
    last_trail := by
      intro s b u h
      cases hx : x.run s with
      | error fault =>
        rw [hx] at h
        cases h
      | ok p =>
        rw [hx] at h
        rw [getLastD_append, x.last_trail hx]
        exact (f p.1).last_trail h }

theorem bind_pure_eq (x : Infer α) : x >>= pure = x := by
  refine Infer.ext (funext fun s => ?_) (funext fun s => ?_)
  · show (x.run s >>= fun p => .ok (p.1, p.2)) = x.run s
    cases x.run s <;> rfl
  · show x.trail s ++ trailAfter pure (x.run s) = x.trail s
    cases x.run s <;> exact List.append_nil _

theorem bind_bind_eq (x : Infer α) (f : α → Infer β) (g : β → Infer γ) :
    x >>= f >>= g = x >>= fun a => f a >>= g := by
  refine Infer.ext (funext fun s => ?_) (funext fun s => ?_)
  · show (x.run s >>= fun p => (f p.1).run p.2) >>= (fun p => (g p.1).run p.2) = _
    exact bind_assoc _ _ _
  · show (x.trail s ++ trailAfter f (x.run s)) ++ trailAfter g (x.run s >>= _) =
      x.trail s ++ trailAfter (fun a => f a >>= g) (x.run s)
    rw [List.append_assoc]
    cases x.run s <;> rfl

instance : LawfulMonad Infer :=
  LawfulMonad.mk' Infer bind_pure_eq (fun _ _ => rfl) bind_bind_eq

/-- To read a session is no change of it. -/
instance : MonadStateOf Session Infer where
  get := {
    run s := .ok (s, s)
    trail _ := []
    last_trail := by
      rintro _ _ _ ⟨⟩
      rfl }
  set t := {
    run _ := .ok (⟨⟩, t)
    trail _ := [t]
    last_trail := by
      rintro _ _ _ ⟨⟩
      rfl }
  modifyGet f := {
    run s := .ok (f s)
    trail s := [(f s).2]
    last_trail := by
      intro s a t h
      rw [Except.ok.inj h]
      rfl }

instance : MonadLift Checked Infer where
  monadLift x := {
    run s := do return (← x, s)
    trail _ := []
    last_trail := by
      intro s a t h
      cases x <;> cases h
      rfl }

/-- Its trail apart, a computation is a change of the session. -/
instance (priority := low) : MonadLift Infer (StateT Session Checked) where
  monadLift x := x.run

/-- Stops without a result. -/
def stop (fault : Fault) : Infer α := (throw fault : Checked α)

/-- Makes a change of the session in one go. -/
def change (e : Edit Session α) : Infer (Except Refusal α) := do
  let s ← get
  let (answer, t) ← (e.run.run s : Checked _)
  set t
  return answer

def report (d : Diagnostic) : Infer Unit :=
  modify fun s => { s with toRun := s.toRun.report d }

/-- Hands over the diagnostics collected so far. -/
def takeDiagnostics : Infer (List Diagnostic) := do
  let s ← get
  set { s with diagnostics := [] }
  return s.diagnostics

def resolve (var : Variable) (r : Resolution) : Infer Unit :=
  modify fun s => { s with vars := s.vars.insert var r }

def resolveReturn (function : Nat) (r : Resolution) : Infer Unit :=
  modify fun s => { s with returns := s.returns.insert function r }

/-- Runs a change on the overlay of the session. -/
def edit {α : Type} (change : Edit Overlay α) : Infer (Except Refusal α) := do
  let s ← get
  let (result, db) ← (change.run.run s.db : Checked _)
  set { s with db }
  return result

def createStruct (settings : Settings) : Infer StructId := do
  let s ← get
  let (id, run) ← s.toRun.createStruct settings
  set { s with toRun := run }
  return id

/-- Goes one level deeper, unless the limit is reached, which is reported. -/
def enter (settings : Settings) (subject : String) : Infer Bool := do
  if settings.maxDepth ≤ (← get).depth then
    report (.contractViolation .variableTypes subject
      (InferenceError.depthLimit settings.maxDepth).message)
    return false
  modify fun s => { s with depth := s.depth + 1 }
  return true

def leave : Infer Unit := modify fun s => { s with depth := s.depth - 1 }

end Infer
end TypeRecovery
