import Mathlib.Data.List.Chain
import TypeRecovery.Proofs.Faults

/-!
# Trails

Much of what is said of a computation on a session is kept when computations follow one another, so
that it is enough to see to the single changes. `Infer.Manner` is what such statements have in
common. Two kinds of them are used throughout: `Infer.Moves` says how the session that a computation
returns with is reached, and `Infer.Trails` says how each session on its trail follows from the one
before, whether it returns or not.
-/
namespace TypeRecovery

variable {α β : Type} {R R' : Session → Session → Prop} {s t : Session}

/-- If the fault tells of structs that are nested without end, it tells of those of the overlay. -/
def Fault.NestedIn (o : Overlay) : Fault → Prop
  | endless nesting => nesting = TypeStore.nesting o
  | _ => True

instance (o : Overlay) : Fault.Overflows (Fault.NestedIn o) := ⟨fun _ => trivial⟩

theorem Fault.nestedIn_endless (o : Overlay) : (endless (TypeStore.nesting o)).NestedIn o := rfl

/-- Among a session and those that follow on a trail, one has a property. -/
def Session.Meets (s : Session) (P : Session → Prop) (trail : List Session) : Prop :=
  ∃ u ∈ s :: trail, P u

namespace Session.Meets

variable {P : Session → Prop} {trail rest : List Session}

theorem append_left (h : s.Meets P trail) (rest : List Session) : s.Meets P (trail ++ rest) := by
  obtain ⟨u, hu, hP⟩ := h
  exact ⟨u, List.mem_append_left rest hu, hP⟩

theorem append_right (h : t.Meets P rest) (hlast : trail.getLastD s = t) :
    s.Meets P (trail ++ rest) := by
  obtain ⟨u, hu, hP⟩ := h
  refine ⟨u, ?_, hP⟩
  rcases List.mem_cons.1 hu with rfl | hu
  · have hmem : trail.getLastD s ∈ s :: trail := List.getLastD_mem_cons
    rw [hlast] at hmem
    exact List.mem_append_left rest hmem
  · exact List.mem_append_right (s :: trail) hu

theorem cons (h : t.Meets P trail) : s.Meets P (t :: trail) := by
  obtain ⟨u, hu, hP⟩ := h
  exact ⟨u, List.mem_cons_of_mem s hu, hP⟩

end Session.Meets

namespace Infer

/-- Something to say of where a computation starts, how it ends and which sessions it passes
through, that is kept when computations follow one another. -/
structure Manner where
  Fits : (α : Type) → Session → Checked (α × Session) → List Session → Prop
  pure : ∀ {α : Type} (a : α) (s : Session), Fits α s (.ok (a, s)) []
  stop : ∀ {α β : Type} {s : Session} {fault : Fault} {trail : List Session},
    Fits α s (.error fault) trail → Fits β s (.error fault) trail
  bind : ∀ {α β : Type} {a : α} {s t : Session} {outcome : Checked (β × Session)}
    {trail rest : List Session}, Fits α s (.ok (a, t)) trail → trail.getLastD s = t →
      Fits β t outcome rest → Fits β s outcome (trail ++ rest)

def Manner.Moves (M : Manner) (s : Session) (x : Infer α) : Prop :=
  M.Fits α s (x.run s) (x.trail s)

section Manners

variable {M : Manner}

theorem moves_pure (a : α) : M.Moves s (pure a) := M.pure a s

theorem moves_bind_of_run {x : Infer α} {f : α → Infer β} (hx : M.Moves s x)
    (hf : ∀ a t, x.run s = .ok (a, t) → M.Moves t (f a)) : M.Moves s (x >>= f) := by
  have hrun : (x >>= f).run s = x.run s >>= fun p => (f p.1).run p.2 := rfl
  have htrail : (x >>= f).trail s = x.trail s ++ trailAfter f (x.run s) := rfl
  unfold Manner.Moves at hx ⊢
  rw [hrun, htrail]
  cases hresult : x.run s with
  | error fault =>
    rw [hresult] at hx
    rw [trailAfter, List.append_nil]
    exact M.stop hx
  | ok p =>
    rw [hresult] at hx
    exact M.bind hx (x.last_trail hresult) (hf p.1 p.2 hresult)

theorem moves_bind {x : Infer α} {f : α → Infer β} (hx : M.Moves s x)
    (hf : ∀ a t, M.Moves t (f a)) : M.Moves s (x >>= f) :=
  moves_bind_of_run hx fun a t _ => hf a t

theorem moves_get_bind {f : Session → Infer β} (hf : M.Moves s (f s)) : M.Moves s (get >>= f) :=
  hf

theorem moves_map {x : Infer α} (f : α → β) (hx : M.Moves s x) : M.Moves s (f <$> x) := by
  rw [map_eq_pure_bind]
  exact moves_bind hx fun a t => moves_pure _

theorem moves_forM {f : α → Infer PUnit} {xs : List α} (hf : ∀ x ∈ xs, ∀ t, M.Moves t (f x)) :
    M.Moves s (xs.forM f) := by
  induction xs generalizing s with
  | nil => exact moves_pure _
  | cons x rest ih =>
    refine moves_bind (hf x (by simp) s) fun _ t => ih ?_
    intro y hy
    exact hf y (by simp [hy])

theorem moves_mapM {f : α → Infer β} {xs : List α} (hf : ∀ x ∈ xs, ∀ t, M.Moves t (f x)) :
    M.Moves s (xs.mapM f) := by
  induction xs generalizing s with
  | nil => exact moves_pure _
  | cons x rest ih =>
    rw [List.mapM_cons]
    refine moves_bind (hf x (by simp) s) fun b t => moves_bind (ih ?_) fun bs t => moves_pure _
    intro y hy
    exact hf y (by simp [hy])

end Manners

def Manner.reaching (R : Session → Session → Prop) : Manner where
  Fits _ s outcome _ := ∀ a t, outcome = .ok (a, t) → Relation.ReflTransGen R s t
  pure a s := by
    rintro _ _ ⟨⟩
    exact .refl
  stop _ := nofun
  bind hfirst _ hrest := fun b u hu => (hfirst _ _ rfl).trans (hrest b u hu)

/-- From `s`, whatever session the computation returns with is reached along a relation. -/
def Moves (R : Session → Session → Prop) (s : Session) (x : Infer α) : Prop :=
  (Manner.reaching R).Moves s x

theorem moves_iff {x : Infer α} :
    Moves R s x ↔ ∀ a t, x.run s = .ok (a, t) → Relation.ReflTransGen R s t := Iff.rfl

theorem Moves.reaches {x : Infer α} (hx : Moves R s x) {a : α} (hrun : x.run s = .ok (a, t)) :
    Relation.ReflTransGen R s t :=
  hx a t hrun

theorem Moves.mono {x : Infer α} (hx : Moves R s x) (h : ∀ {s t}, R s t → R' s t) :
    Moves R' s x :=
  moves_iff.2 fun _ _ hrun => Relation.ReflTransGen.mono (fun _ _ => h) _ _ (hx.reaches hrun)

theorem Moves.yields {x : Infer α} (h : Moves R s x) :
    Yields s x fun _ t => Relation.ReflTransGen R s t :=
  yields_iff.2 h

theorem moves_modify {f : Session → Session} (h : R s (f s)) : Moves R s (modify f) := by
  rintro _ _ ⟨⟩
  exact .single h

/-- The sessions on a trail follow one another along a relation, but for changes that leave a session
as it is. What is given up on because it is nested without end is so in one of them. -/
structure Course (R : Session → Session → Prop) (s : Session) (outcome : Checked (α × Session))
    (trail : List Session) : Prop where
  chain : (s :: trail).IsChain (Relation.ReflGen R)
  nested : ∀ fault, outcome = .error fault → s.Meets (fun u => fault.NestedIn u.db) trail

theorem isChain_append {l l' : List Session} (hl : (s :: l).IsChain R) (hlast : l.getLastD s = t)
    (hl' : (t :: l').IsChain R) : (s :: (l ++ l')).IsChain R := by
  induction l generalizing s with
  | nil =>
    obtain rfl : s = t := hlast
    exact hl'
  | cons u rest ih =>
    rw [List.isChain_cons_cons] at hl
    rw [List.getLastD_cons] at hlast
    exact List.isChain_cons_cons.2 ⟨hl.1, ih hl.2 hlast⟩

/-- To change the session along a relation. -/
def Manner.chaining (R : Session → Session → Prop) : Manner where
  Fits _ s _ trail := (s :: trail).IsChain (Relation.ReflGen R)
  pure _ s := .singleton s
  stop h := h
  bind := isChain_append

def Manner.stepping (R : Session → Session → Prop) : Manner where
  Fits _ := Course R
  pure _ s := ⟨.singleton s, nofun⟩
  stop h := ⟨h.chain, fun fault hfault => by
    cases hfault
    exact h.nested _ rfl⟩
  bind hfirst hlast hrest := ⟨isChain_append hfirst.chain hlast hrest.chain,
    fun fault hfault => (hrest.nested fault hfault).append_right hlast⟩

/-- From `s`, a computation changes the session along a relation, change by change. -/
def Trails (R : Session → Session → Prop) (s : Session) (x : Infer α) : Prop :=
  (Manner.stepping R).Moves s x

namespace Trails

variable {x : Infer α}

theorem chain (h : Trails R s x) : (s :: x.trail s).IsChain (Relation.ReflGen R) :=
  Course.chain h

theorem nested (h : Trails R s x) {nesting : List (Nat × Nat)}
    (hrun : x.run s = .error (.endless nesting)) :
    ∃ u ∈ s :: x.trail s, nesting = TypeStore.nesting u.db :=
  Course.nested h _ hrun

theorem mono (h : Trails R s x) (hR : ∀ {s t}, R s t → R' s t) : Trails R' s x :=
  ⟨h.chain.imp fun _ _ hst => hst.mono fun _ _ => hR, Course.nested h⟩

end Trails

theorem reaches_of_isChain {l : List Session} (h : (s :: l).IsChain (Relation.ReflGen R)) :
    Relation.ReflTransGen R s (l.getLastD s) := by
  induction l generalizing s with
  | nil => exact .refl
  | cons t rest ih =>
    obtain ⟨hst, hrest⟩ := List.isChain_cons_cons.1 h
    rw [List.getLastD_cons]
    exact hst.to_reflTransGen.trans (ih hrest)

theorem Trails.moves {x : Infer α} (h : Trails R s x) : Moves R s x := by
  refine moves_iff.2 fun a t hrun => ?_
  rw [← x.last_trail hrun]
  exact reaches_of_isChain h.chain

theorem Trails.reaches {x : Infer α} (h : Trails R s x) {a : α} (hrun : x.run s = .ok (a, t)) :
    Relation.ReflTransGen R s t :=
  h.moves.reaches hrun

theorem trails_set (h : Relation.ReflGen R s t) : Trails R s (set t) :=
  ⟨List.isChain_pair.2 h, nofun⟩

theorem trails_modify {f : Session → Session} (h : R s (f s)) : Trails R s (modify f) :=
  ⟨List.isChain_pair.2 (.single h), nofun⟩

theorem trails_lift {x : Checked α} (hx : x.Stops (Fault.NestedIn s.db)) :
    Trails R s (liftM x : Infer α) := by
  refine ⟨.singleton s, fun fault hfault => ⟨s, List.mem_singleton_self s, ?_⟩⟩
  cases x with
  | error cause =>
    cases hfault
    exact hx _ rfl
  | ok a => cases hfault

namespace Manner

variable {M : Manner}

/-- Whatever changes the session along a relation, change by change, moves in the manner. -/
def Admits (M : Manner) (R : Session → Session → Prop) : Prop :=
  ∀ ⦃α : Type⦄ ⦃s : Session⦄ ⦃x : Infer α⦄, Trails R s x → M.Moves s x

theorem admits_reaching (h : ∀ {s t}, R s t → R' s t) : (reaching R').Admits R :=
  fun _ _ _ hx => (hx.mono h).moves

theorem admits_stepping (h : ∀ {s t}, R s t → R' s t) : (stepping R').Admits R :=
  fun _ _ _ hx => hx.mono h

theorem admits_chaining : (chaining R).Admits R := fun _ _ _ hx => hx.chain

theorem Admits.lift_bind (hM : M.Admits R) {x : Checked α} {f : α → Infer β}
    (hx : x.Stops (Fault.NestedIn s.db)) (hf : ∀ a, x = .ok a → M.Moves s (f a)) :
    M.Moves s (liftM x >>= f) := by
  refine moves_bind_of_run (hM (trails_lift hx)) fun a t hrun => ?_
  cases x with
  | error fault => cases hrun
  | ok a =>
    cases hrun
    exact hf a rfl

end Manner

theorem trails_lift_bind {x : Checked α} {f : α → Infer β} (hx : x.Stops (Fault.NestedIn s.db))
    (hf : ∀ a, x = .ok a → Trails R s (f a)) : Trails R s (liftM x >>= f) :=
  Manner.Admits.lift_bind (Manner.admits_stepping (R := R) id) hx hf

theorem trails_change {e : Edit Session α} (hstops : e.Stops (Fault.NestedIn s.db))
    (h : ∀ {answer t}, e.run.run s = .ok (answer, t) → R s t) : Trails R s (change e) := by
  apply moves_get_bind
  refine trails_lift_bind (hstops s) fun p hp => ?_
  exact moves_bind (trails_set (.single (h hp))) fun _ t => moves_pure _

section Chains

variable {l : List Session} {P : Session → Prop}

theorem reaches_of_mem (h : (s :: l).IsChain (Relation.ReflGen R)) (ht : t ∈ s :: l) :
    Relation.ReflTransGen R s t := by
  refine h.induction (fun t => Relation.ReflTransGen R s t) _ ?_ (fun _ => .refl) t ht
  intro u v huv hu
  exact hu.trans huv.to_reflTransGen

theorem reaches_last {u : Session} (h : (s :: l).IsChain (Relation.ReflGen R)) (hu : u ∈ s :: l) :
    Relation.ReflTransGen R u (l.getLastD s) := by
  induction l generalizing s with
  | nil =>
    rw [List.mem_singleton.1 hu]
    exact .refl
  | cons t rest ih =>
    rcases List.mem_cons.1 hu with rfl | hu
    · exact reaches_of_isChain h
    · rw [List.getLastD_cons]
      exact ih (List.isChain_cons_cons.1 h).2 hu

theorem rel_of_consecutive {u v : Session} (h : l.IsChain R) (huv : [u, v] <:+: l) : R u v :=
  List.isChain_pair.1 ( List.IsChain.infix h huv)

/-- Where sessions end without a property that one of them has, there is a last one that has it. -/
theorem last_or_left (s : Session) (l : List Session) (P : Session → Prop) :
    P (l.getLastD s) ∨ (∀ t ∈ s :: l, ¬ P t) ∨ ∃ past u v rest,
      s :: l = past ++ u :: v :: rest ∧ P u ∧ ∀ t ∈ v :: rest, ¬ P t := by
  induction l generalizing s with
  | nil =>
    by_cases hs : P s
    · exact .inl hs
    · refine .inr (.inl fun t ht => ?_)
      rw [List.mem_singleton.1 ht]
      exact hs
  | cons v rest ih =>
    rw [List.getLastD_cons]
    rcases ih v with hlast | hnone | ⟨past, u, w, after, hsplit, hu, hleft⟩
    · exact .inl hlast
    · by_cases hs : P s
      · exact .inr (.inr ⟨[], s, v, rest, rfl, hs, hnone⟩)
      · exact .inr (.inl (List.forall_mem_cons.2 ⟨hs, hnone⟩))
    · exact .inr (.inr ⟨s :: past, u, w, after, congrArg (s :: ·) hsplit, hu, hleft⟩)

theorem trail_eq_concat {x : Infer α} {a : α} (h : x.run s = .ok (a, t)) :
    ∃ past, s :: x.trail s = past ++ [t] := by
  have hlast : (s :: x.trail s).getLast (List.cons_ne_nil _ _) = t :=
    (List.getLast_eq_getLastD _).trans (x.last_trail h)
  refine ⟨(s :: x.trail s).dropLast, ?_⟩
  rw [← hlast, List.dropLast_append_getLast]

end Chains

/-- If a computation returns, its result, the session it returns with and its trail fit together. -/
def Tracks (s : Session) (x : Infer α) (Q : α → Session → List Session → Prop) : Prop :=
  ∀ a t, x.run s = .ok (a, t) → Q a t (x.trail s)

section Tracks

variable {x : Infer α} {Q : α → Session → List Session → Prop}
  {Q' : β → Session → List Session → Prop}

theorem tracks_pure {a : α} (h : Q a s []) : Tracks s (pure a) Q := by
  rintro _ _ ⟨⟩
  exact h

theorem Tracks.imp {Q' : α → Session → List Session → Prop} (hx : Tracks s x Q)
    (h : ∀ a t trail, Q a t trail → Q' a t trail) : Tracks s x Q' :=
  fun a t hrun => h a t _ (hx a t hrun)

theorem Yields.tracks {P : α → Session → Prop} (hx : Yields s x P) :
    Tracks s x fun a t _ => P a t :=
  fun _ _ hrun => hx.of_ok hrun

theorem tracks_bind {f : α → Infer β} (hx : Tracks s x Q)
    (hf : ∀ a t trail, trail.getLastD s = t → Q a t trail →
      Tracks t (f a) fun b u rest => Q' b u (trail ++ rest)) : Tracks s (x >>= f) Q' := by
  intro b u hrun
  obtain ⟨⟨a, t⟩, hfirst, hrest⟩ := Checked.bind_eq_ok.1 hrun
  have htrail : (x >>= f).trail s = x.trail s ++ trailAfter f (x.run s) := rfl
  rw [htrail, hfirst]
  exact hf a t _ (x.last_trail hfirst) (hx a t hfirst) b u hrest

theorem tracks_get_bind {f : Session → Infer β} (hf : Tracks s (f s) Q') :
    Tracks s (get >>= f) Q' :=
  hf

theorem tracks_modify_bind {g : Session → Session} {f : PUnit → Infer β}
    (hf : Tracks (g s) (f ⟨⟩) fun b u rest => Q' b u (g s :: rest)) :
    Tracks s (modify g >>= f) Q' :=
  hf

end Tracks

end Infer

theorem Infer.tracks_forM {f : α → Infer PUnit} {xs : List α} {I : Session → Prop}
    {Q : α → β → Prop} {P : β → Session → Prop} (hs : I s)
    (hf : ∀ x ∈ xs, ∀ t, I t → Tracks t (f x) fun _ u trail =>
      I u ∧ ∀ b, Q x b → t.Meets (P b) trail) :
    Tracks s (xs.forM f) fun _ t trail => I t ∧ ∀ x ∈ xs, ∀ b, Q x b → s.Meets (P b) trail := by
  induction xs generalizing s with
  | nil => exact tracks_pure ⟨hs, by simp⟩
  | cons x xs ih =>
    refine tracks_bind (hf x List.mem_cons_self s hs) ?_
    rintro _ t trail hlast ⟨ht, hfirst⟩
    refine (ih ht fun y hy => hf y (List.mem_cons_of_mem x hy)).imp ?_
    rintro _ u rest ⟨hu, hrest⟩
    refine ⟨hu, fun y hy b hb => ?_⟩
    rcases List.mem_cons.1 hy with rfl | hy
    · exact (hfirst b hb).append_left rest
    · exact (hrest y hy b hb).append_right hlast

end TypeRecovery
