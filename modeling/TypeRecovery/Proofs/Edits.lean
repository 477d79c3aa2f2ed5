import TypeRecovery.Refusal

/-!
# Running changes

How changes that may be refused, and computations that may leave the range of words, run step by
step. A change is run on a state as `change.run.run s`; its outcome is a fault, or an answer or a
refusal together with the state that is left behind.
-/
namespace TypeRecovery

variable {σ α β : Type}

namespace Checked

theorem bind_eq_ok {x : Checked α} {f : α → Checked β} {b : β} :
    x >>= f = .ok b ↔ ∃ a, x = .ok a ∧ f a = .ok b := by
  cases x with
  | error fault => exact ⟨fun h => (nomatch h), fun ⟨_, h, _⟩ => nomatch h⟩
  | ok a => exact ⟨fun h => ⟨a, rfl, h⟩, fun ⟨_, ha, h⟩ => by cases ha; exact h⟩

theorem bind_eq_error {x : Checked α} {f : α → Checked β} {fault : Fault}
    (h : x >>= f = .error fault) : x = .error fault ∨ ∃ a, x = .ok a ∧ f a = .error fault := by
  cases x with
  | error _ =>
    cases h
    exact .inl rfl
  | ok a => exact .inr ⟨a, rfl, h⟩

theorem map_eq_ok {x : Checked α} {f : α → β} {b : β} :
    f <$> x = .ok b ↔ ∃ a, x = .ok a ∧ f a = b := by
  cases x with
  | error fault => exact ⟨fun h => (nomatch h), fun ⟨_, h, _⟩ => nomatch h⟩
  | ok a =>
    exact ⟨fun h => ⟨a, rfl, Except.ok.inj h⟩, fun ⟨_, ha, h⟩ => by cases ha; exact congrArg _ h⟩

theorem pure_eq_ok {a b : α} : (pure a : Checked α) = .ok b ↔ a = b :=
  ⟨Except.ok.inj, congrArg _⟩

/-- Two computations agree when they stop at the same fault or have results that are related. -/
def Agree (R : α → β → Prop) : Checked α → Checked β → Prop
  | .ok a, .ok b => R a b
  | .error fault, .error fault' => fault = fault'
  | _, _ => False

theorem Agree.with_ok {R Q : α → β → Prop} {x : Checked α} {y : Checked β} (h : Agree R x y)
    (hRQ : ∀ a b, x = .ok a → y = .ok b → R a b → Q a b) : Agree Q x y := by
  cases x with
  | error fault =>
    cases y with
    | error fault' => exact h
    | ok b => exact h.elim
  | ok a =>
    cases y with
    | error fault' => exact h.elim
    | ok b => exact hRQ a b rfl rfl h

theorem Agree.imp {R Q : α → β → Prop} {x : Checked α} {y : Checked β} (h : Agree R x y)
    (hRQ : ∀ a b, R a b → Q a b) : Agree Q x y :=
  h.with_ok fun a b _ _ => hRQ a b

theorem agree_self {R : α → α → Prop} (h : ∀ a, R a a) (x : Checked α) : Agree R x x := by
  cases x with
  | error fault => exact rfl
  | ok a => exact h a

theorem Agree.bind {α' β' : Type} {R : α → β → Prop} {Q : α' → β' → Prop} {x : Checked α}
    {y : Checked β} {f : α → Checked α'} {g : β → Checked β'} (hxy : Agree R x y)
    (hfg : ∀ a b, R a b → Agree Q (f a) (g b)) : Agree Q (x >>= f) (y >>= g) := by
  cases x with
  | error fault =>
    cases y with
    | error fault' => exact hxy
    | ok b => exact hxy.elim
  | ok a =>
    cases y with
    | error fault' => exact hxy.elim
    | ok b => exact hfg a b hxy

theorem Agree.bind_self {α' β' : Type} {Q : α' → β' → Prop} {x : Checked α}
    {f : α → Checked α'} {g : α → Checked β'} (hfg : ∀ a, x = .ok a → Agree Q (f a) (g a)) :
    Agree Q (x >>= f) (x >>= g) := by
  cases x with
  | error fault => exact rfl
  | ok a => exact hfg a rfl

end Checked

namespace Edit

theorem run_bind (x : Edit σ α) (f : α → Edit σ β) (s : σ) :
    (x >>= f).run.run s = x.run.run s >>= fun p => match p.1 with
      | .ok a => (f a).run.run p.2
      | .error cause => .ok (.error cause, p.2) := by
  rw [ExceptT.run_bind, StateT.run_bind]
  congr 1
  funext p
  obtain ⟨r, s'⟩ := p
  cases r <;> rfl

theorem run_get_bind (f : σ → Edit σ β) (s : σ) : (get >>= f).run.run s = (f s).run.run s := rfl

theorem run_modify_bind (g : σ → σ) (f : PUnit → Edit σ β) (s : σ) :
    (modify g >>= f).run.run s = (f ⟨⟩).run.run (g s) := rfl

theorem run_lift_bind (x : Checked α) (f : α → Edit σ β) (s : σ) :
    (liftM x >>= f).run.run s = x >>= fun a => (f a).run.run s := by
  cases x <;> rfl

theorem bind_eq_ok {x : Edit σ α} {f : α → Edit σ β} {s s' : σ} {r : Except Refusal β} :
    (x >>= f).run.run s = .ok (r, s') ↔
      (∃ cause, x.run.run s = .ok (.error cause, s') ∧ r = .error cause) ∨
      ∃ a t, x.run.run s = .ok (.ok a, t) ∧ (f a).run.run t = .ok (r, s') := by
  rw [run_bind, Checked.bind_eq_ok]
  constructor
  · rintro ⟨⟨result, t⟩, hx, h⟩
    cases result with
    | ok a => exact .inr ⟨a, t, hx, h⟩
    | error cause =>
      obtain ⟨rfl, rfl⟩ := Prod.mk.inj (Except.ok.inj h)
      exact .inl ⟨cause, hx, rfl⟩
  · rintro (⟨cause, hx, rfl⟩ | ⟨a, t, hx, h⟩)
    · exact ⟨_, hx, rfl⟩
    · exact ⟨_, hx, h⟩

theorem run_map (x : Edit σ α) (f : α → β) (s : σ) :
    (f <$> x).run.run s = x.run.run s >>= fun p => .ok (p.1.map f, p.2) := by
  rw [map_eq_pure_bind, run_bind]
  congr 1
  funext p
  obtain ⟨r, s'⟩ := p
  cases r <;> rfl

theorem map_eq_ok {x : Edit σ α} {f : α → β} {s s' : σ} {r : Except Refusal β} :
    (f <$> x).run.run s = .ok (r, s') ↔
      ∃ result, x.run.run s = .ok (result, s') ∧ r = result.map f := by
  rw [run_map, Checked.bind_eq_ok]
  constructor
  · rintro ⟨⟨result, t⟩, hx, h⟩
    cases h
    exact ⟨result, hx, rfl⟩
  · rintro ⟨result, hx, rfl⟩
    exact ⟨_, hx, rfl⟩

theorem map_eq_refused {x : Edit σ α} {f : α → β} {s s' : σ} {cause : Refusal} :
    (f <$> x).run.run s = .ok (.error cause, s') ↔ x.run.run s = .ok (.error cause, s') := by
  rw [map_eq_ok]
  constructor
  · rintro ⟨result, hx, hr⟩
    cases result with
    | ok a => cases hr
    | error cause' =>
      cases hr
      exact hx
  · intro hx
    exact ⟨_, hx, rfl⟩

section Runs

variable {ε : Type} (perform : ε → Edit σ α)

/-- Makes changes one after the other. A refused change does not end the run; a fault does. -/
def runAll : σ → List ε → Checked (List (Except Refusal α) × σ)
  | s, [] => pure ([], s)
  | s, e :: rest => do
    let (answer, s') ← ((perform e).run.run s : Checked _)
    let (answers, last) ← runAll s' rest
    return (answer :: answers, last)

variable {perform}

theorem runAll_cons_eq_ok {e : ε} {rest : List ε} {s last : σ}
    {answers : List (Except Refusal α)} :
    runAll perform s (e :: rest) = .ok (answers, last) ↔
      ∃ answer t more, (perform e).run.run s = .ok (answer, t) ∧
        runAll perform t rest = .ok (more, last) ∧ answers = answer :: more := by
  simp only [runAll, Checked.bind_eq_ok, Checked.pure_eq_ok, Prod.mk.injEq, Prod.exists]
  constructor
  · rintro ⟨answer, t, he, more, last', hrest, rfl, rfl⟩
    exact ⟨answer, t, more, he, hrest, rfl⟩
  · rintro ⟨answer, t, more, he, hrest, rfl⟩
    exact ⟨answer, t, he, more, last, hrest, rfl, rfl⟩

theorem runAll_append_eq_ok {es more : List ε} {s last : σ} {answers : List (Except Refusal α)} :
    runAll perform s (es ++ more) = .ok (answers, last) ↔
      ∃ first t rest, runAll perform s es = .ok (first, t) ∧
        runAll perform t more = .ok (rest, last) ∧ answers = first ++ rest := by
  induction es generalizing s answers with
  | nil =>
    constructor
    · intro h
      exact ⟨[], s, answers, rfl, h, rfl⟩
    · rintro ⟨first, t, rest, hnil, hmore, rfl⟩
      obtain ⟨rfl, rfl⟩ := Prod.mk.inj (Except.ok.inj hnil)
      exact hmore
  | cons e es ih =>
    rw [List.cons_append, runAll_cons_eq_ok]
    constructor
    · rintro ⟨answer, t, tail, he, htail, rfl⟩
      obtain ⟨first, u, rest, hes, hmore, rfl⟩ := ih.1 htail
      exact ⟨answer :: first, u, rest, runAll_cons_eq_ok.2 ⟨answer, t, first, he, hes, rfl⟩, hmore,
        rfl⟩
    · rintro ⟨first, u, rest, hes, hmore, rfl⟩
      obtain ⟨answer, t, tail, he, htail, rfl⟩ := runAll_cons_eq_ok.1 hes
      exact ⟨answer, t, tail ++ rest, he, ih.2 ⟨tail, u, rest, htail, hmore, rfl⟩, rfl⟩

theorem runAll_concat {es : List ε} {e : ε} {s t last : σ} {answers : List (Except Refusal α)}
    {answer : Except Refusal α} (h : runAll perform s es = .ok (answers, t))
    (he : (perform e).run.run t = .ok (answer, last)) :
    runAll perform s (es ++ [e]) = .ok (answers ++ [answer], last) :=
  runAll_append_eq_ok.2 ⟨answers, t, [answer], h, runAll_cons_eq_ok.2 ⟨answer, last, [], he, rfl, rfl⟩,
    rfl⟩

/-- What every change keeps, every run keeps. -/
theorem runAll_induction {P : σ → Prop}
    (step : ∀ e s answer s', P s → (perform e).run.run s = .ok (answer, s') → P s')
    {es : List ε} {s last : σ} {answers : List (Except Refusal α)} (hs : P s)
    (h : runAll perform s es = .ok (answers, last)) : P last := by
  induction es generalizing s answers with
  | nil =>
    obtain ⟨_, rfl⟩ := Prod.mk.inj (Except.ok.inj h)
    exact hs
  | cons e rest ih =>
    obtain ⟨answer, t, more, he, hrest, _⟩ := runAll_cons_eq_ok.1 h
    exact ih (step e s answer t hs he) hrest

/-- What is kept may depend on the changes made so far. -/
theorem runAll_induction_after {P : List ε → σ → Prop}
    (step : ∀ past e s answer s', P past s → (perform e).run.run s = .ok (answer, s') →
      P (past ++ [e]) s')
    (past : List ε) {es : List ε} {s last : σ} {answers : List (Except Refusal α)} (hs : P past s)
    (h : runAll perform s es = .ok (answers, last)) : P (past ++ es) last := by
  induction es generalizing past s answers with
  | nil =>
    obtain ⟨_, rfl⟩ := Prod.mk.inj (Except.ok.inj h)
    rwa [List.append_nil]
  | cons e rest ih =>
    obtain ⟨answer, t, more, he, hrest, _⟩ := runAll_cons_eq_ok.1 h
    have hlast := ih (past ++ [e]) (step past e s answer t hs he) hrest
    rwa [List.append_assoc] at hlast

/-- If each change has the same answer on related states, and relates the states it leaves, so does
every run. The relation may depend on the changes made so far. -/
theorem runAll_agree_after {τ : Type} {perform' : ε → Edit τ α} {R : List ε → σ → τ → Prop}
    (step : ∀ past e s t, R past s t →
      Checked.Agree (fun p q => p.1 = q.1 ∧ R (past ++ [e]) p.2 q.2)
        ((perform e).run.run s) ((perform' e).run.run t))
    (past es : List ε) {s : σ} {t : τ} (hst : R past s t) :
    Checked.Agree (fun p q => p.1 = q.1 ∧ R (past ++ es) p.2 q.2) (runAll perform s es)
      (runAll perform' t es) := by
  induction es generalizing past s t with
  | nil => exact ⟨rfl, by rwa [List.append_nil]⟩
  | cons e rest ih =>
    refine (step past e s t hst).bind ?_
    rintro ⟨answer, s'⟩ ⟨answer', t'⟩ ⟨rfl, hst'⟩
    refine (ih _ hst').bind ?_
    rintro ⟨answers, last⟩ ⟨answers', last'⟩ ⟨rfl, hlast⟩
    rw [List.append_assoc] at hlast
    exact ⟨rfl, hlast⟩

theorem runAll_agree {τ : Type} {perform' : ε → Edit τ α} {R : σ → τ → Prop}
    (step : ∀ e s t, R s t → Checked.Agree (fun p q => p.1 = q.1 ∧ R p.2 q.2)
      ((perform e).run.run s) ((perform' e).run.run t))
    (es : List ε) {s : σ} {t : τ} (hst : R s t) :
    Checked.Agree (fun p q => p.1 = q.1 ∧ R p.2 q.2) (runAll perform s es)
      (runAll perform' t es) :=
  runAll_agree_after (R := fun _ => R) (fun _ => step) [] es hst

end Runs
end Edit

/-- What a change answers: nothing, whether it changed anything, the struct it created, or that
what it should change is not there. -/
inductive Answer where
  | done
  | changed (yes : Bool)
  | created (id : StructId)
  | absent
deriving DecidableEq

end TypeRecovery
