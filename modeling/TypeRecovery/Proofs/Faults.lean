import Mathlib.Data.List.Forall2
import Mathlib.Logic.Relation
import TypeRecovery.Inference.Merge
import TypeRecovery.Inference.Verdict
import TypeRecovery.Proofs.Edits

/-!
# How computations stop

Words, types, layouts, stores and verdicts stop without a result only where a number leaves the
range of words. `Fault.Genuine` sets the faults that say something about the input apart from the
one that would only say that too few steps were allowed.
-/
namespace TypeRecovery

/-- Some struct leads back to itself. -/
def Cyclic (nesting : List (Nat × Nat)) : Prop :=
  ∃ a, Relation.TransGen (fun a b => (a, b) ∈ nesting) a a

/-- A descent may stop without a result only over structs that are nested in a circle, and no
recursion may run out of steps. -/
def Fault.Genuine : Fault → Prop
  | overflow _ => True
  | endless nesting => Cyclic nesting
  | exhausted => False

/-- A kind of faults that all overflows belong to. -/
class Fault.Overflows (F : Fault → Prop) : Prop where
  overflow : ∀ op, F (.overflow op)

instance : Fault.Overflows Fault.Genuine := ⟨fun _ => trivial⟩

variable {σ α β : Type} {F : Fault → Prop}

namespace Checked

/-- A computation stops without a result only at faults of a kind. -/
def Stops (F : Fault → Prop) (x : Checked α) : Prop := ∀ fault, x = .error fault → F fault

abbrev Genuine (x : Checked α) : Prop := Stops Fault.Genuine x

theorem stops_of_isOk {x : Checked α} (h : x.isOk = true) : Stops F x := by
  rintro fault rfl
  cases h

theorem stops_pure (a : α) : Stops F (pure a) := nofun

theorem stops_bind {x : Checked α} {f : α → Checked β} (hx : Stops F x)
    (hf : ∀ a, x = .ok a → Stops F (f a)) : Stops F (x >>= f) := by
  cases x with
  | error fault =>
    intro fault' h
    cases h
    exact hx fault rfl
  | ok a => exact hf a rfl

theorem stops_map {x : Checked α} (f : α → β) (hx : Stops F x) : Stops F (f <$> x) := by
  rw [map_eq_pure_bind]
  exact stops_bind hx fun _ _ => stops_pure _

theorem stops_mapM {f : α → Checked β} {xs : List α} (hf : ∀ x ∈ xs, Stops F (f x)) :
    Stops F (xs.mapM f) := by
  induction xs with
  | nil => exact stops_pure _
  | cons x rest ih =>
    rw [List.mapM_cons]
    refine stops_bind (hf x (by simp)) fun _ _ => stops_bind (ih ?_) fun _ _ => stops_pure _
    intro y hy
    exact hf y (by simp [hy])

theorem stops_optionBind {x : OptionT Checked α} {f : α → OptionT Checked β}
    (hx : Stops F x.run) (hf : ∀ a, x.run = .ok (some a) → Stops F (f a).run) :
    Stops F (x >>= f).run := by
  refine stops_bind hx fun found hfound => ?_
  cases found with
  | none => exact stops_pure _
  | some a => exact hf a hfound

end Checked

open Checked (stops_pure stops_bind stops_map stops_mapM)

namespace Edit

/-- A change that stops only at faults of a kind, whatever it is made on. -/
def Stops (F : Fault → Prop) (change : Edit σ α) : Prop :=
  ∀ s, Checked.Stops F (change.run.run s)

theorem stops_pure (a : α) : Stops F (pure a : Edit σ α) := fun _ => nofun

theorem stops_throw (cause : Refusal) : Stops F (throw cause : Edit σ α) := fun _ => nofun

theorem stops_set (s : σ) : Stops F (set s : Edit σ PUnit) := fun _ => nofun

theorem stops_modify (f : σ → σ) : Stops F (modify f : Edit σ PUnit) := fun _ => nofun

theorem stops_bind {x : Edit σ α} {f : α → Edit σ β} (hx : Stops F x) (hf : ∀ a, Stops F (f a)) :
    Stops F (x >>= f) := by
  intro s
  rw [run_bind]
  refine Checked.stops_bind (hx s) fun p _ => ?_
  obtain ⟨answer, s'⟩ := p
  cases answer with
  | ok a => exact hf a s'
  | error cause => exact Checked.stops_pure _

theorem stops_get_bind {f : σ → Edit σ β} (hf : ∀ s, Stops F (f s)) : Stops F (get >>= f) :=
  fun s => hf s s

theorem stops_lift_bind {x : Checked α} {f : α → Edit σ β} (hx : Checked.Stops F x)
    (hf : ∀ a, Stops F (f a)) : Stops F (liftM x >>= f) := by
  intro s
  rw [run_lift_bind]
  exact Checked.stops_bind hx fun a _ => hf a s

end Edit

namespace Word

theorem stops_add_of (h : F (.overflow .add)) (a b : Nat) : Checked.Stops F (add a b) := by
  unfold add
  split
  · exact nofun
  · rintro _ ⟨⟩
    exact h

theorem stops_mul_of (h : F (.overflow .multiply)) (a b : Nat) : Checked.Stops F (mul a b) := by
  unfold mul
  split
  · exact nofun
  · rintro _ ⟨⟩
    exact h

end Word

theorem Ty.stops_sizeWith_of (h : F (.overflow .multiply)) (pointerSize : Nat)
    (structSize : StructId → Option Nat) (t : Ty) :
    Checked.Stops F (t.sizeWith pointerSize structSize) := by
  induction t with
  | array element length ih =>
    refine stops_bind ih fun size _ => ?_
    split
    · exact stops_map _ (Word.stops_mul_of h _ _)
    · exact stops_pure _
  | _ => exact stops_pure _

section Leaves

variable [Fault.Overflows F]

namespace Word

theorem stops_add (a b : Nat) : Checked.Stops F (add a b) :=
  stops_add_of (Fault.Overflows.overflow _) a b

theorem stops_mul (a b : Nat) : Checked.Stops F (mul a b) :=
  stops_mul_of (Fault.Overflows.overflow _) a b

theorem stops_sub (a b : Nat) : Checked.Stops F (sub a b) := by
  unfold sub
  split
  · exact nofun
  · rintro _ ⟨⟩
    exact Fault.Overflows.overflow _

end Word

namespace Ty

theorem stops_sizeWith (pointerSize : Nat) (structSize : StructId → Option Nat) (t : Ty) :
    Checked.Stops F (t.sizeWith pointerSize structSize) :=
  stops_sizeWith_of (Fault.Overflows.overflow _) pointerSize structSize t

theorem stops_floatName (size : Nat) : Checked.Stops F (floatName size) := by
  unfold floatName
  split
  · exact stops_pure _
  · exact stops_pure _
  · exact stops_pure _
  · exact stops_bind (Word.stops_mul _ _) fun _ _ => stops_pure _

theorem stops_renderWith (name : StructId → String) (t : Ty) :
    Checked.Stops F (t.renderWith name) := by
  induction t with
  | float size => exact stops_floatName size
  | pointer t ih => exact stops_bind ih fun _ _ => stops_pure _
  | array t length ih =>
    cases length with
    | none => exact stops_bind ih fun _ _ => stops_pure _
    | some n => exact stops_bind ih fun _ _ => stops_pure _
  | _ => exact stops_pure _

end Ty

end Leaves

namespace Expr

mutual

theorem stops_text [Fault.Overflows F] (e : Expr) : Checked.Stops F e.text :=
  match e with
  | slot _ => stops_pure _
  | global _ => stops_pure _
  | addressOf inner => stops_bind (stops_text inner) fun _ _ => stops_pure _
  | num _ _ => stops_pure _
  | call callee args =>
    stops_bind (stops_text callee) fun _ _ =>
      stops_bind (stops_textAll args) fun _ _ => stops_pure _
  | cast inner type =>
    stops_bind (Ty.stops_renderWith _ type) fun _ _ =>
      stops_bind (stops_text inner) fun _ _ => stops_pure _
  | helper _ => stops_pure _
  | other _ => stops_pure _

theorem stops_textAll [Fault.Overflows F] (es : List Expr) : Checked.Stops F (textAll es) :=
  match es with
  | [] => stops_pure _
  | e :: rest =>
    stops_bind (stops_text e) fun _ _ =>
      stops_bind (stops_textAll rest) fun _ _ => stops_pure _

end

end Expr

theorem Layout.stops_memberAt_of (h : F (.overflow .add)) (l : Layout) (offset : Nat) :
    Checked.Stops F (l.memberAt offset) := by
  unfold memberAt
  split
  · exact stops_pure _
  · exact stops_bind (Word.stops_add_of h _ _) fun _ _ => stops_pure _

section Stores

variable [Fault.Overflows F]

namespace Layout

variable (l : Layout) (offset size : Nat)

theorem stops_memberAt : Checked.Stops F (l.memberAt offset) :=
  stops_memberAt_of (Fault.Overflows.overflow _) l offset

theorem stops_covers : Checked.Stops F (l.covers offset) :=
  stops_bind (l.stops_memberAt offset) fun _ _ => stops_pure _

theorem stops_isTrailingSentinel : Checked.Stops F (l.isTrailingSentinel offset) := by
  unfold isTrailingSentinel
  split
  · exact stops_pure _
  · split
    · exact stops_bind (Word.stops_add _ _) fun _ _ => stops_pure _
    · exact stops_pure _

theorem stops_addMember : (addMember offset).Stops F := by
  refine Edit.stops_get_bind fun l => ?_
  refine Edit.stops_lift_bind (l.stops_covers offset) fun covered => ?_
  cases covered with
  | true => exact Edit.stops_pure _
  | false =>
    refine Edit.stops_lift_bind (Word.stops_add _ _) fun _ => ?_
    exact Edit.stops_bind (Edit.stops_set _) fun _ => Edit.stops_pure _

theorem stops_clearFor : (clearFor offset size).Stops F := by
  refine Edit.stops_get_bind fun l => ?_
  cases l.nextMember offset with
  | none => exact Edit.stops_pure _
  | some next =>
    refine Edit.stops_lift_bind (Word.stops_add _ _) fun _ => ?_
    split
    · exact Edit.stops_pure _
    · refine Edit.stops_lift_bind (l.stops_isTrailingSentinel next) fun sentinel => ?_
      cases sentinel with
      | true => exact Edit.stops_set _
      | false => exact Edit.stops_throw _

theorem stops_setMemberType (type : Ty) : (setMemberType offset type size).Stops F := by
  refine Edit.stops_get_bind fun l => ?_
  refine Edit.stops_lift_bind
    (stops_bind (l.stops_memberAt offset) fun _ _ => stops_pure _) fun start => ?_
  cases start with
  | none => exact Edit.stops_throw _
  | some start =>
    dsimp only
    split
    · refine Edit.stops_bind (stops_clearFor offset size) fun _ => ?_
      refine Edit.stops_bind (Edit.stops_modify _) fun _ => ?_
      exact Edit.stops_lift_bind (Word.stops_add _ _) fun _ => Edit.stops_modify _
    · exact Edit.stops_throw _

theorem stops_maximizeSize : (maximizeSize size).Stops F := by
  refine Edit.stops_get_bind fun l => ?_
  split
  · exact Edit.stops_pure _
  · refine Edit.stops_lift_bind (l.stops_covers _) fun _ => ?_
    exact Edit.stops_bind (Edit.stops_set _) fun _ => Edit.stops_pure _

end Layout

namespace TypeStore

variable [TypeStore σ]

theorem stops_sizeOf (s : σ) (t : Ty) : Checked.Stops F (sizeOf s t) :=
  t.stops_sizeWith _ _

theorem stops_render (s : σ) (t : Ty) : Checked.Stops F (render s t) :=
  t.stops_renderWith _

omit [Fault.Overflows F] in
theorem stops_editLayout (id : StructId) {change : Edit Layout α} (h : change.Stops F) :
    (editLayout id change : Edit σ α).Stops F := by
  refine Edit.stops_get_bind fun s => ?_
  cases layout? s id with
  | none => exact Edit.stops_throw _
  | some l =>
    refine Edit.stops_lift_bind (h l) fun p => ?_
    refine Edit.stops_bind (Edit.stops_set _) fun _ => ?_
    obtain ⟨answer, l'⟩ := p
    cases answer with
    | ok a => exact Edit.stops_pure _
    | error cause => exact Edit.stops_throw _

theorem stops_setMemberType (id : StructId) (offset : Nat) (t : Ty) :
    (setMemberType id offset t : Edit σ Unit).Stops F := by
  refine Edit.stops_get_bind fun s => ?_
  split
  · exact Edit.stops_throw _
  · refine Edit.stops_lift_bind (stops_sizeOf s t) fun size => ?_
    cases size with
    | none => exact Edit.stops_lift_bind (stops_render s t) fun _ => Edit.stops_throw _
    | some size => exact stops_editLayout id (Layout.stops_setMemberType offset size t)

end TypeStore

omit [Fault.Overflows F] in
theorem Overlay.stops_provisional (id : StructId) {change : Edit Overlay α}
    (h : change.Stops F) : (provisional id change).Stops F := by
  refine Edit.stops_get_bind fun o => ?_
  split
  · exact h
  · exact Edit.stops_throw _

theorem Overlay.stops_insertAll (db : Database) (ls : List Layout) :
    Checked.Stops F (insertAll db ls) := by
  unfold insertAll
  induction ls generalizing db with
  | nil => exact stops_pure _
  | cons l rest ih =>
    rw [List.foldlM_cons]
    refine stops_bind ?_ fun db' _ => ih db'
    exact stops_bind (Word.stops_add _ _) fun _ _ => stops_pure _

theorem Overlay.stops_commit : commit.Stops F := by
  refine Edit.stops_get_bind fun o => ?_
  refine Edit.stops_lift_bind (stops_insertAll _ _) fun db => ?_
  dsimp only
  split
  · exact Edit.stops_bind (Edit.stops_set _) fun _ => Edit.stops_throw _
  · exact Edit.stops_bind (Edit.stops_set _) fun _ => Edit.stops_pure _

theorem Run.stops_commit : commit.Stops F := by
  refine Edit.stops_get_bind fun r => ?_
  refine Edit.stops_lift_bind (Overlay.stops_commit _) fun p => ?_
  obtain ⟨answer, db⟩ := p
  cases answer with
  | error cause => exact Edit.stops_bind (Edit.stops_set _) fun _ => Edit.stops_throw _
  | ok report => exact Edit.stops_bind (Edit.stops_set _) fun _ => Edit.stops_pure _

theorem Run.stops_createStruct (settings : Settings) (r : Run) :
    Checked.Stops F (r.createStruct settings) := by
  refine stops_bind ?_ fun _ _ => stops_pure _
  exact stops_bind (Word.stops_add _ _) fun _ _ => stops_pure _

namespace Merge

theorem stops_obstacle (l : Layout) (offset size : Nat) :
    Checked.Stops F (obstacle l offset size) := by
  unfold obstacle
  split
  · exact stops_pure _
  · refine stops_bind (Word.stops_add _ _) fun _ _ => ?_
    split
    · exact stops_pure _
    · exact stops_bind (l.stops_isTrailingSentinel _) fun _ _ => stops_pure _

theorem stops_enclosing (l : Layout) (offset size : Nat) :
    Checked.Stops F (enclosing l offset size) := by
  refine stops_bind (l.stops_memberAt offset) fun found _ => ?_
  cases found with
  | none => exact stops_pure _
  | some m =>
    dsimp only
    split
    · exact stops_pure _
    · split
      · exact stops_bind (Word.stops_sub _ _) fun _ _ => stops_pure _
      · exact stops_pure _

theorem stops_plan (db : Overlay) (id : StructId) (offset : Nat) (type : Ty) :
    Checked.Stops F (plan db id offset type) := by
  unfold plan
  split
  · exact stops_pure _
  · refine stops_bind (TypeStore.stops_sizeOf db type) fun size _ => ?_
    split
    case h_1 size l _ _ =>
      split
      · exact stops_pure _
      · refine stops_bind (stops_obstacle l offset size) fun next _ => ?_
        cases next with
        | some next =>
          exact stops_bind (TypeStore.stops_render db type) fun _ _ => stops_pure _
        | none =>
          refine stops_bind (stops_enclosing l offset size) fun found _ => ?_
          cases found with
          | some nested => exact stops_pure _
          | none => exact stops_pure _
    case h_2 => exact stops_pure _

end Merge

namespace Verdict

theorem stops_writeOutside (db : Overlay) (limit : Nat) (writes : List Write) :
    Checked.Stops F (writeOutside db limit writes) := by
  induction writes with
  | nil => exact stops_pure _
  | cons w rest ih =>
    unfold writeOutside
    split
    · exact ih
    · refine stops_bind (TypeStore.stops_sizeOf db w.valueType) fun _ _ => ?_
      refine stops_bind (Word.stops_add _ _) fun _ _ => ?_
      split
      · exact stops_pure _
      · exact ih

theorem stops_ofCastAndWrites (db : Overlay) (argType : Ty) (writes : List Write) :
    Checked.Stops F (ofCastAndWrites db argType writes) := by
  refine stops_bind (TypeStore.stops_sizeOf db _) fun size _ => ?_
  cases size with
  | none => exact stops_bind (TypeStore.stops_render db _) fun _ _ => stops_pure _
  | some limit =>
    refine stops_bind (stops_writeOutside db limit writes) fun outside _ => ?_
    cases outside with
    | some w => exact stops_bind (TypeStore.stops_render db _) fun _ _ => stops_pure _
    | none => exact stops_pure _

theorem stops_ofPointer (db : Overlay) (u : Uses) : Checked.Stops F (ofPointer db u) := by
  unfold ofPointer
  split
  · split <;> exact stops_pure _
  · split
    · split
      · exact stops_pure _
      · split
        · exact stops_ofCastAndWrites db _ _
        · exact stops_pure _
    · exact stops_pure _
  · exact stops_pure _

theorem stops_ofUses (db : Overlay) (u : Uses) : Checked.Stops F (ofUses db u) := by
  unfold ofUses
  split
  · exact stops_pure _
  · split
    · exact stops_pure _
    · split
      · exact stops_pure _
      · dsimp only
        split
        · refine stops_bind ?_ fun _ _ => stops_pure _
          exact stops_mapM fun t _ => TypeStore.stops_render db t
        · exact stops_ofPointer db u

end Verdict

end Stores

namespace Infer

/-- From `s`, the computation returns and its result satisfies `Q`, or it stops at a fault of a
kind. -/
def EndsAt (F : Fault → Prop) (s : Session) (x : Infer α) (Q : α → Session → Prop) : Prop :=
  match x.run s with
  | .ok (a, t) => Q a t
  | .error fault => F fault

/-- The computation returns, or it stops at a genuine fault. -/
abbrev Ends (s : Session) (x : Infer α) (Q : α → Session → Prop) : Prop :=
  EndsAt Fault.Genuine s x Q

/-- Whatever the computation returns satisfies `Q`. -/
abbrev Yields (s : Session) (x : Infer α) (Q : α → Session → Prop) : Prop :=
  EndsAt (fun _ => True) s x Q

/-- The computation returns, unless it runs out of steps. -/
abbrev Returns (s : Session) (x : Infer α) (Q : α → Session → Prop) : Prop :=
  EndsAt (· = .exhausted) s x Q

variable {s t : Session} {x : Infer α} {P Q : α → Session → Prop}

theorem ends_iff : EndsAt F s x Q ↔
    (∀ a t, x.run s = .ok (a, t) → Q a t) ∧ Checked.Stops F (x.run s) := by
  unfold EndsAt
  cases h : x.run s with
  | error fault =>
    refine ⟨fun hf => ⟨nofun, ?_⟩, fun hf => hf.2 fault rfl⟩
    intro fault' heq
    cases heq
    exact hf
  | ok p =>
    refine ⟨fun hq => ⟨?_, nofun⟩, fun hq => hq.1 _ _ rfl⟩
    intro a t heq
    cases heq
    exact hq

theorem EndsAt.of_ok (h : EndsAt F s x Q) {a : α} (hx : x.run s = .ok (a, t)) : Q a t :=
  (ends_iff.1 h).1 a t hx

theorem yields_iff : Yields s x Q ↔ ∀ a t, x.run s = .ok (a, t) → Q a t :=
  ends_iff.trans (and_iff_left fun _ _ => trivial)

theorem yields_true : Yields s x fun _ _ => True := yields_iff.2 fun _ _ _ => trivial

theorem EndsAt.yields (h : EndsAt F s x Q) : Yields s x Q :=
  yields_iff.2 fun _ _ hx => h.of_ok hx

theorem Yields.and (hP : Yields s x P) (hQ : Yields s x Q) : Yields s x fun a t => P a t ∧ Q a t :=
  yields_iff.2 fun _ _ hx => ⟨hP.of_ok hx, hQ.of_ok hx⟩

theorem EndsAt.stops (h : EndsAt F s x Q) : Checked.Stops F (x.run s) := (ends_iff.1 h).2

theorem Ends.genuine (h : Ends s x Q) : Checked.Genuine (x.run s) := h.stops

/-- A genuine fault is not that of running out of steps. -/
theorem Returns.exists_run_eq_ok (h : Returns s x Q) (hends : Ends s x P) :
    ∃ a t, x.run s = .ok (a, t) ∧ Q a t := by
  cases hx : x.run s with
  | ok p => exact ⟨p.1, p.2, rfl, h.of_ok hx⟩
  | error fault =>
    have hgenuine := hends.genuine fault hx
    rw [h.stops fault hx] at hgenuine
    exact hgenuine.elim

theorem ends_of_run_eq_ok {a : α} (hx : x.run s = .ok (a, t)) (h : Q a t) : EndsAt F s x Q := by
  unfold EndsAt
  rw [hx]
  exact h

theorem EndsAt.weaken {G : Fault → Prop} (h : EndsAt F s x Q) (hFG : ∀ fault, F fault → G fault) :
    EndsAt G s x Q := by
  refine ends_iff.2 ⟨fun a t hx => h.of_ok hx, ?_⟩
  intro fault hx
  exact hFG fault (h.stops fault hx)

theorem EndsAt.imp (h : EndsAt F s x P) (hPQ : ∀ a t, P a t → Q a t) : EndsAt F s x Q := by
  refine ends_iff.2 ⟨?_, h.stops⟩
  intro a t hx
  exact hPQ a t (h.of_ok hx)

theorem EndsAt.with_run (h : EndsAt F s x Q) :
    EndsAt F s x fun a t => Q a t ∧ x.run s = .ok (a, t) := by
  refine ends_iff.2 ⟨?_, h.stops⟩
  intro a t hx
  exact ⟨h.of_ok hx, hx⟩

theorem run_get_bind (f : Session → Infer β) (s : Session) : (get >>= f).run s = (f s).run s := rfl

theorem run_lift_bind (x : Checked α) (f : α → Infer β) (s : Session) :
    (liftM x >>= f).run s = x >>= fun a => (f a).run s := by
  cases x <;> rfl

theorem run_change (e : Edit Session α) (s : Session) : (change e).run s = e.run.run s := by
  unfold change
  rw [run_get_bind, run_lift_bind]
  cases e.run.run s <;> rfl

theorem bind_eq_ok {f : α → Infer β} {b : β} : (x >>= f).run s = .ok (b, t) ↔
    ∃ a u, x.run s = .ok (a, u) ∧ (f a).run u = .ok (b, t) := by
  have hrun : (x >>= f).run s = x.run s >>= fun p => (f p.1).run p.2 := rfl
  rw [hrun, Checked.bind_eq_ok, Prod.exists]

theorem ends_pure {a : α} (h : Q a s) : EndsAt F s (pure a) Q := h

theorem ends_bind {f : α → Infer β} {Q : β → Session → Prop} (hx : EndsAt F s x P)
    (hf : ∀ a t, P a t → EndsAt F t (f a) Q) : EndsAt F s (x >>= f) Q := by
  have hrun : (x >>= f).run s = x.run s >>= fun p => (f p.1).run p.2 := rfl
  unfold EndsAt at hx ⊢
  rw [hrun]
  cases hresult : x.run s with
  | error fault =>
    rw [hresult] at hx
    exact hx
  | ok p =>
    rw [hresult] at hx
    exact hf p.1 p.2 hx

theorem ends_get_bind {f : Session → Infer α} (hf : EndsAt F s (f s) Q) :
    EndsAt F s (get >>= f) Q := hf

theorem ends_lift_bind {x : Checked α} {f : α → Infer β} {Q : β → Session → Prop}
    (hx : x.Stops F) (hf : ∀ a, x = .ok a → EndsAt F s (f a) Q) : EndsAt F s (liftM x >>= f) Q := by
  cases x with
  | error fault => exact hx fault rfl
  | ok a => exact hf a rfl

theorem ends_set {Q : PUnit → Session → Prop} (h : Q ⟨⟩ t) : EndsAt F s (set t) Q := h

theorem ends_modify {f : Session → Session} {Q : PUnit → Session → Prop} (h : Q ⟨⟩ (f s)) :
    EndsAt F s (modify f) Q := h

theorem ends_set_bind {f : PUnit → Infer β} {Q : β → Session → Prop} (hf : EndsAt F t (f ⟨⟩) Q) :
    EndsAt F s (set t >>= f) Q := hf

theorem ends_modify_bind {g : Session → Session} {f : PUnit → Infer β} {Q : β → Session → Prop}
    (hf : EndsAt F (g s) (f ⟨⟩) Q) : EndsAt F s (modify g >>= f) Q := hf

theorem ends_map {Q : β → Session → Prop} (f : α → β) (hx : EndsAt F s x fun a t => Q (f a) t) :
    EndsAt F s (f <$> x) Q := by
  rw [map_eq_pure_bind]
  exact ends_bind hx fun _ _ h => ends_pure h

theorem forall_mem_of_forall₂ {xs : List α} {bs : List β} {P : β → Prop}
    (h : List.Forall₂ (fun _ => P) xs bs) : ∀ b ∈ bs, P b := by
  induction h with
  | nil => exact nofun
  | cons hb _ ih => exact List.forall_mem_cons.2 ⟨hb, ih⟩

section Loops

variable {R : Session → Session → Prop} [Std.Refl R] [IsTrans Session R]

/-- A loop moves along a relation that each of its rounds moves along, and what a round achieves
lasts as long as it is not undone along the relation. -/
theorem ends_forM {f : α → Infer PUnit} {xs : List α} (hP : ∀ x t u, P x t → R t u → P x u)
    (hf : ∀ x ∈ xs, ∀ t, R s t → EndsAt F t (f x) fun _ u => R t u ∧ P x u) :
    EndsAt F s (xs.forM f) fun _ t => R s t ∧ ∀ x ∈ xs, P x t := by
  induction xs generalizing s with
  | nil => exact ends_pure ⟨refl s, nofun⟩
  | cons x rest ih =>
    refine ends_bind (hf x (by simp) s (refl s)) ?_
    rintro _ t ⟨hst, hx⟩
    have hrest := ih (s := t) fun y hy u htu => hf y (by simp [hy]) u (IsTrans.trans _ _ _ hst htu)
    refine hrest.imp ?_
    rintro _ u ⟨htu, hall⟩
    refine ⟨IsTrans.trans _ _ _ hst htu, ?_⟩
    intro y hy
    rcases List.mem_cons.1 hy with rfl | hy
    · exact hP y t u hx htu
    · exact hall y hy

theorem ends_forM_move {f : α → Infer PUnit} {xs : List α}
    (hf : ∀ x ∈ xs, ∀ t, R s t → EndsAt F t (f x) fun _ u => R t u) :
    EndsAt F s (xs.forM f) fun _ t => R s t := by
  have hloop := ends_forM (P := fun _ _ => True) (fun _ _ _ _ _ => trivial)
    fun x hx t ht => (hf x hx t ht).imp fun _ _ hu => ⟨hu, trivial⟩
  exact hloop.imp fun _ _ h => h.1

theorem ends_mapM_forall₂ {f : α → Infer β} {xs : List α} {P : α → β → Prop}
    (hf : ∀ x ∈ xs, ∀ t, R s t → EndsAt F t (f x) fun b u => R t u ∧ P x b) :
    EndsAt F s (xs.mapM f) fun bs t => R s t ∧ List.Forall₂ P xs bs := by
  induction xs generalizing s with
  | nil => exact ends_pure ⟨refl s, .nil⟩
  | cons x rest ih =>
    rw [List.mapM_cons]
    refine ends_bind (hf x (by simp) s (refl s)) ?_
    rintro b t ⟨hst, hb⟩
    have hrest := ih (s := t) fun y hy u htu => hf y (by simp [hy]) u (IsTrans.trans _ _ _ hst htu)
    refine ends_bind hrest ?_
    rintro bs u ⟨htu, hbs⟩
    exact ends_pure ⟨IsTrans.trans _ _ _ hst htu, .cons hb hbs⟩

theorem ends_mapM {f : α → Infer β} {xs : List α} {P : β → Prop}
    (hf : ∀ x ∈ xs, ∀ t, R s t → EndsAt F t (f x) fun b u => R t u ∧ P b) :
    EndsAt F s (xs.mapM f) fun bs t => R s t ∧ ∀ b ∈ bs, P b := by
  refine (ends_mapM_forall₂ (P := fun _ => P) hf).imp ?_
  rintro bs t ⟨hst, hbs⟩
  exact ⟨hst, forall_mem_of_forall₂ hbs⟩

theorem ends_mapM_move {f : α → Infer β} {xs : List α}
    (hf : ∀ x ∈ xs, ∀ t, R s t → EndsAt F t (f x) fun _ u => R t u) :
    EndsAt F s (xs.mapM f) fun _ t => R s t := by
  have hloop := ends_mapM (P := fun _ => True)
    fun x hx t ht => (hf x hx t ht).imp fun _ _ hu => ⟨hu, trivial⟩
  exact hloop.imp fun _ _ h => h.1

end Loops
end Infer
end TypeRecovery
