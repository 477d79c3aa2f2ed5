import TypeRecovery.Proofs.Rests
import TypeRecovery.Proofs.Trust

/-!
# Arguments and the slots they meet

Argument `n` of a call meets slot `n` of the callee, both where the call learns the type of the
argument and where a type is propagated into the callee. Neither looks further than whether the
callee has that slot. Where every argument fits, the slots met are parameters, and the types of the
callee's own variables are neither read nor written. An argument past the parameters meets such a
variable.
-/
namespace TypeRecovery

namespace Inference

open Infer

variable {c : Context} {deeper : Inference} {s t : Session} {k : Cast} {function : Nat}
  {type : Ty}

/-- A call learns what the parameter of an import is declared as, or else the type of the slot that
the argument meets, if there is one. -/
theorem argType_eq_ok (hcallee : (callee? c k.call).run s = .ok (some function, s))
    (h : (argType c deeper k).run s = .ok (type, t)) :
    c.program.isImport function = true ∧ t = s ∧
      type = (TypeStore.declared? s.db (.local function k.argIndex)).getD .unknown ∨
    c.program.isImport function = false ∧
      (c.slot? (.local function k.argIndex) = none ∧ type = .unknown ∧ t = s ∨
      ∃ l, c.slot? (.local function k.argIndex) = some l ∧
        (deeper.inferVariable (.local function k.argIndex)).run s = .ok (type, t)) := by
  obtain ⟨⟨found, u⟩, hfound, h⟩ := Checked.bind_eq_ok.1 h
  cases hcallee.symm.trans hfound
  dsimp only at h
  split at h
  case isTrue himport =>
    cases h
    exact .inl ⟨himport, rfl, rfl⟩
  case isFalse himport =>
    refine .inr ⟨by simpa using himport, ?_⟩
    cases hbody : c.program.function? function with
    | none =>
      simp only [hbody] at h
      cases h
      exact .inl ⟨by simp [Context.slot?, hbody], rfl, rfl⟩
    | some body =>
      simp only [hbody] at h
      have hslot : c.slot? (.local function k.argIndex) = body.locals[k.argIndex]? := by
        simp [Context.slot?, hbody]
      split at h
      case isTrue hlt => exact .inr ⟨_, hslot.trans (List.getElem?_eq_getElem hlt), h⟩
      case isFalse hlt =>
        cases h
        exact .inl ⟨hslot.trans (List.getElem?_eq_none (Nat.le_of_not_lt hlt)), rfl, rfl⟩

end Inference

theorem Session.Advance.entry_or_passed {c : Context} {p v : Prop} {s t : Session}
    (h : Session.Advance c p v s t) {function slot : Nat} {r : Resolution}
    (hr : s.vars.get? (.local function slot) = some r) :
    t.vars.get? (.local function slot) = some r ∨
    c.program.isImport function = false ∧ r = .resolved .unknown ∧
      ∃ l source, c.slot? (.local function slot) = some l ∧
        c.Passes source (.local function slot) ∧
        t.vars.get? (.local function slot) = t.vars.get? source := by
  refine (h.change hr).imp_right ?_
  rintro ⟨_, hunknown, type, hreceived⟩
  obtain ⟨source, hadopts, _, hentry⟩ := hreceived.source
  obtain ⟨_, _, l, ⟨rfl, rfl⟩, himport, hpasses, hslot⟩ := hadopts.slot
  refine ⟨himport, hunknown, l, source, hslot, hpasses, ?_⟩
  rw [hreceived.entry, hentry]

namespace Operation

open Infer Session

/-- What a call learns of an argument is the type of the slot with the index of the argument, and
nothing if the callee has no such slot. Until a session is committed or cleared, an entry of a slot
changes only if it is unknown and something is passed as the slot, whose type it then has. If all
arguments fit, the slots read and written like that are parameters. Of an import a call learns what
is declared, and nothing changes there. -/
theorem arguments_meet_slots (c : Context) (function : Nat) :
    (∀ (caller : Nat) (body : FunctionBody), c.program.function? caller = some body →
      ∀ k ∈ body.casts, ∀ (n : Nat) (s t : Session) (type : Ty),
      (callee? c k.call).run s = .ok (some function, s) →
      (Inference.argType c (Inference.upTo c n) k).run s = .ok (type, t) →
      c.program.isImport function = true ∧ t = s ∧
        type = (TypeStore.declared? s.db (.local function k.argIndex)).getD .unknown ∨
      c.program.isImport function = false ∧
        (c.slot? (.local function k.argIndex) = none ∧ type = .unknown ∧ t = s ∨
        ∃ l, c.slot? (.local function k.argIndex) = some l ∧ (c.Fits function → l.isArg = true) ∧
          ((Inference.upTo c n).inferVariable (.local function k.argIndex)).run s =
            .ok (type, t))) ∧
    ∀ (db : Database) (ops : List Operation) (replies : List Reply) (s : Session),
      (performAll c ops).run (Session.start db) = .ok (replies, s) →
      ∀ t : Session, ((∃ more later, (∀ op ∈ more, op ≠ .apply ∧ op ≠ .clear) ∧
        (performAll c more).run s = .ok (later, t)) ∨
        (propagateTracked c).run s = .ok ((), t)) →
      ∀ (slot : Nat) (r : Resolution), s.vars.get? (.local function slot) = some r →
      t.vars.get? (.local function slot) = some r ∨
      c.program.isImport function = false ∧ r = .resolved .unknown ∧
        ∃ l source, c.slot? (.local function slot) = some l ∧ (c.Fits function → l.isArg = true) ∧
          c.Passes source (.local function slot) ∧
          t.vars.get? (.local function slot) = t.vars.get? source := by
  refine ⟨?_, ?_⟩
  · intro caller body hcaller k hk n s t type hcallee h
    refine (Inference.argType_eq_ok hcallee h).imp_right fun ⟨himport, hlearns⟩ => ⟨himport, ?_⟩
    refine hlearns.imp_right ?_
    rintro ⟨l, hslot, hinfer⟩
    refine ⟨l, hslot, fun hfits => ?_, hinfer⟩
    have hcall := (Inference.yields_callee? k.call).of_ok hcallee function rfl
    simpa [hslot] using hfits _ (Table.get?_eq_some_iff.1 hcaller) k hk hcall
  · intro db ops replies s hs t ht slot r hr
    have hidle : s.Idle c := (ends_performAll ops (idle_start c db)).of_ok hs
    have hadvance : Advance c True True s t := by
      rcases ht with ⟨more, later, hmore, ht⟩ | ht
      · exact advance_of_performAll hidle hmore (fun _ _ _ => trivial) ht
      · exact (ends_propagateTracked.of_ok ht).1.imp id False.elim
    refine (hadvance.entry_or_passed hr).imp_right ?_
    rintro ⟨himport, hunknown, l, source, hslot, hpasses, hentry⟩
    exact ⟨himport, hunknown, l, source, hslot, fun hfits => hfits.isArg_of_passes hpasses hslot,
      hpasses, hentry⟩

/-- A function with a parameter and a variable of its own. What is passed as the parameter types it,
and a call learns that type. The variable keeps the type it had. -/
theorem arguments_meet_slots_fitting :
    let p : Variable := .local 4096 0
    let n : Variable := .local 8192 0
    let own : Variable := .local 8192 1
    let call : Call := { address := 4112, target := .explicit 8192 }
    let passed : Cast := { var := p, chain := [], argIndex := 0, call }
    let caller : FunctionBody := {
      address := 4096
      locals := [{ name := "p", isArg := true }]
      writes := [
        { var := p, chain := [.deref], value := .num 1 4 },
        { var := p, chain := [.add 8, .deref], value := .num 2 4 }]
      casts := [passed]
      calls := [call] }
    let callee : FunctionBody := {
      address := 8192
      locals := [{ name := "n", isArg := true }, { name := "own" }]
      writes := [
        { var := own, chain := [.deref], value := .num 1 4 },
        { var := own, chain := [.add 4, .deref], value := .num 2 4 }] }
    let c : Context := {
      program := (Program.addFunction {} caller).addFunction callee
      settings := {} }
    c.Fits 8192 ∧ ∃ replies s later t type u,
      (performAll c [.visit 8192]).run (Session.start {}) = .ok (replies, s) ∧
      (performAll c [.visit 4096]).run s = .ok (later, t) ∧
      s.varType n = .unknown ∧ t.varType n = .structPointer ⟨1⟩ ∧
      (Inference.argType c (Inference.ofContext c) passed).run t = .ok (type, u) ∧
      (analyzeVariable c n).run t = .ok (type, u) ∧ type = .structPointer ⟨1⟩ ∧
      s.vars.get? own = some (.resolved (.structPointer ⟨0⟩)) ∧
      t.vars.get? own = some (.resolved (.structPointer ⟨0⟩)) := by
  intro p n own call passed caller callee c
  have hfits : c.Fits 8192 := by decide +kernel
  have hcaller : c.program.function? 4096 = some caller := rfl
  have himport : c.program.isImport 8192 = false := by decide +kernel
  have hslot : c.slot? n = some { name := "n", isArg := true } := by decide +kernel
  have hown : c.slot? own = some { name := "own" } := by decide +kernel
  have hcallee : ∀ s, (callee? c passed.call).run s = .ok (some 8192, s) := fun _ => rfl
  have heval : (do
      let s ← (performAll c [.visit 8192]).run (Session.start {})
      let t ← (performAll c [.visit 4096]).run s.2
      let u ← (Inference.argType c (Inference.ofContext c) passed).run t.2
      pure (s.2.varType n, t.2.varType n, u.1, s.2.vars.get? own)) =
      (.ok (.unknown, .structPointer ⟨1⟩, .structPointer ⟨1⟩,
        some (.resolved (.structPointer ⟨0⟩))) : Checked _) := by
    decide +kernel
  clear_value c
  obtain ⟨⟨replies, s⟩, hs, heval⟩ := Checked.bind_eq_ok.1 heval
  obtain ⟨⟨later, t⟩, ht, heval⟩ := Checked.bind_eq_ok.1 heval
  obtain ⟨⟨type, u⟩, hu, heval⟩ := Checked.bind_eq_ok.1 heval
  simp only [Checked.pure_eq_ok, Prod.mk.injEq] at heval
  obtain ⟨hbefore, hafter, htype, hentry⟩ := heval
  obtain ⟨hlearns, hlasts⟩ := arguments_meet_slots c 8192
  have hinfer : (analyzeVariable c n).run t = .ok (type, u) := by
    rcases hlearns 4096 caller hcaller passed List.mem_cons_self _ t u type (hcallee t) hu with
      ⟨h, _⟩ | ⟨_, ⟨h, _⟩ | ⟨_, _, _, h⟩⟩
    · rw [himport] at h
      cases h
    · rw [hslot] at h
      cases h
    · exact h
  have hlast : t.vars.get? own = some (.resolved (.structPointer ⟨0⟩)) := by
    rcases hlasts {} _ replies s hs t (.inl ⟨_, later, by simp, ht⟩) 1 _ hentry with
      h | ⟨_, _, l, _, h, harg, _⟩
    · exact h
    · cases hown.symm.trans h
      cases harg hfits
  exact ⟨hfits, replies, s, later, t, type, u, hs, ht, hbefore, hafter, hu, hinfer, htype, hentry,
    hlast⟩

/-- A call passes three arguments to a function of one parameter. The first variable gets its type
from a variable of the callee, and the second gives its own to another. -/
theorem argument_past_parameters_meets_local :
    let p : Variable := .local 4096 0
    let q : Variable := .local 4096 1
    let own : Variable := .local 8192 1
    let tmp : Variable := .local 8192 2
    let call : Call := { address := 4112, target := .explicit 8192 }
    let caller : FunctionBody := {
      address := 4096
      locals := [{ name := "p", isArg := true }, { name := "q", isArg := true }]
      writes := [
        { var := q, chain := [.deref], value := .num 1 4 },
        { var := q, chain := [.add 8, .deref], value := .num 2 4 }]
      casts := [
        { var := p, chain := [], argIndex := 1, call },
        { var := q, chain := [], argIndex := 2, call }]
      calls := [call] }
    let callee : FunctionBody := {
      address := 8192
      locals := [{ name := "n", isArg := true }, { name := "own" }, { name := "tmp" }]
      writes := [
        { var := own, chain := [.deref], value := .num 1 4 },
        { var := own, chain := [.add 4, .deref], value := .num 2 4 }] }
    let c : Context := {
      program := (Program.addFunction {} caller).addFunction callee
      settings := {} }
    (c.slot? own).any (!·.isArg) ∧ (c.slot? tmp).any (!·.isArg) ∧ ∃ replies s later t,
      (performAll c [.typeVariable tmp, .typeVariable p]).run (Session.start {}) =
        .ok (replies, s) ∧
      (performAll c [.typeVariable q, .propagate q]).run s = .ok (later, t) ∧
      s.varType p = .structPointer ⟨0⟩ ∧ s.varType own = .structPointer ⟨0⟩ ∧
      s.vars.get? tmp = some (.resolved .unknown) ∧
      t.vars.get? tmp = some (.resolved (.structPointer ⟨1⟩)) := by
  intro p q own tmp call caller callee c
  have heval : (do
      let s ← (performAll c [.typeVariable tmp, .typeVariable p]).run (Session.start {})
      let t ← (performAll c [.typeVariable q, .propagate q]).run s.2
      pure (s.2.varType p, s.2.varType own, s.2.vars.get? tmp, t.2.vars.get? tmp)) =
      (.ok (.structPointer ⟨0⟩, .structPointer ⟨0⟩, some (.resolved .unknown),
        some (.resolved (.structPointer ⟨1⟩))) : Checked _) := by
    decide +kernel
  obtain ⟨⟨replies, s⟩, hs, heval⟩ := Checked.bind_eq_ok.1 heval
  obtain ⟨⟨later, t⟩, ht, heval⟩ := Checked.bind_eq_ok.1 heval
  simp only [Checked.pure_eq_ok, Prod.mk.injEq] at heval
  obtain ⟨hp, hown, hbefore, hafter⟩ := heval
  exact ⟨by decide +kernel, by decide +kernel, replies, s, later, t, hs, ht, hp, hown, hbefore,
    hafter⟩

end Operation
end TypeRecovery
