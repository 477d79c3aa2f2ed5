import TypeRecovery.Proofs.Analyses
import TypeRecovery.Proofs.Turns

/-!
# Sessions at rest

Between two operations a session is at rest: no type is in progress, no function is put off, and
all that there is to do for an analysed function or a propagated variable is done. Every operation
starts and ends there. What is known of a session after any sequence of operations follows.
-/
namespace TypeRecovery

/-- A session between two operations. -/
structure Session.Idle (c : Context) (s : Session) : Prop where
  depth : s.depth = 0
  closed : ∀ {var}, s.vars.get? var ≠ some .inProgress
  returnClosed : ∀ {function}, s.returns.get? function ≠ some .inProgress
  deferred : s.deferred = .empty
  settled : 0 < c.settings.maxDepth → ∀ {function}, s.analyzed.contains function = true →
    s.Settled c function
  flowed : ∀ {var}, s.propagated.contains var = true → s.Flowed c var
  callTargets : s.db.callTargets = .empty

namespace Session

variable {c : Context} {p v : Prop} {s t : Session}

theorem idle_start (c : Context) (db : Database) : (start db).Idle c where
  depth := rfl
  closed := nofun
  returnClosed := nofun
  deferred := rfl
  settled _ := nofun
  flowed := nofun
  callTargets := rfl

theorem Idle.advance (h : s.Idle c) (hst : Advance c p v s t) (hdeferred : t.deferred = .empty)
    (hbase : s.SameBase t) : t.Idle c where
  depth := hst.depth.trans h.depth
  closed ht := h.closed (hst.closed ht)
  returnClosed ht := h.returnClosed (hst.returnClosed ht)
  deferred := hdeferred
  settled := by
    intro hmax function hfunction
    rcases hst.visited hfunction with hs | hsettled
    · exact hst.settled (h.settled hmax hs)
    · exact hsettled hmax
  flowed := by
    intro var hvar
    rcases hst.flowed hvar with hs | ⟨_, hflowed⟩
    · exact hst.flows (h.flowed hs)
    · exact hflowed
  callTargets := hbase.2.trans h.callTargets

theorem Idle.resolved (h : s.Idle c) {var : Variable} (hvar : s.vars.contains var = true) :
    ∃ type, s.vars.get? var = some (.resolved type) := by
  obtain ⟨r, hr⟩ := Table.contains_iff.1 hvar
  cases r with
  | inProgress => exact absurd hr h.closed
  | resolved type => exact ⟨type, hr⟩

theorem Idle.resolvedReturn (h : s.Idle c) {function : Nat}
    (hfunction : s.returns.contains function = true) :
    ∃ type, s.returns.get? function = some (.resolved type) := by
  obtain ⟨r, hr⟩ := Table.contains_iff.1 hfunction
  cases r with
  | inProgress => exact absurd hr h.returnClosed
  | resolved type => exact ⟨type, hr⟩

/-- At rest nothing is put off, so what is reached from an analysed function is analysed. -/
theorem Idle.analyzed_of_reachable (h : s.Idle c) (hmax : 0 < c.settings.maxDepth)
    {function callee : Nat} (hfunction : s.analyzed.contains function = true)
    (hcalls : Relation.ReflTransGen
      (fun caller callee => callee ∈ c.program.callsFrom caller ∧ c.program.hasBody callee)
      function callee) : s.analyzed.contains callee = true := by
  induction hcalls with
  | refl => exact hfunction
  | tail _ hcall ih =>
    rcases (h.settled hmax ih).callees _ hcall.1 hcall.2 with hanalyzed | hdeferred
    · exact hanalyzed
    · rw [h.deferred] at hdeferred
      exact absurd hdeferred (by simp)

theorem Advance.deferred_eq_empty (h : Advance c p False s t) (hs : s.deferred = .empty) :
    t.deferred = .empty := by
  refine Table.eq_empty_of_contains fun function => ?_
  by_contra hcontains
  rcases h.deferred (Bool.not_eq_false _ ▸ hcontains) with hdeferred | ⟨hfalse, _⟩
  · rw [hs] at hdeferred
    exact absurd hdeferred (by simp)
  · exact hfalse

end Session

namespace Infer

variable {c : Context} {s : Session}

theorem ends_writeBack (hs : s.db.callTargets = .empty) :
    Ends s (writeBack c) fun _ t => ∃ db, t = Session.start db := by
  refine ends_bind ends_propagateTracked.with_run ?_
  rintro _ t ⟨_, ht⟩
  have hbase := Session.sameBase_of_moves (trails_propagateTracked.reaches ht)
  refine ends_bind ends_resolveCalls.with_run ?_
  rintro edges u ⟨_, hu⟩
  obtain ⟨ds, _, rfl⟩ := resolveCalls_eq_ok hu
  refine ends_iff.2 ⟨?_, by rw [run_change]; exact stops_commit edges _⟩
  intro answer w hw
  rw [run_change] at hw
  obtain ⟨_, db, _, rfl⟩ := commit_of_callTargets hw (hbase.2.trans hs)
  exact ⟨db, rfl⟩

end Infer

namespace Operation

open Infer Session

variable {c : Context} {s : Session}

/-- Whether types may be propagated. -/
def pushes : Operation → Bool
  | visit _ => true
  | visitAll => true
  | propagate _ => true
  | _ => false

theorem ends_replying {α : Type} {p q : Prop} {x : Infer α} (f : α → Reply)
    (hs : s.deferred = .empty) (hx : Ends s x fun _ t => Advance c p False s t) (hpq : p → q) :
    Ends s (x >>= fun a => pure (f a)) fun _ t => Advance c q True s t ∧ t.deferred = .empty :=
  ends_bind hx fun _ _ hst => ends_pure ⟨hst.imp hpq False.elim, hst.deferred_eq_empty hs⟩

theorem ends_advancing {op : Operation} (hs : s.Idle c) (happly : op ≠ .apply)
    (hclear : op ≠ .clear) : Ends s (op.perform c) fun _ t =>
      Advance c (op.pushes = true) True s t ∧ t.deferred = .empty := by
  have hnone := hs.deferred
  cases op with
  | visit function =>
    refine ends_bind (ends_analyzeFunction function hs.depth hnone) ?_
    rintro _ t ⟨hst, hempty, _⟩
    exact ends_pure ⟨hst.imp (fun _ => rfl) id, hempty⟩
  | visitAll =>
    refine ends_bind (ends_analyzeEverything hs.depth hnone) ?_
    rintro _ t ⟨hst, hempty⟩
    exact ends_pure ⟨hst.imp (fun _ => rfl) id, hempty⟩
  | typeVariable var =>
    exact ends_replying .type hnone ((ends_analyzeVariable var).imp fun _ _ h => h.infers)
      False.elim
  | typeExpr function e => exact ends_replying .type hnone (ends_analyzeExpr function e) False.elim
  | typeReturn function =>
    exact ends_replying .type hnone (ends_analyzeReturn function) False.elim
  | propagate var =>
    exact ends_replying _ hnone ((ends_propagate var).imp fun _ _ h => h.propagates) fun _ => rfl
  | typeByUses var uses =>
    exact ends_replying .type hnone ((ends_typeByUses _ var uses).imp fun _ _ h => h.advance)
      False.elim
  | addMemberType id offset type =>
    exact ends_replying _ hnone ((ends_addMemberType id offset type).imp fun _ _ h => h.advance)
      False.elim
  | createStruct =>
    exact ends_replying .struct hnone ((ends_createStruct _).imp fun _ _ h => h.advance) False.elim
  | indirectTarget call =>
    exact ends_replying .target hnone ((ends_indirectTarget c call).imp fun _ _ h => h.advance)
      False.elim
  | takeDiagnostics =>
    exact ends_replying .diagnostics hnone (ends_takeDiagnostics.imp fun _ _ h => h.advance)
      False.elim
  | apply => exact absurd rfl happly
  | clear => exact absurd rfl hclear

/-- Every operation on a session at rest ends, and leaves the session at rest. -/
theorem ends_perform (op : Operation) (hs : s.Idle c) :
    Ends s (op.perform c) fun _ t => t.Idle c ∧
      (op ≠ .apply → op ≠ .clear → Advance c (op.pushes = true) True s t) := by
  by_cases happly : op = .apply
  · subst happly
    refine ends_bind (ends_writeBack hs.callTargets) ?_
    rintro _ _ ⟨db, rfl⟩
    exact ends_pure ⟨idle_start c db, fun h => absurd rfl h⟩
  · by_cases hclear : op = .clear
    · subst hclear
      exact ends_modify_bind (ends_pure ⟨idle_start c s.db.inner, fun _ h => absurd rfl h⟩)
    · refine (ends_advancing hs happly hclear).with_run.imp ?_
      rintro _ t ⟨⟨hst, hempty⟩, hrun⟩
      have hbase := sameBase_of_perform happly hclear hrun
      exact ⟨hs.advance hst hempty hbase, fun _ _ => hst⟩

theorem ends_performAll (ops : List Operation) (hs : s.Idle c) :
    Ends s (performAll c ops) fun _ t => t.Idle c := by
  unfold performAll
  induction ops generalizing s with
  | nil => exact ends_pure hs
  | cons op rest ih =>
    rw [List.mapM_cons]
    refine ends_bind (ends_perform op hs) ?_
    rintro reply t ⟨ht, _⟩
    exact ends_bind (ih ht) fun _ u hu => ends_pure hu

/-- Without a result, operations stop at an overflow, or over structs that are nested in a circle in
a session on the way. -/
theorem fault_of_performAll {db : Database} {ops : List Operation} {fault : Fault}
    (h : (performAll c ops).run (start db) = .error fault) :
    (∃ op, fault = .overflow op) ∨ ∃ u ∈ sessions c db ops,
      Cyclic (TypeStore.nesting u.db) ∧ fault = .endless (TypeStore.nesting u.db) := by
  have hgenuine := (ends_performAll ops (idle_start c db)).genuine fault h
  cases fault with
  | overflow op => exact .inl ⟨op, rfl⟩
  | endless nesting =>
    obtain ⟨u, hu, rfl⟩ := (trails_performAll ops).nested h
    exact .inr ⟨u, hu, hgenuine, rfl⟩
  | exhausted => exact hgenuine.elim

theorem advance_of_performAll {p : Prop} {ops : List Operation} {replies : List Reply}
    {t : Session} (hs : s.Idle c) (hops : ∀ op ∈ ops, op ≠ .apply ∧ op ≠ .clear)
    (hp : ∀ op ∈ ops, op.pushes = true → p)
    (h : (performAll c ops).run s = .ok (replies, t)) : Advance c p True s t := by
  induction ops generalizing s replies with
  | nil =>
    cases h
    exact refl _
  | cons op rest ih =>
    obtain ⟨reply, u, _, hop, hrest, _⟩ := performAll_cons_eq_ok.1 h
    obtain ⟨hu, hadvance⟩ := (ends_perform op hs).of_ok hop
    have hkept := hops op (by simp)
    have hfirst := (hadvance hkept.1 hkept.2).imp (hp op (by simp)) id
    have hlast := ih hu (fun other hother => hops other (by simp [hother]))
      (fun other hother => hp other (by simp [hother])) hrest
    exact hfirst.trans hlast

/-- Whatever was done with a session, no type is in progress. Until it is committed or cleared,
known types and the types of return values stay as they are, and no entry gets lost. An unknown type
changes only where types are propagated: a slot that is never assigned may adopt the type of a
variable that a call passes as it, which reaches a struct of the run. If all arguments that the
function may be passed fit, the slot is a parameter. -/
theorem memo_entries_last (c : Context) (db : Database) (ops : List Operation)
    (replies : List Reply) (s : Session)
    (hs : (performAll c ops).run (Session.start db) = .ok (replies, s)) :
    s.depth = 0 ∧
    (∀ var, s.vars.get? var ≠ some .inProgress) ∧
    (∀ function, s.returns.get? function ≠ some .inProgress) ∧
    ∀ (more : List Operation) (later : List Reply) (t : Session),
      (∀ op ∈ more, op ≠ .apply ∧ op ≠ .clear) → (performAll c more).run s = .ok (later, t) →
      (∀ var type, type ≠ .unknown → s.vars.get? var = some (.resolved type) →
        t.vars.get? var = some (.resolved type)) ∧
      (∀ var, s.vars.get? var = some (.resolved .unknown) →
        t.vars.get? var = some (.resolved .unknown) ∨
        (∃ op ∈ more, op.pushes = true) ∧ ∃ function slot l type, var = .local function slot ∧
          c.slot? var = some l ∧ (c.Fits function → l.isArg = true) ∧ t.Received c var type) ∧
      (∀ var, s.vars.contains var = true → t.vars.contains var = true) ∧
      (∀ function r, s.returns.get? function = some r → t.returns.get? function = some r) := by
  have hidle : s.Idle c := (ends_performAll ops (idle_start c db)).of_ok hs
  refine ⟨hidle.depth, fun _ => hidle.closed, fun _ => hidle.returnClosed, ?_⟩
  intro more later t hmore ht
  have hadvance : Advance c (∃ op ∈ more, op.pushes = true) True s t :=
    advance_of_performAll hidle hmore (fun op hop hpushes => ⟨op, hop, hpushes⟩) ht
  refine ⟨?_, ?_, fun _ => hadvance.contains, ?_⟩
  · intro var type hknown hvar
    exact hadvance.entry_of_known hvar hknown
  · intro var hvar
    rcases hadvance.change hvar with hentry | ⟨hpushes, _, type, hreceived⟩
    · exact .inl hentry
    · obtain ⟨source, hadopts, _⟩ := hreceived.source
      obtain ⟨function, slot, l, rfl, _, hpasses, hslot⟩ := hadopts.slot
      exact .inr ⟨hpushes, function, slot, l, type, rfl, hslot,
        fun hfits => hfits.isArg_of_passes hpasses hslot, hreceived⟩
  · intro function r hr
    exact hadvance.returned hr

/-- The parameter of a callee without uses of its own adopts the type of what is passed as it. -/
theorem memo_entries_last_adopting :
    let p : Variable := .local 4096 0
    let q : Variable := .local 8192 0
    let call : Call := { address := 4112, target := .explicit 8192 }
    let caller : FunctionBody := {
      address := 4096
      locals := [{ name := "p", isArg := true }]
      writes := [
        { var := p, chain := [.deref], value := .num 1 4 },
        { var := p, chain := [.add 8, .deref], value := .num 2 4 }]
      casts := [{ var := p, chain := [], argIndex := 0, call }]
      calls := [call] }
    let callee : FunctionBody := { address := 8192, locals := [{ name := "q", isArg := true }] }
    let c : Context := {
      program := (Program.addFunction {} caller).addFunction callee
      settings := {} }
    c.Fits 8192 ∧ ∃ replies s later t l type,
      (performAll c [.typeVariable q]).run (Session.start {}) = .ok (replies, s) ∧
      (performAll c [.visit 4096]).run s = .ok (later, t) ∧
      s.vars.get? q = some (.resolved .unknown) ∧ c.slot? q = some l ∧ l.isArg = true ∧
      t.Received c q type := by
  intro p q call caller callee c
  have hfits : c.Fits 8192 := by decide +kernel
  have heval : (do
      let found ← (performAll c [.typeVariable q]).run (Session.start {})
      let last ← (performAll c [.visit 4096]).run found.2
      pure (found.2.vars.get? q, last.2.vars.get? q)) =
      (.ok (some (.resolved .unknown), some (.resolved (.structPointer ⟨0⟩))) : Checked _) := by
    decide +kernel
  obtain ⟨⟨replies, s⟩, hs, heval⟩ := Checked.bind_eq_ok.1 heval
  obtain ⟨⟨later, t⟩, ht, heval⟩ := Checked.bind_eq_ok.1 heval
  simp only [Checked.pure_eq_ok, Prod.mk.injEq] at heval
  obtain ⟨hbefore, hafter⟩ := heval
  obtain ⟨_, _, _, hlast⟩ := memo_entries_last c {} _ replies s hs
  obtain ⟨_, hunknown, _, _⟩ := hlast _ later t (by simp) ht
  rcases hunknown q hbefore with hsame | ⟨_, _, _, l, type, hq, hslot, harg, hreceived⟩
  · rw [hafter] at hsame
    cases hsame
  · obtain ⟨rfl, rfl⟩ := Variable.local.inj hq
    exact ⟨hfits, replies, s, later, t, l, type, hs, ht, hbefore, hslot, harg hfits, hreceived⟩

/-- A call passes one argument more than the function has parameters. The variable of the function
that it meets has an unknown type, and adopts the type of the argument. -/
theorem unknown_local_replaced :
    let p : Variable := .local 4096 0
    let own : Variable := .local 8192 1
    let call : Call := { address := 4112, target := .explicit 8192 }
    let caller : FunctionBody := {
      address := 4096
      locals := [{ name := "p", isArg := true }]
      writes := [
        { var := p, chain := [.deref], value := .num 1 4 },
        { var := p, chain := [.add 8, .deref], value := .num 2 4 }]
      casts := [{ var := p, chain := [], argIndex := 1, call }]
      calls := [call] }
    let callee : FunctionBody := {
      address := 8192
      locals := [{ name := "n", isArg := true }, { name := "own" }] }
    let c : Context := {
      program := (Program.addFunction {} caller).addFunction callee
      settings := {} }
    (c.slot? own).any (!·.isArg) ∧ ∃ replies s later t,
      (performAll c [.typeVariable own]).run (Session.start {}) = .ok (replies, s) ∧
      (performAll c [.typeVariable p, .propagate p]).run s = .ok (later, t) ∧
      s.vars.get? own = some (.resolved .unknown) ∧
      t.vars.get? own = some (.resolved (.structPointer ⟨0⟩)) := by
  intro p own call caller callee c
  have heval : (do
      let s ← (performAll c [.typeVariable own]).run (Session.start {})
      let t ← (performAll c [.typeVariable p, .propagate p]).run s.2
      pure (s.2.vars.get? own, t.2.vars.get? own)) =
      (.ok (some (.resolved .unknown), some (.resolved (.structPointer ⟨0⟩))) : Checked _) := by
    decide +kernel
  obtain ⟨⟨replies, s⟩, hs, heval⟩ := Checked.bind_eq_ok.1 heval
  obtain ⟨⟨later, t⟩, ht, heval⟩ := Checked.bind_eq_ok.1 heval
  simp only [Checked.pure_eq_ok, Prod.mk.injEq] at heval
  exact ⟨by decide +kernel, replies, s, later, t, hs, ht, heval.1, heval.2⟩

/-- Visiting a function visits everything that it reaches, however low the limit on nested inference
is: nothing stays put off, and all slots and return values on the way have their types. -/
theorem visit_reaches_all (c : Context) (hmax : 0 < c.settings.maxDepth) (db : Database)
    (ops : List Operation) (replies : List Reply) (s : Session)
    (hs : (performAll c ops).run (Session.start db) = .ok (replies, s)) (function : Nat)
    (hbody : c.program.hasBody function) :
    Ends s (analyzeFunction c function) fun _ t => t.deferred = .empty ∧
      ∀ callee, Relation.ReflTransGen
        (fun caller callee => callee ∈ c.program.callsFrom caller ∧ c.program.hasBody callee)
        function callee →
        t.analyzed.contains callee = true ∧
        (∀ body, c.program.function? callee = some body → ∀ slot < body.locals.length,
          ∃ type, t.vars.get? (.local callee slot) = some (.resolved type)) ∧
        ∃ type, t.returns.get? callee = some (.resolved type) := by
  have hidle : s.Idle c := (ends_performAll ops (idle_start c db)).of_ok hs
  refine (ends_analyzeFunction function hidle.depth hidle.deferred).with_run.imp ?_
  rintro _ t ⟨⟨hst, hempty, hanalyzed⟩, hrun⟩
  have hbase := sameBase_of_moves ((trails_analyzeFunction function).reaches hrun)
  have ht : t.Idle c := hidle.advance hst hempty hbase
  refine ⟨hempty, fun callee hcalls => ?_⟩
  have hcallee := ht.analyzed_of_reachable hmax (hanalyzed hbody) hcalls
  have hsettled := ht.settled hmax hcallee
  have hhas : c.program.hasBody callee := by
    cases hcalls with
    | refl => exact hbody
    | tail _ hcall => exact hcall.2
  refine ⟨hcallee, fun body hfunction slot hslot => ?_, ?_⟩
  · exact ht.resolved (hsettled.slots hfunction slot hslot)
  · exact ht.resolvedReturn (hsettled.returns hhas)

/-- Two functions that call each other, and one more called from the second, under the lowest
limit. -/
theorem visit_reaches_all_in_circle :
    let calling (address : Nat) (targets : List Nat) : FunctionBody := {
      address
      locals := [{ name := "p", isArg := true }]
      calls := targets.map fun target => { address := address + 16, target := .explicit target } }
    let c : Context := {
      program := ((Program.addFunction {} (calling 4096 [8192])).addFunction
        (calling 8192 [4096, 12288])).addFunction (calling 12288 [])
      settings := { maxDepth := 1 } }
    ∃ t, (analyzeFunction c 4096).run (Session.start {}) = .ok ((), t) ∧ t.deferred = .empty ∧
      t.analyzed.contains 12288 = true ∧
      (∃ type, t.vars.get? (.local 12288 0) = some (.resolved type)) ∧
      ∃ type, t.returns.get? 12288 = some (.resolved type) := by
  intro calling c
  have hfirst : c.program.hasBody 4096 := by decide +kernel
  have hsecond : 8192 ∈ c.program.callsFrom 4096 ∧ c.program.hasBody 8192 := by decide +kernel
  have hthird : 12288 ∈ c.program.callsFrom 8192 ∧ c.program.hasBody 12288 := by decide +kernel
  have hlocals : (c.program.function? 12288).map (·.locals.length) = some 1 := by decide +kernel
  have hmax : 0 < c.settings.maxDepth := by decide
  have heval : (do
      let found ← (analyzeFunction c 4096).run (Session.start {})
      pure found.1) = (.ok () : Checked _) := by
    decide +kernel
  clear_value c
  obtain ⟨⟨_, t⟩, ht, _⟩ := Checked.bind_eq_ok.1 heval
  have hends := visit_reaches_all c hmax {} [] [] (Session.start {}) rfl 4096 hfirst
  obtain ⟨hempty, hall⟩ := hends.of_ok ht
  obtain ⟨hanalyzed, hslots, hreturn⟩ := hall 12288 (.tail (.single hsecond) hthird)
  obtain ⟨body, hbody, hlength⟩ := Option.map_eq_some_iff.1 hlocals
  exact ⟨t, ht, hempty, hanalyzed, hslots body hbody 0 (by omega), hreturn⟩

end Operation
end TypeRecovery
