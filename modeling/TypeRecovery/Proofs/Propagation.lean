import TypeRecovery.Proofs.Rests

/-!
# What is propagated before a commit

A session that is applied first propagates what it tracks. The variables are taken down before the
first of them is propagated, and propagation types parameters that were not asked for before. So all
that a session had typed is propagated when it is committed, and has met the parameters it is passed
as. A variable that only the propagation typed may be left out.
-/
namespace TypeRecovery
namespace Operation

open Infer Session

/-- When a session is committed, a variable of a struct of the run is propagated, unless it was not
tracked when propagation began, or was tracked with a struct that did not belong to the run yet. No
parameter that takes over types and that a propagated variable is passed as by name is unknown. -/
theorem tracked_variables_propagated (c : Context)
    (henabled : c.settings.isEnabled .crossCallPropagation = true) (db : Database)
    (ops : List Operation) (replies : List Reply) (s found later : Session) (edges : List CallEdge)
    (hs : (performAll c ops).run (Session.start db) = .ok (replies, s))
    (hfound : (propagateTracked c).run s = .ok ((), found))
    (hlater : (resolveCalls c).run found = .ok (edges, later)) :
    (Infer.apply c).run.run s = (commit edges).run.run later ∧
    (∀ var, later.isProvisional (later.varType var) = true →
      later.propagated.contains var = true ∨ s.vars.contains var = false ∨
      s.varType var = later.varType var ∧ s.isProvisional (s.varType var) = false) ∧
    ∀ source, later.propagated.contains source = true →
      ∀ k ∈ Inference.wholeCasts c source, ∀ function, c.Receives k function →
        later.varType (.local function k.argIndex) ≠ .unknown := by
  have hidle : s.Idle c := (ends_performAll ops (idle_start c db)).of_ok hs
  obtain ⟨hadvance, hmarked⟩ := ends_propagateTracked.of_ok hfound
  have hrest : found.Idle c := hidle.advance hadvance (hadvance.deferred_eq_empty hidle.deferred)
    (sameBase_of_moves (trails_propagateTracked.reaches hfound))
  obtain ⟨ds, _, heq⟩ := resolveCalls_eq_ok hlater
  refine ⟨?_, ?_, ?_⟩
  · have hresolve : (Infer.apply c).run.run s = (resolveCalls c).run found >>= fun q =>
        (commit q.1).run.run q.2 := by
      rw [run_apply, hfound]
      rfl
    rw [hresolve, hlater]
    rfl
  · subst heq
    intro var hprovisional
    cases hr : s.vars.get? var with
    | none => exact .inr (.inl (Table.contains_eq_false_iff.2 hr))
    | some r =>
      rcases hadvance.change hr with hentry | ⟨_, _, _, hreceived⟩
      · have htype : s.varType var = found.varType var := by simp [Run.varType, hr, hentry]
        cases hold : s.isProvisional (s.varType var) with
        | true =>
          exact .inl (hmarked henabled var (Table.mem_keys_iff.2 (Table.contains_of_get? hr)) hold)
        | false => exact .inr (.inr ⟨htype, rfl⟩)
      · exact .inl hreceived.propagated
  · subst heq
    intro source hsource k hk function hreceives
    exact (hrest.flowed hsource k hk function hreceives).varType_ne_unknown hrest.closed

/-- The type of an argument has reached a parameter without uses of its own. -/
theorem tracked_variables_propagated_passed :
    let p : Variable := .local 4096 0
    let q : Variable := .local 8192 0
    let call : Call := { address := 4112, target := .explicit 8192 }
    let caller : FunctionBody := {
      address := 4096
      locals := [{ name := "p", isArg := true }]
      writes := [
        { var := p, chain := [.deref], value := .num 1 4 },
        { var := p, chain := [.add 8, .deref], value := .num 2 4 }]
      casts := [{ var := p, chain := [], argIndex := 0, call }]
      calls := [call] }
    let callee : FunctionBody := { address := 8192, locals := [{ name := "q", isArg := true }] }
    let c : Context := {
      program := (Program.addFunction {} caller).addFunction callee
      settings := {} }
    c.settings.isEnabled .crossCallPropagation = true ∧ ∃ replies s found edges later,
      (performAll c [.typeVariable p]).run (Session.start {}) = .ok (replies, s) ∧
      s.propagated.contains p = false ∧ s.varType q = .unknown ∧
      (propagateTracked c).run s = .ok ((), found) ∧
      (resolveCalls c).run found = .ok (edges, later) ∧
      (Infer.apply c).run.run s = (commit edges).run.run later ∧
      later.propagated.contains p = true ∧ later.varType q ≠ .unknown := by
  intro p q call caller callee c
  have henabled : c.settings.isEnabled .crossCallPropagation = true := by decide
  have heval : (do
      let s ← (performAll c [.typeVariable p]).run (Session.start {})
      let found ← (propagateTracked c).run s.2
      let later ← (resolveCalls c).run found.2
      pure (s.2.propagated.contains p, s.2.varType q, s.2.vars.contains p,
        s.2.isProvisional (s.2.varType p), later.2.isProvisional (later.2.varType p))) =
      (.ok (false, .unknown, true, true, true) : Checked _) := by
    decide +kernel
  have hpassed : { var := p, chain := [], argIndex := 0, call } ∈ Inference.wholeCasts c p :=
    List.mem_cons_self
  have hreceives : c.Receives { var := p, chain := [], argIndex := 0, call } 8192 :=
    ⟨rfl, by decide +kernel, by decide +kernel, callee, rfl, by decide, rfl⟩
  clear_value c
  obtain ⟨⟨replies, s⟩, hs, heval⟩ := Checked.bind_eq_ok.1 heval
  obtain ⟨⟨_, found⟩, hfound, heval⟩ := Checked.bind_eq_ok.1 heval
  obtain ⟨⟨edges, later⟩, hlater, heval⟩ := Checked.bind_eq_ok.1 heval
  simp only [Checked.pure_eq_ok, Prod.mk.injEq] at heval
  obtain ⟨hbefore, hunknown, htracked, hold, hnew⟩ := heval
  obtain ⟨happly, hpropagated, htyped⟩ := tracked_variables_propagated c henabled {} _ replies s
    found later edges hs hfound hlater
  have hp : later.propagated.contains p = true := by
    rcases hpropagated p hnew with hp | hp | ⟨_, hp⟩
    · exact hp
    · rw [htracked] at hp
      cases hp
    · rw [hold] at hp
      cases hp
  exact ⟨henabled, replies, s, found, edges, later, hs, hbefore, hunknown, hfound, hlater, happly,
    hp, htyped p hp _ hpassed 8192 hreceives⟩

/-- An indirect call whose target is known only since a later variable was typed. Its callee is first
met while the session is applied: its parameter gets a struct of the run, but is not propagated into
the function it is passed to. -/
theorem newly_typed_variable_left_out :
    let p : Variable := .local 4096 0
    let ops : Variable := .local 4096 1
    let q : Variable := .local 8192 0
    let r : Variable := .local 12288 0
    let indirect : Call := { address := 4112, target := .implicit (some ⟨ops, [.deref]⟩) }
    let direct : Call := { address := 8208, target := .explicit 12288 }
    let passed : Cast := { var := q, chain := [], argIndex := 0, call := direct }
    let caller : FunctionBody := {
      address := 4096
      locals := [{ name := "p", isArg := true }, { name := "ops", isArg := true }]
      writes := [
        { var := p, chain := [.deref], value := .num 1 4 },
        { var := p, chain := [.add 8, .deref], value := .num 2 4 }]
      casts := [{ var := p, chain := [], argIndex := 0, call := indirect }]
      calls := [indirect] }
    let handler : FunctionBody := {
      address := 8192
      locals := [{ name := "q", isArg := true }]
      writes := [
        { var := q, chain := [.deref], value := .num 1 4 },
        { var := q, chain := [.add 4, .deref], value := .num 2 4 }]
      casts := [passed]
      calls := [direct] }
    let sink : FunctionBody := { address := 12288, locals := [{ name := "r", isArg := true }] }
    let c : Context := {
      program := ((Program.addFunction {} caller).addFunction handler).addFunction sink
      settings := {} }
    let node : Layout := {
      id := ⟨0⟩, name := "ops", size := 8
      members := .ofList [(0, { offset := 0, name := "field_0", type := .uint 8, size := 8 })] }
    let db : Database := {
      structs := .ofList [(⟨0⟩, node)], nextId := 1
      callTargets := TargetTable.insert {} ⟨⟨0⟩, 0⟩ 8192
      declared := .ofList [(ops, .structPointer ⟨0⟩)] }
    c.settings.isEnabled .crossCallPropagation = true ∧ ∃ replies s found edges later,
      (performAll c [.typeVariable p, .typeVariable ops]).run (Session.start db) =
        .ok (replies, s) ∧
      (propagateTracked c).run s = .ok ((), found) ∧
      (resolveCalls c).run found = .ok (edges, later) ∧
      s.vars.contains q = false ∧ later.isProvisional (later.varType q) = true ∧
      later.propagated.contains q = false ∧ passed ∈ Inference.wholeCasts c q ∧
      c.Receives passed 12288 ∧ later.varType r = .unknown := by
  intro p ops q r indirect direct passed caller handler sink c node db
  have heval : (do
      let s ← (performAll c [.typeVariable p, .typeVariable ops]).run (Session.start db)
      let found ← (propagateTracked c).run s.2
      let later ← (resolveCalls c).run found.2
      pure (s.2.vars.contains q, later.2.isProvisional (later.2.varType q),
        later.2.propagated.contains q, later.2.varType r)) =
      (.ok (false, true, false, .unknown) : Checked _) := by
    decide +kernel
  have hpassed : passed ∈ Inference.wholeCasts c q := List.mem_cons_self
  have hreceives : c.Receives passed 12288 :=
    ⟨rfl, by decide +kernel, by decide +kernel, sink, rfl, by decide, rfl⟩
  obtain ⟨⟨replies, s⟩, hs, heval⟩ := Checked.bind_eq_ok.1 heval
  obtain ⟨⟨_, found⟩, hfound, heval⟩ := Checked.bind_eq_ok.1 heval
  obtain ⟨⟨edges, later⟩, hlater, heval⟩ := Checked.bind_eq_ok.1 heval
  simp only [Checked.pure_eq_ok, Prod.mk.injEq] at heval
  obtain ⟨hfresh, hprovisional, hleft, hunknown⟩ := heval
  exact ⟨by decide, replies, s, found, edges, later, hs, hfound, hlater, hfresh, hprovisional,
    hleft, hpassed, hreceives, hunknown⟩

end Operation
end TypeRecovery
