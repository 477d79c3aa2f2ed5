import TypeRecovery.Proofs.ProgramSnapshots

/-!
# The nodes of a call graph

The call graph of a program keeps a copy of each function's name and of whether it is imported. The
copy is written when something is first entered for an address, and again when a body is replaced
and the index is built anew. An import that is entered for an address with a function leaves the
copy as it is, although the program now goes by the import; so nodes describe the program as it was
when they were last written (`Program.WrittenAt`).
-/
namespace TypeRecovery

theorem foldl_eq_or {σ α β : Type} {step : σ → α → σ} (view : σ → Option β) (new : α → Option β)
    (h : ∀ s x, view (step s x) = (view s).or (new x)) (s : σ) (xs : List α) :
    view (xs.foldl step s) = (view s).or (xs.findSome? new) := by
  induction xs generalizing s with
  | nil => simp
  | cons x rest ih =>
    rw [List.foldl_cons, ih, h, List.findSome?_cons, Option.or_assoc]
    cases new x <;> simp

theorem Table.findSome?_entries {κ α β : Type} [Key κ] {t : Table κ α} {g : κ × α → Option β}
    {k : κ} (hother : ∀ e ∈ t.entries, e.1 ≠ k → g e = none) :
    t.entries.findSome? g = (t.get? k).bind fun v => g (k, v) := by
  have hkey : ∀ e ∈ t.entries, ∀ b, g e = some b → e.1 = k := by
    intro e he b hb
    by_contra hne
    rw [hother e he hne] at hb
    cases hb
  apply Option.ext
  intro b
  rw [Option.bind_eq_some_iff]
  constructor
  · intro h
    obtain ⟨e, he, hb⟩ := List.exists_of_findSome?_eq_some h
    obtain ⟨k', v⟩ := e
    obtain rfl : k' = k := hkey _ he b hb
    exact ⟨v, get?_eq_some_iff.2 he, hb⟩
  · rintro ⟨v, hv, hb⟩
    have hmem := get?_eq_some_iff.1 hv
    have hsome : (t.entries.findSome? g).isSome = true :=
      List.findSome?_isSome_iff.2 ⟨(k, v), hmem, by simp [hb]⟩
    obtain ⟨b', hb'⟩ := Option.isSome_iff_exists.1 hsome
    obtain ⟨⟨k', v'⟩, he', hfound⟩ := List.exists_of_findSome?_eq_some hb'
    obtain rfl : k' = k := hkey _ he' b' hfound
    -- a table holds one value for a key
    obtain rfl : v' = v := Option.some.inj ((get?_eq_some_iff.2 he').symm.trans hv)
    rw [hb', ← hfound, hb]

/-- The node of an import. -/
def importNode (a : Nat) (name : String) : CallNode :=
  { address := a, name := some name, isExternal := true }

/-- The node of a function that is no import. -/
def FunctionBody.node (f : FunctionBody) : CallNode :=
  { address := f.address
    name := if f.name.isEmpty then none else some f.name
    isExternal := false }

theorem CallGraph.node?_addNode (g : CallGraph) (a b : Nat) (name : Option String) (ext : Bool) :
    (g.addNode b name ext).node? a =
      (g.node? a).or (if b = a then some { address := b, name, isExternal := ext } else none) := by
  unfold addNode node?
  split
  case isTrue h =>
    by_cases hab : b = a
    · obtain ⟨node, hnode⟩ := Table.contains_iff.1 h
      rw [← hab, hnode, Option.some_or]
    · rw [if_neg hab, Option.or_none]
  case isFalse h =>
    rw [Bool.not_eq_true, Table.contains_eq_false_iff] at h
    rw [Table.get?_insert]
    by_cases hab : b = a
    · rw [if_pos hab.symm, if_pos hab, ← hab, h, Option.none_or]
    · rw [if_neg (Ne.symm hab), if_neg hab, Option.or_none]

namespace Program

variable {p : Program} {e : Entry} {entries before : List Entry} {a : Nat}

/-- What the program says of the function at an address. -/
def described? (p : Program) (a : Nat) : Option CallNode :=
  if p.isFunctionStart a then
    some { address := a, name := p.functionName? a, isExternal := p.isImport a }
  else none

/-- The call graph has a node for each function, and it says what the program says. -/
def Described (p : Program) : Prop := ∀ a, p.callGraph.node? a = p.described? a

theorem isSome_described? (p : Program) (a : Nat) :
    (p.described? a).isSome = p.isFunctionStart a := by
  unfold described?
  cases p.isFunctionStart a <;> rfl

theorem described?_eq (hp : p.Addressed) (a : Nat) :
    p.described? a =
      ((p.imports.get? a).map (importNode a)).or ((p.functions.get? a).map FunctionBody.node) := by
  unfold described? isFunctionStart functionName? isImport Table.contains
  cases p.imports.get? a with
  | some name => simp [importNode]
  | none =>
    cases hf : p.functions.get? a with
    | none => rfl
    | some f =>
      have haddress := hp a f hf
      by_cases hname : f.name.isEmpty = true <;>
        simp [FunctionBody.node, haddress, hname, Option.filter]

theorem described?_ofEntries (entries : List Entry) (a : Nat) :
    (ofEntries entries).described? a =
      ((lastImport? entries a).map (importNode a)).or
        ((lastBody? entries a).map FunctionBody.node) := by
  rw [described?_eq (addressed_ofEntries entries), import?_ofEntries, ← function?,
    function?_ofEntries]

theorem node?_enterCalls (g : CallGraph) (caller a : Nat) (calls : List Call) :
    (enterCalls g caller calls).node? a = g.node? a := by
  induction calls generalizing g with
  | nil => rfl
  | cons call rest ih =>
    rw [enterCalls, List.foldl_cons]
    refine (ih _).trans ?_
    cases call.explicitTarget? <;> rfl

theorem node?_index (p : Program) (f : FunctionBody) (a : Nat) :
    (p.index f).callGraph.node? a =
      (p.callGraph.node? a).or (if f.address = a then some f.node else none) :=
  (node?_enterCalls _ f.address a f.calls).trans (CallGraph.node?_addNode _ _ _ _ _)

theorem described_reindex (hp : p.Addressed) (a : Nat) :
    p.reindex.callGraph.node? a = p.described? a := by
  have himports := foldl_eq_or (fun g : CallGraph => g.node? a)
    (fun e : Nat × String => if e.1 = a then some (importNode e.1 e.2) else none)
    (fun g e => g.node?_addNode a e.1 (some e.2) true) {} p.imports.entries
  have hbodies := fun q : Program => foldl_eq_or (fun q : Program => q.callGraph.node? a)
    (fun f : FunctionBody => if f.address = a then some f.node else none)
    (fun q f => q.node?_index f a) q p.functions.values
  have hvalues : p.functions.values.findSome?
      (fun f => if f.address = a then some f.node else none) =
        (p.functions.get? a).map FunctionBody.node := by
    rw [Table.values, List.findSome?_map, Table.findSome?_entries (k := a)]
    · cases hf : p.functions.get? a with
      | none => rfl
      | some f => simp [hp a f hf]
    · intro e he hne
      have haddress := hp e.1 e.2 (Table.get?_eq_some_iff.2 he)
      simp [haddress, hne]
  rw [Table.findSome?_entries (k := a) (fun e _ hne => if_neg hne)] at himports
  rw [reindex, hbodies, himports, hvalues, described?_eq hp]
  have hnone : ({} : CallGraph).node? a = none := rfl
  rw [hnone, Option.none_or]
  cases p.imports.get? a <;> simp

def Entry.address : Entry → Nat
  | body f => f.address
  | imported address _ => address

/-- The entry takes the place of a body. -/
def Entry.Replaces (p : Program) : Entry → Prop
  | body f => p.functions.contains f.address = true
  | imported _ _ => False

/-- Making the entry writes the node of an address: there was no function, or the index is built
anew. -/
def Refreshes (p : Program) (e : Entry) (a : Nat) : Prop :=
  e.address = a ∧ p.isFunctionStart a = false ∨ e.Replaces p

theorem isFunctionStart_of_not_refreshes (h : ¬ Refreshes p e a) (haddress : e.address = a) :
    p.isFunctionStart a = true :=
  Bool.ne_false_iff.1 fun hstart => h (.inl ⟨haddress, hstart⟩)

theorem isFunctionStart_enter (p : Program) (e : Entry) (a : Nat) :
    (p.enter e).isFunctionStart a = (p.isFunctionStart a || decide (e.address = a)) := by
  cases e with
  | body f =>
    simp only [enter, isFunctionStart, functions_addFunction, imports_addFunction,
      Table.contains_insert, Entry.address, eq_comm]
    grind
  | imported b name =>
    simp only [enter, isFunctionStart, addImport, Table.contains_insert, Entry.address, eq_comm]
    grind

/-- Bodies stand under their own addresses, and there are nodes for the functions and no others. -/
structure Tracked (p : Program) : Prop where
  addressed : p.Addressed
  noted : ∀ a, (p.callGraph.node? a).isSome = p.isFunctionStart a

theorem Addressed.enter (hp : p.Addressed) (e : Entry) : (p.enter e).Addressed := by
  intro a f hf
  cases e with
  | body g =>
    rw [Program.enter, functions_addFunction, Table.get?_insert] at hf
    split at hf
    case isTrue heq => exact Option.some.inj hf ▸ heq.symm
    case isFalse => exact hp a f hf
  | imported b name => exact hp a f hf

namespace Tracked

variable (hp : p.Tracked)
include hp

theorem node?_eq_none (h : p.isFunctionStart a = false) : p.callGraph.node? a = none := by
  rw [← Option.not_isSome_iff_eq_none, hp.noted, h]
  exact Bool.false_ne_true

theorem node?_or (h : p.isFunctionStart a = true) (other : Option CallNode) :
    (p.callGraph.node? a).or other = p.callGraph.node? a :=
  Option.or_of_isSome (by rw [hp.noted, h])

theorem node?_enter (h : ¬ e.Replaces p) (a : Nat) : ∃ node : CallNode,
    (p.enter e).callGraph.node? a =
      (p.callGraph.node? a).or (if e.address = a then some node else none) ∧
    (p.isFunctionStart a = false → e.address = a → (p.enter e).described? a = some node) := by
  have haddressed : (p.enter e).Addressed := hp.addressed.enter e
  cases e with
  | body f =>
    have hnew : p.functions.contains f.address = false := Bool.eq_false_iff.2 h
    have hadd : p.addFunction f =
        { p.index f with functions := p.functions.insert f.address f } := by
      unfold addFunction
      rw [if_neg (Bool.eq_false_iff.1 hnew)]
      rfl
    refine ⟨f.node, ?_, ?_⟩
    · rw [enter, hadd]
      exact node?_index p f a
    · rintro hstart rfl
      rw [isFunctionStart, Bool.or_eq_false_iff, Table.contains_eq_false_iff,
        Table.contains_eq_false_iff] at hstart
      rw [described?_eq haddressed, enter, functions_addFunction, imports_addFunction]
      simp only [Entry.address] at hstart ⊢
      rw [hstart.2, Table.get?_insert_self]
      rfl
  | imported b name =>
    refine ⟨importNode b name, CallGraph.node?_addNode _ _ _ _ _, ?_⟩
    rintro _ rfl
    rw [described?_eq haddressed]
    simp [enter, addImport, Entry.address]

theorem node?_of_refreshes (h : Refreshes p e a) :
    (p.enter e).callGraph.node? a = (p.enter e).described? a := by
  by_cases hreplaces : e.Replaces p
  · cases e with
    | body f =>
      have hentered := hp.addressed.enter (.body f)
      have haddressed : Addressed { p with functions := p.functions.insert f.address f } := by
        intro b g hg
        refine hentered b g ?_
        rw [Program.enter, functions_addFunction]
        exact hg
      have hadd : p.addFunction f =
          reindex { p with functions := p.functions.insert f.address f } := if_pos hreplaces
      rw [described?_eq hentered, Program.enter, functions_addFunction, imports_addFunction, hadd,
        described_reindex haddressed, described?_eq haddressed]
    | imported b name => cases hreplaces
  · obtain ⟨haddress, hstart⟩ := h.resolve_right hreplaces
    obtain ⟨node, hnode, hdescribed⟩ := hp.node?_enter hreplaces a
    rw [hnode, hp.node?_eq_none hstart, if_pos haddress, hdescribed hstart haddress]
    rfl

theorem node?_of_not_refreshes (h : ¬ Refreshes p e a) :
    (p.enter e).callGraph.node? a = p.callGraph.node? a := by
  have hreplaces : ¬ e.Replaces p := fun hreplaces => h (.inr hreplaces)
  obtain ⟨node, hnode, _⟩ := hp.node?_enter hreplaces a
  rw [hnode]
  by_cases haddress : e.address = a
  · rw [hp.node?_or (isFunctionStart_of_not_refreshes h haddress)]
  · rw [if_neg haddress, Option.or_none]

theorem enter (e : Entry) : (p.enter e).Tracked where
  addressed := hp.addressed.enter e
  noted := by
    intro a
    by_cases h : Refreshes p e a
    · rw [hp.node?_of_refreshes h, isSome_described?]
    · rw [hp.node?_of_not_refreshes h, hp.noted, isFunctionStart_enter]
      by_cases haddress : e.address = a
      · simp [isFunctionStart_of_not_refreshes h haddress]
      · simp [haddress]

end Tracked

theorem tracked_empty : Tracked {} where
  addressed := by
    intro a f hf
    cases hf
  noted _ := rfl

theorem tracked_ofEntries (entries : List Entry) : (ofEntries entries).Tracked := by
  induction entries using List.reverseRecOn with
  | nil => exact tracked_empty
  | append_singleton entries e ih =>
    rw [ofEntries_concat]
    exact ih.enter e

/-- In the history of `entries`, the node of `a` was last written at the end of `before`. -/
inductive WrittenAt (a : Nat) : List Entry → List Entry → Prop
  | now {entries : List Entry} {e : Entry} (hwritten : Refreshes (ofEntries entries) e a)
      (hstart : (ofEntries (entries ++ [e])).isFunctionStart a = true) :
      WrittenAt a (entries ++ [e]) (entries ++ [e])
  | later {entries before : List Entry} {e : Entry} (hbefore : WrittenAt a entries before)
      (hkept : ¬ Refreshes (ofEntries entries) e a) : WrittenAt a (entries ++ [e]) before

theorem exists_writtenAt (h : (ofEntries entries).isFunctionStart a = true) :
    ∃ before, WrittenAt a entries before := by
  induction entries using List.reverseRecOn with
  | nil => cases h
  | append_singleton entries e ih =>
    by_cases hwritten : Refreshes (ofEntries entries) e a
    · exact ⟨_, .now hwritten h⟩
    · have hstart : (ofEntries entries).isFunctionStart a = true := by
        rw [ofEntries_concat, isFunctionStart_enter, Bool.or_eq_true, decide_eq_true_eq] at h
        exact h.elim id (isFunctionStart_of_not_refreshes hwritten)
      obtain ⟨before, hbefore⟩ := ih hstart
      exact ⟨before, .later hbefore hwritten⟩

namespace WrittenAt

theorem isFunctionStart (h : WrittenAt a entries before) :
    (ofEntries before).isFunctionStart a = true := by
  induction h with
  | now _ hstart => exact hstart
  | later _ _ ih => exact ih

/-- The node says what the program said when it was written. -/
theorem node?_eq (h : WrittenAt a entries before) :
    (ofEntries entries).callGraph.node? a = (ofEntries before).described? a := by
  induction h with
  | now hwritten => rw [ofEntries_concat, (tracked_ofEntries _).node?_of_refreshes hwritten]
  | later _ hkept ih =>
    rw [ofEntries_concat, (tracked_ofEntries _).node?_of_not_refreshes hkept, ih]

theorem lastBody?_eq (h : WrittenAt a entries before) (hnone : lastImport? before a = none) :
    lastBody? entries a = lastBody? before a := by
  induction h with
  | now => rfl
  | @later entries before e hbefore hkept ih =>
    rw [← ih hnone, lastBody?, List.reverse_concat, List.findSome?_cons]
    cases e with
    | imported b name => rfl
    | body f =>
      by_cases haddress : f.address = a
      · -- a second body would have replaced the first
        have hstart := hbefore.isFunctionStart
        rw [Program.isFunctionStart, Table.contains, Table.contains, import?_ofEntries, hnone,
          ← function?, function?_ofEntries, ← ih hnone, ← function?_ofEntries] at hstart
        refine absurd (.inr ?_) hkept
        rw [Entry.Replaces, haddress, Table.contains]
        simpa [function?] using hstart
      · rw [Entry.body?, if_neg haddress]
        rfl

/-- The program still says the same exactly if no other import has been entered since. -/
theorem described?_eq_iff (h : WrittenAt a entries before) :
    (ofEntries before).described? a = (ofEntries entries).described? a ↔
      lastImport? entries a = lastImport? before a := by
  rw [described?_ofEntries, described?_ofEntries]
  cases hbefore : lastImport? before a with
  | none =>
    rw [h.lastBody?_eq hbefore]
    cases lastImport? entries a with
    | none => simp
    | some name => cases lastBody? before a <;> simp [importNode, FunctionBody.node]
  | some name =>
    cases lastImport? entries a with
    | some name' => simp [importNode, eq_comm]
    | none => cases lastBody? entries a <;> simp [importNode, FunctionBody.node]

end WrittenAt

/-- An import is entered for an address without a function, or repeats the import that is there. -/
def Entry.Fits (p : Program) : Entry → Prop
  | body _ => True
  | imported a name => p.isFunctionStart a = true → p.imports.get? a = some name

instance (p : Program) : (e : Entry) → Decidable (e.Fits p)
  | .body _ => .isTrue trivial
  | .imported a name =>
    inferInstanceAs (Decidable (p.isFunctionStart a = true → p.imports.get? a = some name))

/-- Every import fits when it is entered. -/
def Orderly (p : Program) : List Entry → Prop
  | [] => True
  | e :: rest => e.Fits p ∧ Orderly (p.enter e) rest

instance decideOrderly (p : Program) : (entries : List Entry) → Decidable (Orderly p entries)
  | [] => .isTrue trivial
  | e :: rest =>
    have := decideOrderly (p.enter e) rest
    inferInstanceAs (Decidable (e.Fits p ∧ Orderly (p.enter e) rest))

theorem described?_enter (hp : p.Tracked) (hfits : e.Fits p) (h : ¬ Refreshes p e a) :
    (p.enter e).described? a = p.described? a := by
  rw [described?_eq (hp.addressed.enter e), described?_eq hp.addressed]
  have hstart : e.address = a → p.isFunctionStart a = true := isFunctionStart_of_not_refreshes h
  cases e with
  | body f =>
    rw [enter, functions_addFunction, imports_addFunction, Table.get?_insert]
    split
    case isTrue heq =>
      -- without a body there, the function is an import
      subst heq
      have hbody : p.functions.contains f.address = false :=
        Bool.eq_false_iff.2 fun hbody => h (.inr hbody)
      have himport : p.imports.contains f.address = true := by
        simpa [isFunctionStart, hbody] using hstart rfl
      obtain ⟨name, hname⟩ := Table.contains_iff.1 himport
      simp [hname]
    case isFalse => rfl
  | imported b name =>
    rw [enter, addImport, Table.get?_insert]
    split
    case isTrue heq =>
      subst heq
      rw [hfits (hstart rfl)]
    case isFalse => rfl

theorem described_foldl_enter (hp : p.Tracked) (hdescribed : p.Described)
    (horderly : Orderly p entries) : (entries.foldl enter p).Described := by
  induction entries generalizing p with
  | nil => exact hdescribed
  | cons e rest ih =>
    refine ih (hp.enter e) (fun a => ?_) horderly.2
    by_cases h : Refreshes p e a
    · exact hp.node?_of_refreshes h
    · rw [hp.node?_of_not_refreshes h, hdescribed, described?_enter hp horderly.1 h]

theorem described_ofEntries (h : Orderly {} entries) : (ofEntries entries).Described :=
  described_foldl_enter tracked_empty (fun _ => rfl) h

theorem orderly_append {others : List Entry} :
    Orderly p (entries ++ others) ↔ Orderly p entries ∧ Orderly (entries.foldl enter p) others := by
  induction entries generalizing p with
  | nil => simp [Orderly]
  | cons e rest ih => simp [Orderly, ih, and_assoc]

theorem orderly_bodies (p : Program) (bodies : List FunctionBody) :
    Orderly p (bodies.map .body) := by
  induction bodies generalizing p with
  | nil => trivial
  | cons f rest ih => exact ⟨trivial, ih _⟩

theorem orderly_imports {imports : List (Nat × String)} (hkeys : (imports.map (·.1)).Nodup)
    (hfree : ∀ e ∈ imports, p.isFunctionStart e.1 = false) :
    Orderly p (imports.map fun e => .imported e.1 e.2) := by
  induction imports generalizing p with
  | nil => trivial
  | cons e rest ih =>
    rw [List.map_cons, List.nodup_cons] at hkeys
    refine ⟨fun hstart => ?_, ih hkeys.2 fun e' he' => ?_⟩
    · rw [hfree e List.mem_cons_self] at hstart
      cases hstart
    · have hne : e.1 ≠ e'.1 := fun heq => hkeys.1 (heq ▸ List.mem_map_of_mem he')
      rw [isFunctionStart_enter, hfree e' (List.mem_cons_of_mem _ he')]
      simp [Entry.address, hne]

end Program

namespace FunctionBody

/-- The body without the types that were filled in, which no document holds. -/
def bare (f : FunctionBody) : FunctionBody :=
  { f with
    writes := f.writes.map fun w => { w with valueType := .unknown }
    casts := f.casts.map fun k => { k with argType := .unknown } }

theorem toJson_bare (f : FunctionBody) : f.bare.toJson = f.toJson := by
  simp only [toJson, bare, Json.ofList, List.map_map]
  rfl

theorem OfWords.bare {f : FunctionBody} (h : f.OfWords) : f.bare.OfWords :=
  { h with
    writes := by
      intro w hw
      obtain ⟨v, hv, rfl⟩ := List.mem_map.1 hw
      exact ⟨(h.writes v hv).use, (h.writes v hv).value⟩
    casts := by
      intro k hk
      obtain ⟨j, hj, rfl⟩ := List.mem_map.1 hk
      exact ⟨(h.casts j hj).use, (h.casts j hj).argIndex, (h.casts j hj).call⟩ }

theorem untyped_bare (f : FunctionBody) : f.bare.Untyped where
  writes := by
    intro w hw
    obtain ⟨_, _, rfl⟩ := List.mem_map.1 hw
    rfl
  casts := by
    intro k hk
    obtain ⟨_, _, rfl⟩ := List.mem_map.1 hk
    rfl

end FunctionBody

namespace Program

variable {p : Program}

def bare (p : Program) : Program :=
  { p with functions := p.functions.filterMap fun _ f => some f.bare }

theorem entries_bare (p : Program) :
    p.bare.functions.entries = p.functions.entries.map fun e => (e.1, e.2.bare) := by
  simp [bare, Table.filterMap]

theorem toJson_bare (p : Program) : p.bare.toJson = p.toJson := by
  simp only [toJson, Table.values, entries_bare, Json.ofList, List.map_map, Function.comp_def,
    FunctionBody.toJson_bare]
  rfl

theorem OfWords.bare (h : p.OfWords) : p.bare.OfWords where
  bodies := by
    rw [entries_bare]
    intro e he
    obtain ⟨e', he', rfl⟩ := List.mem_map.1 he
    exact (h.bodies e' he').bare
  imports := h.imports

theorem untyped_bare (p : Program) : p.bare.Untyped := by
  intro e he
  rw [entries_bare] at he
  obtain ⟨e', _, rfl⟩ := List.mem_map.1 he
  exact e'.2.untyped_bare

theorem Addressed.bare (h : p.Addressed) : p.bare.Addressed := by
  intro a f hf
  rw [Program.bare, Table.get?_filterMap] at hf
  obtain ⟨g, hg, hf⟩ := Option.bind_eq_some_iff.1 hf
  cases hf
  exact h a g hg

theorem described?_bare (h : p.Addressed) (a : Nat) : p.bare.described? a = p.described? a := by
  rw [described?_eq h.bare, described?_eq h, bare, Table.get?_filterMap]
  cases p.functions.get? a <;> rfl

/-- A program is put together from its parts with all imports first, so that its nodes say what it
says. -/
theorem node?_ofParts (h : p.Addressed) (a : Nat) :
    (ofParts p.functions.values p.imports.entries).callGraph.node? a = p.described? a := by
  have horderly : Orderly {} (p.imports.entries.map fun e => .imported e.1 e.2) :=
    orderly_imports p.imports.keys_nodup fun _ _ => rfl
  have hdescribed : (ofParts p.functions.values p.imports.entries).Described := by
    rw [ofParts_eq_ofEntries]
    exact described_ofEntries (orderly_append.2 ⟨horderly, orderly_bodies _ _⟩)
  have hfunctions : (ofParts p.functions.values p.imports.entries).functions = p.functions := by
    rw [functions_ofParts, h.ofList_values]
  have himports : (ofParts p.functions.values p.imports.entries).imports = p.imports := by
    rw [imports_ofParts]
    exact Table.merge_empty _
  rw [hdescribed, described?, described?, isFunctionStart, isFunctionStart, functionName?,
    functionName?, isImport, isImport, hfunctions, himports]

theorem parse?_render (hwords : p.OfWords) (hnest : p.toJson.nesting ≤ Json.maxNesting) :
    parse? p.render = some (ofParts p.bare.functions.values p.imports.entries) := by
  have hread := readAs hwords.bare p.untyped_bare
  rw [toJson_bare] at hread
  rw [parse?, render, Json.parse?_pretty hread.written hnest, Option.bind_some]
  exact hread.decoded hnest

/-- However a program was put together, its call graph has nodes for the functions and no others. A
node says what the program said when the node was last written, and so what it says now exactly if
the import at the address is still the same. If every import came before anything else at its
address, or repeated the import there, all nodes say what the program says, whatever the order was.
They always do after the index is built anew, and in a program that was written and read back. -/
theorem nodes_written_last (entries : List Entry) :
    (∀ a, ((ofEntries entries).callGraph.node? a).isSome = (ofEntries entries).isFunctionStart a) ∧
    (∀ a, (ofEntries entries).isFunctionStart a = true → ∃ before, WrittenAt a entries before ∧
      (ofEntries entries).callGraph.node? a = (ofEntries before).described? a ∧
      ((ofEntries entries).callGraph.node? a = (ofEntries entries).described? a ↔
        lastImport? entries a = lastImport? before a)) ∧
    (Orderly {} entries → (ofEntries entries).Described ∧ ∀ others, Orderly {} others →
      (∀ a, lastBody? others a = lastBody? entries a ∧
        lastImport? others a = lastImport? entries a) →
      ∀ a, (ofEntries others).callGraph.node? a = (ofEntries entries).callGraph.node? a) ∧
    (∀ a, (ofEntries entries).reindex.callGraph.node? a = (ofEntries entries).described? a) ∧
    ((ofEntries entries).OfWords → (ofEntries entries).toJson.nesting ≤ Json.maxNesting →
      ∃ q, parse? (ofEntries entries).render = some q ∧
        ∀ a, q.callGraph.node? a = (ofEntries entries).described? a) := by
  have htracked := tracked_ofEntries entries
  refine ⟨htracked.noted, fun a hstart => ?_, fun horderly => ⟨described_ofEntries horderly, ?_⟩,
    described_reindex htracked.addressed, fun hwords hnest => ⟨_, parse?_render hwords hnest, ?_⟩⟩
  · obtain ⟨before, hbefore⟩ := exists_writtenAt hstart
    have hnode := hbefore.node?_eq
    exact ⟨before, hbefore, hnode, by rw [hnode, hbefore.described?_eq_iff]⟩
  · intro others hothers hsame a
    rw [described_ofEntries hothers, described_ofEntries horderly, described?_ofEntries,
      described?_ofEntries, (hsame a).1, (hsame a).2]
  · intro a
    exact (node?_ofParts htracked.addressed.bare a).trans (described?_bare htracked.addressed a)

/-- An import that is entered twice, also with a body, and a function that loses its name. -/
def wrapped : List Entry :=
  [.imported 12288 "malloc", .body { address := 4096, name := "f" }, .imported 12288 "malloc",
    .body { address := 12288, name := "stub" },
    .body { address := 4096, calls := [⟨4100, .explicit 12288⟩] }]

theorem nodes_written_last_wrapped :
    Orderly {} wrapped ∧
    (ofEntries wrapped).callGraph.node? 12288 = some (importNode 12288 "malloc") ∧
    (∀ a, (ofEntries [.body { address := 4096, calls := [⟨4100, .explicit 12288⟩] },
        .imported 12288 "malloc", .body { address := 12288, name := "stub" }]).callGraph.node? a =
      (ofEntries wrapped).callGraph.node? a) ∧
    (∃ before, WrittenAt 4096 wrapped before ∧
      (ofEntries before).described? 4096 = some ⟨4096, none, false⟩) ∧
    (ofEntries wrapped).OfWords ∧ (ofEntries wrapped).toJson.nesting ≤ Json.maxNesting ∧
    ∃ q, parse? (ofEntries wrapped).render = some q ∧
      q.callGraph.node? 12288 = some (importNode 12288 "malloc") := by
  obtain ⟨-, hwritten, horderly, -, hread⟩ := nodes_written_last wrapped
  obtain ⟨hdescribed, hothers⟩ := horderly (by decide +kernel)
  obtain ⟨before, hbefore, hnode, -⟩ := hwritten 4096 (by decide +kernel)
  obtain ⟨q, hq, hnodes⟩ := hread (by decide +kernel) (by decide +kernel)
  have hmalloc : (ofEntries wrapped).described? 12288 = some (importNode 12288 "malloc") := by
    decide +kernel
  refine ⟨by decide +kernel, (hdescribed 12288).trans hmalloc,
    hothers _ (by decide +kernel) fun a => ⟨?_, ?_⟩, ⟨before, hbefore, ?_⟩, by decide +kernel,
    by decide +kernel, q, hq, (hnodes 12288).trans hmalloc⟩
  · by_cases h : 4096 = a
    · have hother : 12288 ≠ a := by omega
      simp [lastBody?, wrapped, List.findSome?_cons, Entry.body?, h, hother]
    · simp [lastBody?, wrapped, List.findSome?_cons, Entry.body?, h]
  · by_cases h : 12288 = a <;> simp [lastImport?, wrapped, List.findSome?_cons, Entry.name?, h]
  · rw [← hnode]
    decide +kernel

/-- A function that is made an import afterwards keeps its node until the index is built anew; had
the import come first, the node would be another. -/
theorem late_import_unnoticed :
    (ofEntries [.body { address := 4096, name := "f" }, .imported 4096 "g"]).described? 4096 =
      some (importNode 4096 "g") ∧
    (ofEntries [.body { address := 4096, name := "f" }, .imported 4096 "g"]).callGraph.node? 4096 =
      some ⟨4096, some "f", false⟩ ∧
    (ofEntries [.imported 4096 "g", .body { address := 4096, name := "f" }]).callGraph.node? 4096 =
      some (importNode 4096 "g") ∧
    (ofEntries [.body { address := 4096, name := "f" },
      .imported 4096 "g"]).reindex.callGraph.node? 4096 = some (importNode 4096 "g") := by
  decide +kernel

end Program
end TypeRecovery
