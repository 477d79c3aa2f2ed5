import Mathlib.Data.List.Induction
import TypeRecovery.Inference.Engine
import TypeRecovery.Proofs.Tables

/-!
# The index of a program

A program is made by entering bodies and imports one after another, in any order and with bodies
replaced at will. Its index lists the calls and the references to globals of the bodies that stand
in it, no more and no fewer: a new body adds its own to the index, and where a body is replaced the
index is built anew.
-/
namespace TypeRecovery

/-- The expression mentions the global at `a`. -/
inductive Expr.Mentions (a : Nat) : Expr → Prop where
  | global : Mentions a (.global a)
  | addressOf {inner : Expr} (h : Mentions a inner) : Mentions a (.addressOf inner)
  | cast {inner : Expr} (type : Ty) (h : Mentions a inner) : Mentions a (.cast inner type)
  /-- The callee of a direct call is code. -/
  | callee {callee : Expr} (args : List Expr) (hcode : callee.isGlobal = false)
      (h : Mentions a callee) : Mentions a (.call callee args)
  | arg (callee : Expr) {args : List Expr} {e : Expr} (he : e ∈ args) (h : Mentions a e) :
      Mentions a (.call callee args)

namespace Expr

theorem mem_globalsAll {a : Nat} {args : List Expr} :
    a ∈ globalsAll args ↔ ∃ e ∈ args, a ∈ e.globals := by
  induction args with
  | nil => simp [globalsAll]
  | cons e rest ih => simp [globalsAll, ih]

theorem mem_globals_of_mentions {a : Nat} {e : Expr} (h : e.Mentions a) : a ∈ e.globals := by
  induction h with
  | global => simp [globals]
  | addressOf _ ih => simpa [globals] using ih
  | cast _ _ ih => simpa [globals] using ih
  | callee args hcode _ ih => simp [globals, hcode, ih]
  | arg callee he _ ih =>
    rw [globals, List.mem_append, mem_globalsAll]
    exact .inr ⟨_, he, ih⟩

mutual

theorem mentions_of_mem_globals {a : Nat} : (e : Expr) → a ∈ e.globals → e.Mentions a
  | global address, h => by
    rw [globals, List.mem_singleton] at h
    exact h ▸ .global
  | addressOf inner, h => .addressOf (mentions_of_mem_globals inner (by simpa [globals] using h))
  | cast inner type, h => .cast type (mentions_of_mem_globals inner (by simpa [globals] using h))
  | call callee args, h => by
    rw [globals, List.mem_append] at h
    rcases h with h | h
    · cases hcode : callee.isGlobal with
      | true => simp [hcode] at h
      | false =>
        rw [hcode, if_neg Bool.false_ne_true] at h
        exact .callee args hcode (mentions_of_mem_globals callee h)
    · obtain ⟨e, he, hmentions⟩ := exists_mentions_of_mem_globalsAll args h
      exact .arg callee he hmentions
  | slot _, h => by simp [globals] at h
  | num _ _, h => by simp [globals] at h
  | helper _, h => by simp [globals] at h
  | other _, h => by simp [globals] at h

theorem exists_mentions_of_mem_globalsAll {a : Nat} :
    (args : List Expr) → a ∈ globalsAll args → ∃ e ∈ args, e.Mentions a
  | [], h => by simp [globalsAll] at h
  | e :: rest, h => by
    rw [globalsAll, List.mem_append] at h
    rcases h with h | h
    · exact ⟨e, by simp, mentions_of_mem_globals e h⟩
    · obtain ⟨e', he', hmentions⟩ := exists_mentions_of_mem_globalsAll rest h
      exact ⟨e', by simp [he'], hmentions⟩

end

theorem mem_globals_iff {a : Nat} {e : Expr} : a ∈ e.globals ↔ e.Mentions a :=
  ⟨mentions_of_mem_globals e, mem_globals_of_mentions⟩

end Expr

namespace FunctionBody

/-- The body calls the function at `a` directly. -/
def Calls (f : FunctionBody) (a : Nat) : Prop := ∃ call ∈ f.calls, call.target = .explicit a

/-- The body reads the variable, writes it, passes it on or returns it. -/
def Touches (f : FunctionBody) (var : Variable) : Prop :=
  (∃ r ∈ f.reads, r.var = var) ∨ (∃ w ∈ f.writes, w.var = var) ∨ (∃ k ∈ f.casts, k.var = var) ∨
    ∃ r ∈ f.returns, r.var = var

/-- The body touches the global at `a` or writes a value that mentions it. -/
def RefersTo (f : FunctionBody) (a : Nat) : Prop :=
  f.Touches (.global a) ∨ ∃ w ∈ f.writes, w.value.Mentions a

theorem contains_referencedGlobals {f : FunctionBody} {a : Nat} :
    f.referencedGlobals.contains a = true ↔ f.RefersTo a := by
  have haddress : ∀ var : Variable, var.address? = some a ↔ var = .global a := by
    intro var
    cases var <;> simp [Variable.address?]
  have htouches : a ∈ (f.reads.map (·.var) ++ f.writes.map (·.var) ++ f.casts.map (·.var) ++
      f.returns.map (·.var)).filterMap Variable.address? ↔ f.Touches (.global a) := by
    simp [haddress, Touches]
  simp only [referencedGlobals, KeySet.ofKeys, KeySet.contains_addAll, htouches, RefersTo,
    Bool.or_eq_true, decide_eq_true_eq, Table.contains_empty, List.mem_flatMap,
    Expr.mem_globals_iff, Bool.false_eq_true, or_false]
  exact or_comm

theorem exists_explicitTarget?_iff {f : FunctionBody} {a : Nat} :
    (∃ call ∈ f.calls, call.explicitTarget? = some a) ↔ f.Calls a := by
  have htarget : ∀ call : Call, call.explicitTarget? = some a ↔ call.target = .explicit a := by
    intro call
    unfold Call.explicitTarget?
    cases call.target <;> simp
  simp [Calls, htarget]

end FunctionBody

namespace Table

variable {κ α : Type} [Key κ]

theorem mem_values {t : Table κ α} {v : α} : v ∈ t.values ↔ ∃ k, t.get? k = some v := by
  simp only [get?_eq_some_iff]
  simp [values]

theorem mem_values_insert [DecidableEq κ] {t : Table κ α} {k : κ} (h : t.get? k = none) {v w : α} :
    w ∈ (t.insert k v).values ↔ w = v ∨ w ∈ t.values := by
  simp only [mem_values, get?_insert]
  constructor
  · rintro ⟨k', hk'⟩
    split at hk'
    case isTrue => exact .inl (Option.some.inj hk').symm
    case isFalse => exact .inr ⟨k', hk'⟩
  · rintro (rfl | ⟨k', hk'⟩)
    · exact ⟨k, if_pos rfl⟩
    · have hne : k' ≠ k := by
        rintro rfl
        simp [h] at hk'
      exact ⟨k', (if_neg hne).trans hk'⟩

end Table

namespace KeySet

theorem mem_toList {κ : Type} [Key κ] {s : KeySet κ} {k : κ} :
    k ∈ s.toList ↔ Table.contains s k = true := Table.mem_keys_iff

theorem toList_sorted (s : KeySet Nat) : s.toList.Pairwise (· < ·) :=
  s.keys_sorted.imp Key.lt_nat.1

theorem toList_eq_of_mem {κ : Type} [Key κ] {s t : KeySet κ}
    (h : ∀ k, k ∈ s.toList ↔ k ∈ t.toList) : s.toList = t.toList := by
  refine Table.keys_eq_of_contains fun k => ?_
  rw [Bool.eq_iff_iff, ← mem_toList, ← mem_toList, h]

theorem mem_toList_ofKeys {κ : Type} [Key κ] [DecidableEq κ] {ks : List κ} {k : κ} :
    k ∈ (ofKeys ks).toList ↔ k ∈ ks := by
  simp [mem_toList, ofKeys, contains_addAll]

end KeySet

namespace CallGraph

/-- The addresses that an address is linked with. -/
def linked (t : Table Nat (KeySet CallLink)) (a : Nat) : List Nat :=
  (KeySet.ofKeys (((t.get? a).getD .empty).toList.map (·.address))).toList

theorem mem_linked {t : Table Nat (KeySet CallLink)} {a x : Nat} :
    x ∈ linked t a ↔ ∃ l, ((t.get? a).getD .empty).contains l = true ∧ l.address = x := by
  rw [linked, KeySet.mem_toList_ofKeys, List.mem_map]
  simp only [KeySet.mem_toList]

theorem notMem_linked_empty {a x : Nat} : x ∉ linked .empty a := by
  simp [mem_linked]

theorem mem_linked_link {t : Table Nat (KeySet CallLink)} {a b x : Nat} {l : CallLink} :
    x ∈ linked (link t a l) b ↔ b = a ∧ x = l.address ∨ x ∈ linked t b := by
  rw [mem_linked, mem_linked, link, Table.get?_insert]
  split
  case isTrue h =>
    simp only [h, Option.getD_some, KeySet.contains_add, Bool.or_eq_true, decide_eq_true_eq,
      or_and_right, exists_or, exists_eq_left, true_and]
    rw [eq_comm]
  case isFalse h => simp [h]

theorem mem_calleeAddresses_addCall {g : CallGraph} {caller callee : Nat} {site : CallSite}
    {f a : Nat} : a ∈ (g.addCall caller callee site).calleeAddresses f ↔
      f = caller ∧ a = callee ∨ a ∈ g.calleeAddresses f := mem_linked_link

theorem mem_callerAddresses_addCall {g : CallGraph} {caller callee : Nat} {site : CallSite}
    {f a : Nat} : f ∈ (g.addCall caller callee site).callerAddresses a ↔
      a = callee ∧ f = caller ∨ f ∈ g.callerAddresses a := mem_linked_link

theorem calleeAddresses_addNode (g : CallGraph) (a f : Nat) (name : Option String) (ext : Bool) :
    (g.addNode a name ext).calleeAddresses f = g.calleeAddresses f := by
  unfold addNode
  split <;> rfl

theorem callerAddresses_addNode (g : CallGraph) (a f : Nat) (name : Option String) (ext : Bool) :
    (g.addNode a name ext).callerAddresses f = g.callerAddresses f := by
  unfold addNode
  split <;> rfl

end CallGraph

namespace Program

/-- The direct calls among `calls` as calls of `caller`. -/
def enterCalls (g : CallGraph) (caller : Nat) (calls : List Call) : CallGraph :=
  calls.foldl
    (fun g call => match call.explicitTarget? with
      | some target => g.addCall caller target ⟨call.address, .direct⟩
      | none => g) g

/-- The function as one that refers to each of the addresses. -/
def enterRefs (refs : Table Nat (KeySet Nat)) (f : Nat) (addresses : List Nat) :
    Table Nat (KeySet Nat) :=
  addresses.foldl (fun refs a => refs.insert a (((refs.get? a).getD .empty).add f)) refs

theorem mem_enterCalls {g : CallGraph} {caller f a : Nat} {calls : List Call} :
    (a ∈ (enterCalls g caller calls).calleeAddresses f ↔
      f = caller ∧ (∃ call ∈ calls, call.explicitTarget? = some a) ∨ a ∈ g.calleeAddresses f) ∧
    (f ∈ (enterCalls g caller calls).callerAddresses a ↔
      f = caller ∧ (∃ call ∈ calls, call.explicitTarget? = some a) ∨ f ∈ g.callerAddresses a) := by
  induction calls generalizing g with
  | nil => simp [enterCalls]
  | cons call rest ih =>
    rw [enterCalls, List.foldl_cons]
    refine ⟨ih.1.trans ?_, ih.2.trans ?_⟩ <;> cases htarget : call.explicitTarget? with
    | none => simp [htarget]
    | some target =>
      simp only [CallGraph.mem_calleeAddresses_addCall, CallGraph.mem_callerAddresses_addCall,
        List.exists_mem_cons_iff, htarget, Option.some.injEq]
      grind

theorem mem_enterRefs {refs : Table Nat (KeySet Nat)} {f g a : Nat} {addresses : List Nat} :
    g ∈ (((enterRefs refs f addresses).get? a).getD .empty).toList ↔
      g = f ∧ a ∈ addresses ∨ g ∈ ((refs.get? a).getD .empty).toList := by
  induction addresses generalizing refs with
  | nil => simp [enterRefs]
  | cons b rest ih =>
    rw [enterRefs, List.foldl_cons]
    refine ih.trans ?_
    rw [Table.get?_insert, List.mem_cons]
    split
    case isTrue heq =>
      simp only [heq, Option.getD_some, KeySet.mem_toList, KeySet.contains_add, Bool.or_eq_true,
        decide_eq_true_eq]
      grind
    case isFalse hne => simp [hne]

/-- The index lists the calls and references of the bodies, no more and no fewer. -/
structure Indexes (p : Program) (bodies : List FunctionBody) : Prop where
  callees : ∀ f a, a ∈ p.callGraph.calleeAddresses f ↔
    ∃ body ∈ bodies, body.address = f ∧ body.Calls a
  callers : ∀ f a, f ∈ p.callGraph.callerAddresses a ↔
    ∃ body ∈ bodies, body.address = f ∧ body.Calls a
  referrers : ∀ f a, f ∈ ((p.globalRefs.get? a).getD .empty).toList ↔
    ∃ body ∈ bodies, body.address = f ∧ body.RefersTo a

namespace Indexes

variable {p : Program} {bodies : List FunctionBody}

theorem congr (h : p.Indexes bodies) {others : List FunctionBody}
    (hmem : ∀ body, body ∈ others ↔ body ∈ bodies) : p.Indexes others where
  callees f a := by simp only [h.callees, hmem]
  callers f a := by simp only [h.callers, hmem]
  referrers f a := by simp only [h.referrers, hmem]

theorem nothing {p : Program} (hgraph : p.callGraph = {}) (hrefs : p.globalRefs = .empty) :
    p.Indexes [] where
  callees f a := by
    rw [hgraph]
    exact iff_of_false CallGraph.notMem_linked_empty (by simp)
  callers f a := by
    rw [hgraph]
    exact iff_of_false CallGraph.notMem_linked_empty (by simp)
  referrers f a := by simp [hrefs, KeySet.mem_toList]

theorem addNodes (h : p.Indexes bodies) (es : List (Nat × String)) :
    Program.Indexes { p with
      callGraph := es.foldl (fun g e => g.addNode e.1 (some e.2) true) p.callGraph } bodies := by
  induction es generalizing p with
  | nil => exact h
  | cons e rest ih =>
    have hnode : Program.Indexes { p with
        callGraph := p.callGraph.addNode e.1 (some e.2) true } bodies :=
      { callees := fun f a => by rw [CallGraph.calleeAddresses_addNode, h.callees]
        callers := fun f a => by rw [CallGraph.callerAddresses_addNode, h.callers]
        referrers := h.referrers }
    exact ih hnode

theorem index (h : p.Indexes bodies) (body : FunctionBody) :
    (p.index body).Indexes (body :: bodies) where
  callees f a := by
    refine mem_enterCalls.1.trans ?_
    rw [CallGraph.calleeAddresses_addNode, h.callees, body.exists_explicitTarget?_iff,
      List.exists_mem_cons_iff, eq_comm]
  callers f a := by
    refine mem_enterCalls.2.trans ?_
    rw [CallGraph.callerAddresses_addNode, h.callers, body.exists_explicitTarget?_iff,
      List.exists_mem_cons_iff, eq_comm]
  referrers f a := by
    refine mem_enterRefs.trans ?_
    rw [h.referrers, KeySet.mem_toList, FunctionBody.contains_referencedGlobals,
      List.exists_mem_cons_iff, eq_comm]

theorem foldl_index (h : p.Indexes bodies) (more : List FunctionBody) :
    (more.foldl Program.index p).Indexes (more.reverse ++ bodies) := by
  induction more generalizing p bodies with
  | nil => simpa using h
  | cons body rest ih => simpa using ih (h.index body)

theorem mem_callsTo (h : p.Indexes bodies) {f a : Nat} : f ∈ p.callsTo a ↔
    ∃ body ∈ bodies, body.address = f ∧ (body.Calls a ∨ body.RefersTo a) := by
  rw [callsTo, KeySet.mem_toList, KeySet.contains_addAll, Bool.or_eq_true, decide_eq_true_eq,
    ← KeySet.mem_toList, KeySet.mem_toList_ofKeys, h.callers, h.referrers]
  simp only [and_or_left, exists_or, or_comm]

end Indexes

theorem functions_foldl_index (p : Program) (bodies : List FunctionBody) :
    (bodies.foldl index p).functions = p.functions := by
  induction bodies generalizing p with
  | nil => rfl
  | cons body rest ih => exact (ih (p.index body)).trans rfl

theorem imports_foldl_index (p : Program) (bodies : List FunctionBody) :
    (bodies.foldl index p).imports = p.imports := by
  induction bodies generalizing p with
  | nil => rfl
  | cons body rest ih => exact (ih (p.index body)).trans rfl

theorem functions_addFunction (p : Program) (f : FunctionBody) :
    (p.addFunction f).functions = p.functions.insert f.address f := by
  unfold addFunction
  split
  · exact functions_foldl_index _ _
  · rfl

theorem imports_addFunction (p : Program) (f : FunctionBody) :
    (p.addFunction f).imports = p.imports := by
  unfold addFunction
  split
  · exact imports_foldl_index _ _
  · rfl

theorem indexes_reindex (p : Program) : p.reindex.Indexes p.functions.values := by
  have hnone : Program.Indexes { p with callGraph := {}, globalRefs := .empty } [] :=
    .nothing rfl rfl
  exact ((hnone.addNodes p.imports.entries).foldl_index p.functions.values).congr (by simp)

/-- A new body adds its own calls and references; a body that takes the place of another makes
the index be built anew. -/
theorem Indexes.addFunction {p : Program} (h : p.Indexes p.functions.values) (f : FunctionBody) :
    (p.addFunction f).Indexes (p.addFunction f).functions.values := by
  rw [functions_addFunction]
  unfold Program.addFunction
  split
  case isTrue => exact indexes_reindex _
  case isFalse hnew =>
    have hindex : ({ p.index f with functions := (p.index f).functions.insert f.address f } :
        Program).Indexes (f :: p.functions.values) :=
      ⟨(h.index f).callees, (h.index f).callers, (h.index f).referrers⟩
    refine hindex.congr fun body => ?_
    rw [Bool.not_eq_true, Table.contains_eq_false_iff] at hnew
    rw [Table.mem_values_insert hnew, List.mem_cons]

theorem Indexes.addImport {p : Program} (h : p.Indexes p.functions.values) (a : Nat)
    (name : String) : (p.addImport a name).Indexes (p.addImport a name).functions.values :=
  have hnode := h.addNodes [(a, name)]
  ⟨hnode.callees, hnode.callers, hnode.referrers⟩

/-- A body or an import that is entered into a program. -/
inductive Entry where
  | body (f : FunctionBody)
  | imported (address : Nat) (name : String)

def enter (p : Program) : Entry → Program
  | .body f => p.addFunction f
  | .imported address name => p.addImport address name

/-- The program that bodies and imports make up, entered in order. -/
def ofEntries (entries : List Entry) : Program := entries.foldl enter {}

def Entry.body? (a : Nat) : Entry → Option FunctionBody
  | body f => if f.address = a then some f else none
  | imported _ _ => none

def Entry.name? (a : Nat) : Entry → Option String
  | body _ => none
  | imported address name => if address = a then some name else none

/-- The body entered last for an address. -/
def lastBody? (entries : List Entry) (a : Nat) : Option FunctionBody :=
  entries.reverse.findSome? (Entry.body? a)

/-- The import entered last for an address. -/
def lastImport? (entries : List Entry) (a : Nat) : Option String :=
  entries.reverse.findSome? (Entry.name? a)

/-- The name of the import at an address, or else of a body there that has a name. -/
def lastName? (entries : List Entry) (a : Nat) : Option String :=
  (lastImport? entries a).or (((lastBody? entries a).map (·.name)).filter (!·.isEmpty))

theorem ofEntries_concat (entries : List Entry) (e : Entry) :
    ofEntries (entries ++ [e]) = (ofEntries entries).enter e := by
  simp [ofEntries]

theorem function?_ofEntries (entries : List Entry) (a : Nat) :
    (ofEntries entries).function? a = lastBody? entries a := by
  induction entries using List.reverseRecOn with
  | nil => rfl
  | append_singleton entries e ih =>
    rw [ofEntries_concat, lastBody?, List.reverse_concat, List.findSome?_cons]
    cases e with
    | body f =>
      rw [enter, function?, functions_addFunction, Table.get?_insert]
      by_cases h : f.address = a
      · simp [Entry.body?, h]
      · rw [if_neg (Ne.symm h), Entry.body?, if_neg h]
        exact ih
    | imported address name => exact ih

theorem import?_ofEntries (entries : List Entry) (a : Nat) :
    (ofEntries entries).imports.get? a = lastImport? entries a := by
  induction entries using List.reverseRecOn with
  | nil => rfl
  | append_singleton entries e ih =>
    rw [ofEntries_concat, lastImport?, List.reverse_concat, List.findSome?_cons]
    cases e with
    | body f =>
      rw [enter, imports_addFunction]
      exact ih
    | imported address name =>
      rw [enter, addImport, Table.get?_insert]
      by_cases h : address = a
      · simp [Entry.name?, h]
      · rw [if_neg (Ne.symm h), Entry.name?, if_neg h]
        exact ih

theorem functionName?_ofEntries (entries : List Entry) (a : Nat) :
    (ofEntries entries).functionName? a = lastName? entries a := by
  have hbody := function?_ofEntries entries a
  rw [function?] at hbody
  rw [functionName?, import?_ofEntries, hbody, lastName?]
  cases lastImport? entries a <;> rfl

theorem address_of_lastBody? {entries : List Entry} {a : Nat} {body : FunctionBody}
    (h : lastBody? entries a = some body) : body.address = a := by
  obtain ⟨e, _, he⟩ := List.exists_of_findSome?_eq_some h
  cases e with
  | body f =>
    rw [Entry.body?] at he
    split at he
    case isTrue haddress => exact Option.some.inj he ▸ haddress
    case isFalse => cases he
  | imported => cases he

theorem indexes_ofEntries (entries : List Entry) :
    (ofEntries entries).Indexes (ofEntries entries).functions.values := by
  induction entries using List.reverseRecOn with
  | nil => exact .nothing rfl rfl
  | append_singleton entries e ih =>
    rw [ofEntries_concat]
    cases e with
    | body f => exact ih.addFunction f
    | imported address name => exact ih.addImport address name

theorem exists_mem_values_ofEntries {entries : List Entry} {a : Nat} {P : FunctionBody → Prop} :
    (∃ body ∈ (ofEntries entries).functions.values, body.address = a ∧ P body) ↔
      ∃ body, lastBody? entries a = some body ∧ P body := by
  have hmem : ∀ body, body ∈ (ofEntries entries).functions.values ↔
      lastBody? entries body.address = some body := by
    intro body
    rw [Table.mem_values]
    constructor
    · rintro ⟨k, hk⟩
      have hbody := (function?_ofEntries entries k).symm.trans hk
      rwa [address_of_lastBody? hbody]
    · intro h
      exact ⟨body.address, (function?_ofEntries entries _).trans h⟩
  constructor
  · rintro ⟨body, hbody, rfl, hP⟩
    exact ⟨body, (hmem body).1 hbody, hP⟩
  · rintro ⟨body, hbody, hP⟩
    have haddress := address_of_lastBody? hbody
    exact ⟨body, (hmem body).2 (haddress.symm ▸ hbody), haddress, hP⟩

theorem mem_callsFrom_ofEntries {entries : List Entry} {f a : Nat} :
    a ∈ (ofEntries entries).callsFrom f ↔
      (∃ body, lastBody? entries f = some body ∧ body.Calls a) ∧
        ∀ name, lastName? entries a = some name → isHelperIntrinsic name = false := by
  rw [callsFrom, List.mem_filter, (indexes_ofEntries entries).callees, exists_mem_values_ofEntries]
  refine and_congr_right fun _ => ?_
  rw [isHelper, functionName?_ofEntries]
  cases lastName? entries a <;> simp

theorem mem_callsTo_ofEntries {entries : List Entry} {f a : Nat} :
    f ∈ (ofEntries entries).callsTo a ↔
      ∃ body, lastBody? entries f = some body ∧ (body.Calls a ∨ body.RefersTo a) :=
  (indexes_ofEntries entries).mem_callsTo.trans exists_mem_values_ofEntries

theorem mem_users_ofEntries {entries : List Entry} {a : Nat} {body : FunctionBody} :
    body ∈ ((ofEntries entries).usersOf (.global a)).filterMap (ofEntries entries).function? ↔
      ∃ f, lastBody? entries f = some body ∧ (body.Calls a ∨ body.RefersTo a) := by
  simp only [usersOf, List.mem_filterMap, mem_callsTo_ofEntries, function?_ofEntries]
  constructor
  · rintro ⟨f, ⟨body', hbody', hrefers⟩, hbody⟩
    cases hbody'.symm.trans hbody
    exact ⟨f, hbody, hrefers⟩
  · rintro ⟨f, hbody, hrefers⟩
    exact ⟨f, ⟨body, hbody, hrefers⟩, hbody⟩

/-- However a program was put together, its index is exact. It lists, in increasing order, the calls
and references of the bodies entered last; each function that touches a global is listed, and what
is gathered about a global comes from the bodies entered last. -/
theorem program_index_exact (entries : List Entry) :
    (∀ f, ((ofEntries entries).callsFrom f).Pairwise (· < ·) ∧
      ∀ a, a ∈ (ofEntries entries).callsFrom f ↔
        (∃ body, lastBody? entries f = some body ∧ body.Calls a) ∧
          ∀ name, lastName? entries a = some name → isHelperIntrinsic name = false) ∧
    (∀ a, ((ofEntries entries).callsTo a).Pairwise (· < ·) ∧
      ∀ f, f ∈ (ofEntries entries).callsTo a ↔
        ∃ body, lastBody? entries f = some body ∧ (body.Calls a ∨ body.RefersTo a)) ∧
    (∀ (body : FunctionBody) a, body.referencedGlobals.contains a = true ↔ body.RefersTo a) ∧
    (∀ a f body, lastBody? entries f = some body → body.Touches (.global a) →
      f ∈ (ofEntries entries).callsTo a) ∧
    ∀ a body,
      body ∈ ((ofEntries entries).usersOf (.global a)).filterMap (ofEntries entries).function? ↔
        ∃ f, lastBody? entries f = some body ∧ (body.Calls a ∨ body.RefersTo a) := by
  refine ⟨fun f => ⟨?_, fun a => mem_callsFrom_ofEntries⟩,
    fun a => ⟨KeySet.toList_sorted _, fun f => mem_callsTo_ofEntries⟩,
    fun body a => FunctionBody.contains_referencedGlobals, ?_,
    fun a body => mem_users_ofEntries⟩
  · exact (KeySet.toList_sorted _).filter _
  · intro a f body hbody htouches
    exact mem_callsTo_ofEntries.2 ⟨body, hbody, .inr (.inl htouches)⟩

/-- A function whose body is replaced, and an import that names what was called before. -/
def revised : List Entry :=
  [.body { address := 4096, calls := [⟨4100, .explicit 8192⟩, ⟨4104, .explicit 12288⟩],
           reads := [⟨.global 24576, [.deref]⟩] },
   .body { address := 8192, returns := [⟨.global 24576, []⟩] },
   .imported 12288 "_LOWORD",
   .body { address := 4096, calls := [⟨4104, .explicit 12288⟩, ⟨4108, .explicit 16384⟩] }]

theorem revised_index_exact : 16384 ∈ (ofEntries revised).callsFrom 4096 ∧
    12288 ∉ (ofEntries revised).callsFrom 4096 ∧ 8192 ∈ (ofEntries revised).callsTo 24576 ∧
    4096 ∉ (ofEntries revised).callsTo 24576 := by
  obtain ⟨hfrom, hto, _, htouches, _⟩ := program_index_exact revised
  refine ⟨((hfrom _).2 _).2 ⟨⟨_, rfl, ⟨4108, _⟩, by simp, rfl⟩, nofun⟩, ?_,
    htouches _ _ _ rfl (by simp [FunctionBody.Touches]), ?_⟩
  · intro hmem
    exact absurd (((hfrom _).2 _).1 hmem |>.2 "_LOWORD" rfl) (by decide +kernel)
  · intro hmem
    obtain ⟨body, hbody, hrefers⟩ := ((hto _).2 _).1 hmem
    cases hbody
    simp [FunctionBody.Calls, FunctionBody.RefersTo, FunctionBody.Touches] at hrefers

end Program
end TypeRecovery
