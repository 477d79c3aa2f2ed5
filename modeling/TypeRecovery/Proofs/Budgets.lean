import TypeRecovery.Proofs.Advances

/-!
# What is left to work on

Inference works on variables that the program mentions, on return values, on slots to propagate and
on functions to visit. How many of them are left never grows while a session advances, and marking
one of them leaves one less.
-/
namespace TypeRecovery

/-- The variable whose type a value has, or points to. -/
def Expr.source? (function : Nat) (e : Expr) : Option Variable :=
  match e.stripCasts with
  | .slot index => some (.local function index)
  | .global address => some (.global address)
  | .addressOf inner =>
    match inner.stripCasts with
    | .global address => some (.global address)
    | _ => none
  | _ => none

namespace Program

/-- The slots of a function. -/
def slotsOf (function : Nat) (body : FunctionBody) : List Variable :=
  (List.range body.locals.length).map (Variable.local function)

/-- The slots of a function and the variables that it writes or returns the values of. -/
def mentionedBy (function : Nat) (body : FunctionBody) : List Variable :=
  slotsOf function body ++ body.writes.filterMap (·.value.source? function) ++
    body.returns.map (·.var)

variable (p : Program)

def slots : List Variable := p.functions.entries.flatMap fun e => slotsOf e.1 e.2

def mentioned : List Variable := p.functions.entries.flatMap fun e => mentionedBy e.1 e.2

variable {p}

theorem mem_slots {function slot : Nat} {body : FunctionBody}
    (hbody : p.function? function = some body) (hslot : slot < body.locals.length) :
    Variable.local function slot ∈ p.slots :=
  List.mem_flatMap.2 ⟨(function, body), Table.get?_eq_some_iff.1 hbody,
    List.mem_map.2 ⟨slot, List.mem_range.2 hslot, rfl⟩⟩

theorem mem_mentioned {function : Nat} {body : FunctionBody} {var : Variable}
    (hbody : p.function? function = some body) (hvar : var ∈ mentionedBy function body) :
    var ∈ p.mentioned :=
  List.mem_flatMap.2 ⟨(function, body), Table.get?_eq_some_iff.1 hbody, hvar⟩

theorem mem_mentioned_of_mem_slots {var : Variable} (h : var ∈ p.slots) : var ∈ p.mentioned := by
  obtain ⟨e, he, hvar⟩ := List.mem_flatMap.1 h
  exact List.mem_flatMap.2 ⟨e, he, by simp [mentionedBy, hvar]⟩

/-- One more for a variable that the program does not mention. -/
def surplus (p : Program) (var : Variable) : Nat := if var ∈ p.mentioned then 0 else 1

theorem surplus_of_mem {var : Variable} (h : var ∈ p.mentioned) : p.surplus var = 0 := if_pos h

theorem surplus_of_not_mem {var : Variable} (h : var ∉ p.mentioned) : p.surplus var = 1 :=
  if_neg h

theorem surplus_le (var : Variable) : p.surplus var ≤ 1 := by
  unfold surplus
  split <;> omega

theorem length_slots_le : p.slots.length ≤ p.mentioned.length := by
  unfold slots mentioned
  induction p.functions.entries with
  | nil => simp
  | cons e rest ih =>
    simp only [List.flatMap_cons, List.length_append, mentionedBy] at ih ⊢
    omega

theorem length_mentioned_add_le : p.mentioned.length + p.functions.size ≤ p.weight := by
  unfold mentioned weight Table.sumBy Table.size
  induction p.functions.entries with
  | nil => simp
  | cons e rest ih =>
    have hwrites := List.length_filterMap_le (·.value.source? e.1) e.2.writes
    simp only [List.flatMap_cons, List.length_append, List.foldr_cons, List.length_cons,
      mentionedBy, slotsOf, List.length_map, List.length_range] at ih ⊢
    omega

end Program

namespace Session

variable (c : Context) (s : Session)

/-- Variables and return values of the program without an entry. -/
def unmarked : Nat :=
  s.vars.missing c.program.mentioned + s.returns.missing c.program.functionAddresses

def unpropagated : Nat := s.propagated.missing c.program.slots

def unvisited : Nat := s.analyzed.missing c.program.functionAddresses

variable {c s} {p v : Prop} {t : Session}

theorem unmarked_le_weight : s.unmarked c ≤ c.program.weight := by
  have hvars := s.vars.missing_le_length c.program.mentioned
  have hreturns := s.returns.missing_le_length c.program.functionAddresses
  have hweight := c.program.length_mentioned_add_le
  rw [Table.size_eq_length_keys] at hweight
  unfold unmarked Program.functionAddresses at *
  omega

theorem unvisited_add_unpropagated_le_weight :
    s.unvisited c + s.unpropagated c ≤ c.program.weight := by
  have hanalyzed := s.analyzed.missing_le_length c.program.functionAddresses
  have hpropagated := s.propagated.missing_le_length c.program.slots
  have hslots := c.program.length_slots_le
  have hweight := c.program.length_mentioned_add_le
  rw [Table.size_eq_length_keys] at hweight
  unfold unvisited unpropagated Program.functionAddresses at *
  omega

namespace Advance

theorem unmarked_le (h : Advance c p v s t) : t.unmarked c ≤ s.unmarked c :=
  Nat.add_le_add (Table.missing_le_of_contains _ fun _ => h.contains)
    (Table.missing_le_of_contains _ fun _ => h.returns_contains)

theorem unmarked_lt (h : Advance c p v s t) {n : Nat} (hs : s.unmarked c < n) :
    t.unmarked c < n :=
  Nat.lt_of_le_of_lt h.unmarked_le hs

theorem unpropagated_le (h : Advance c p v s t) : t.unpropagated c ≤ s.unpropagated c :=
  Table.missing_le_of_contains _ fun _ => h.propagated

theorem unvisited_le (h : Advance c p v s t) : t.unvisited c ≤ s.unvisited c :=
  Table.missing_le_of_contains _ fun _ => h.analyzed

end Advance

theorem unmarked_insert_le (var : Variable) (r : Resolution) :
    unmarked c { s with vars := s.vars.insert var r } ≤ s.unmarked c := by
  refine Nat.add_le_add_right (Table.missing_le_of_contains _ fun other hother => ?_) _
  exact Table.contains_insert_of_contains hother var r

theorem unmarked_insert_lt {n : Nat} {var : Variable} (hnone : s.vars.get? var = none)
    (hs : s.unmarked c + c.program.surplus var < n + 1) (r : Resolution) :
    unmarked c { s with vars := s.vars.insert var r } < n := by
  by_cases hvar : var ∈ c.program.mentioned
  · have hlt : (s.vars.insert var r).missing c.program.mentioned <
        s.vars.missing c.program.mentioned := by
      refine Table.missing_lt_of_contains (fun other hother => ?_) hvar
        (Table.contains_eq_false_iff.2 hnone) (Table.contains_insert_self _ var r)
      exact Table.contains_insert_of_contains hother var r
    rw [Program.surplus_of_mem hvar] at hs
    simp only [unmarked] at hs ⊢
    omega
  · have hle := unmarked_insert_le (c := c) (s := s) var r
    rw [Program.surplus_of_not_mem hvar] at hs
    omega

theorem unmarked_insertReturn_lt {n : Nat} {function : Nat}
    (hnone : s.returns.get? function = none) (hbody : c.program.hasBody function)
    (hs : s.unmarked c < n + 1) (r : Resolution) :
    unmarked c { s with returns := s.returns.insert function r } < n := by
  have hlt : (s.returns.insert function r).missing c.program.functionAddresses <
      s.returns.missing c.program.functionAddresses := by
    refine Table.missing_lt_of_contains (fun other hother => ?_) (Table.mem_keys_iff.2 hbody)
      (Table.contains_eq_false_iff.2 hnone) (Table.contains_insert_self _ function r)
    exact Table.contains_insert_of_contains hother function r
  simp only [unmarked] at hs ⊢
  omega

end Session

end TypeRecovery
