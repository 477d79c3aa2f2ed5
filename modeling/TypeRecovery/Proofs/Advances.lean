import TypeRecovery.Proofs.Descents
import TypeRecovery.Inference.Engine

/-!
# How a session advances

Whatever inference does between two points at which it is equally deep nested, it only adds to a
session: types found stay, nothing is left in progress, a function counts as analysed only once its
slots, its return value and its callees are taken care of, and a variable as propagated only once
the parameters it is passed as are. `Session.Advance` says so. The one exception is a slot of
unknown type, which may adopt the type of a variable passed as it.
-/
namespace TypeRecovery

/-- A call may reach the function that it names, or, if it is indirect, any function. Helpers are
never reached. -/
def Context.mayCall (c : Context) (call : Call) (function : Nat) : Bool :=
  match call.target with
  | .explicit target => decide (target = function) && !c.program.isHelper function
  | .helper _ => false
  | .implicit _ => c.settings.isEnabled .implicitCalls && c.program.isFunctionStart function

/-- A variable is passed as a slot, as a whole and by a call that may reach the function. -/
def Context.Passes (c : Context) (source : Variable) : Variable → Prop
  | .global _ => False
  | .local function slot =>
    ∃ k ∈ Inference.wholeCasts c source, k.argIndex = slot ∧ c.mayCall k.call function = true

/-- A slot that is never assigned takes over the types of the variables passed as it. -/
def Context.Adopts (c : Context) (source : Variable) : Variable → Prop
  | .global _ => False
  | .local function slot =>
    c.settings.isEnabled .crossCallPropagation = true ∧
    c.Passes source (.local function slot) ∧
    c.program.isImport function = false ∧
    ∃ body, c.program.function? function = some body ∧ slot < body.locals.length ∧
      (body.usesOf (.local function slot)).assigns = []

/-- The slot of a local variable, if its function has it. -/
def Context.slot? (c : Context) : Variable → Option LocalSlot
  | .global _ => none
  | .local function slot => (c.program.function? function).bind (·.locals[slot]?)

/-- Every argument that a function may be passed meets a parameter of it, or no slot at all. -/
def Context.Fits (c : Context) (function : Nat) : Prop :=
  ∀ e ∈ c.program.functions.entries, ∀ k ∈ e.2.casts, c.mayCall k.call function = true →
    (c.slot? (.local function k.argIndex)).all (·.isArg) = true

instance (c : Context) (function : Nat) : Decidable (c.Fits function) :=
  inferInstanceAs (Decidable (∀ _ ∈ _, _))

/-- A call names the function that it reaches, and the slot that an argument meets there takes over
types. -/
structure Context.Receives (c : Context) (k : Cast) (function : Nat) : Prop where
  target : k.call.target = .explicit function
  notHelper : c.program.isHelper function = false
  notImport : c.program.isImport function = false
  slot : ∃ body, c.program.function? function = some body ∧ k.argIndex < body.locals.length ∧
    (body.usesOf (.local function k.argIndex)).assigns = []

theorem Context.Adopts.slot {c : Context} {source var : Variable} (h : c.Adopts source var) :
    ∃ function slot l, var = .local function slot ∧ c.program.isImport function = false ∧
      c.Passes source var ∧ c.slot? var = some l := by
  cases var with
  | global address => exact h.elim
  | «local» function slot =>
    obtain ⟨_, hpasses, himport, body, hbody, hslot, _⟩ := h
    refine ⟨function, slot, body.locals.get ⟨slot, hslot⟩, rfl, himport, hpasses, ?_⟩
    simp [Context.slot?, hbody, hslot]

theorem Inference.mem_casts_of_mem_wholeCasts {c : Context} {k : Cast} {var : Variable}
    (h : k ∈ wholeCasts c var) : ∃ e ∈ c.program.functions.entries, k ∈ e.2.casts := by
  obtain ⟨body, hbody, hk⟩ := List.mem_flatMap.1 h
  obtain ⟨caller, _, hcaller⟩ := List.mem_filterMap.1 hbody
  refine ⟨(caller, body), Table.get?_eq_some_iff.1 hcaller, ?_⟩
  exact (List.mem_filter.1 (List.mem_filter.1 hk).1).1

theorem Context.Fits.isArg_of_passes {c : Context} {function slot : Nat} {l : LocalSlot}
    {source : Variable} (h : c.Fits function) (hpasses : c.Passes source (.local function slot))
    (hslot : c.slot? (.local function slot) = some l) : l.isArg = true := by
  obtain ⟨k, hk, rfl, hcall⟩ := hpasses
  obtain ⟨e, he, hcast⟩ := Inference.mem_casts_of_mem_wholeCasts hk
  simpa [hslot] using h e he k hcast hcall

/-- Whether a function has a body. -/
def Program.hasBody (p : Program) (function : Nat) : Prop := p.functions.contains function = true

instance (p : Program) (function : Nat) : Decidable (p.hasBody function) :=
  inferInstanceAs (Decidable (_ = true))

theorem Ty.eq_unknown_of_not_isKnown {t : Ty} (h : ¬ t.isKnown = true) : t = .unknown := by
  cases t with
  | unknown => rfl
  | _ => exact absurd rfl h

namespace Session

/-- A function is reached once it is analysed or put off. -/
def Reached (s : Session) (function : Nat) : Prop :=
  s.analyzed.contains function = true ∨ s.deferred.contains function = true

/-- All that there is to do for a function is done, its callees apart, which are reached. -/
structure Settled (c : Context) (s : Session) (function : Nat) : Prop where
  slots : ∀ {body}, c.program.function? function = some body → ∀ slot < body.locals.length,
    s.vars.contains (.local function slot) = true
  returns : c.program.hasBody function → s.returns.contains function = true
  callees : ∀ callee ∈ c.program.callsFrom function, c.program.hasBody callee → s.Reached callee

/-- A parameter has adopted the type of a variable passed as it, and passes it on. -/
structure Received (c : Context) (s : Session) (param : Variable) (type : Ty) : Prop where
  entry : s.vars.get? param = some (.resolved type)
  provisional : s.isProvisional type = true
  propagated : s.propagated.contains param = true
  source : ∃ source, c.Adopts source param ∧ s.propagated.contains source = true ∧
    s.vars.get? source = some (.resolved type)

/-- The type of a variable is known, or in progress. -/
def IsTyped (s : Session) (var : Variable) : Prop :=
  ∃ r, s.vars.get? var = some r ∧ r ≠ .resolved .unknown

/-- No parameter that takes over types and that a variable is passed as by name is left without a
type. -/
def Flowed (c : Context) (s : Session) (source : Variable) : Prop :=
  ∀ k ∈ Inference.wholeCasts c source, ∀ function, c.Receives k function →
    s.IsTyped (.local function k.argIndex)

/-- From `s` to `t` the session only gains. Types may be adopted if `p`, and functions visited
if `v`. -/
structure Advance (c : Context) (p v : Prop) (s t : Session) : Prop where
  depth : t.depth = s.depth
  change : ∀ {var r}, s.vars.get? var = some r → t.vars.get? var = some r ∨
    p ∧ r = .resolved .unknown ∧ ∃ type, t.Received c var type
  closed : ∀ {var}, t.vars.get? var = some .inProgress → s.vars.get? var = some .inProgress
  returned : ∀ {function r}, s.returns.get? function = some r → t.returns.get? function = some r
  returnClosed : ∀ {function}, t.returns.get? function = some .inProgress →
    s.returns.get? function = some .inProgress
  newTypes : ∀ {id}, s.newTypes.contains id = true → t.newTypes.contains id = true
  propagated : ∀ {var}, s.propagated.contains var = true → t.propagated.contains var = true
  flowed : ∀ {var}, t.propagated.contains var = true →
    s.propagated.contains var = true ∨ p ∧ t.Flowed c var
  analyzed : ∀ {function}, s.analyzed.contains function = true →
    t.analyzed.contains function = true
  reached : ∀ {function}, s.Reached function → t.Reached function
  deferred : ∀ {function}, t.deferred.contains function = true →
    s.deferred.contains function = true ∨ v ∧ c.program.hasBody function
  visited : ∀ {function}, t.analyzed.contains function = true →
    s.analyzed.contains function = true ∨ (0 < c.settings.maxDepth → t.Settled c function)

/-- Types are inferred. -/
abbrev Infers (c : Context) := Advance c False False

/-- Types are inferred and propagated. -/
abbrev Propagates (c : Context) := Advance c True False

/-- Types are inferred and propagated, and functions visited. -/
abbrev Visits (c : Context) := Advance c True True

variable {c : Context} {p v : Prop} {s t u : Session}

theorem isProvisional_mono
    (h : ∀ {id}, s.newTypes.contains id = true → t.newTypes.contains id = true) {type : Ty} (hs : s.isProvisional type = true) : t.isProvisional type = true := by
  unfold Run.isProvisional Run.isNewType at hs ⊢
  cases hid : type.finalStruct? with
  | none => simp [hid] at hs
  | some id =>
    simp only [hid, Option.map_some, Option.getD_some] at hs ⊢
    exact h hs

theorem ne_unknown_of_isProvisional {type : Ty} (h : s.isProvisional type = true) :
    type ≠ .unknown := by
  rintro rfl
  exact absurd h (by simp [Run.isProvisional, Ty.finalStruct?])

theorem isTyped_of_varType {var : Variable} (h : s.varType var ≠ .unknown) : s.IsTyped var := by
  unfold Run.varType at h
  cases hr : s.vars.get? var with
  | none => simp [hr] at h
  | some r =>
    refine ⟨r, hr, ?_⟩
    rintro rfl
    simp [hr, Resolution.type] at h

theorem IsTyped.varType_ne_unknown {var : Variable} (h : s.IsTyped var)
    (hclosed : s.vars.get? var ≠ some .inProgress) : s.varType var ≠ .unknown := by
  obtain ⟨r, hr, hknown⟩ := h
  cases r with
  | inProgress => exact absurd hr hclosed
  | resolved type =>
    intro hunknown
    simp only [Run.varType, hr, Option.map_some, Option.getD_some, Resolution.type] at hunknown
    exact hknown (hunknown ▸ rfl)

namespace Advance

theorem entry_of_known (h : Advance c p v s t) {var : Variable} {type : Ty}
    (hvar : s.vars.get? var = some (.resolved type)) (hknown : type ≠ .unknown) :
    t.vars.get? var = some (.resolved type) := by
  rcases h.change hvar with hentry | ⟨_, heq, _⟩
  · exact hentry
  · exact absurd (Resolution.resolved.inj heq) hknown

theorem contains (h : Advance c p v s t) {var : Variable} (hvar : s.vars.contains var = true) :
    t.vars.contains var = true := by
  obtain ⟨r, hr⟩ := Table.contains_iff.1 hvar
  rcases h.change hr with hentry | ⟨_, _, _, hreceived⟩
  · exact Table.contains_of_get? hentry
  · exact Table.contains_of_get? hreceived.entry

theorem returns_contains (h : Advance c p v s t) {function : Nat}
    (hf : s.returns.contains function = true) : t.returns.contains function = true := by
  obtain ⟨r, hr⟩ := Table.contains_iff.1 hf
  exact Table.contains_of_get? (h.returned hr)

theorem received (h : Advance c p v s t) {param : Variable} {type : Ty}
    (hs : s.Received c param type) : t.Received c param type where
  entry := h.entry_of_known hs.entry (ne_unknown_of_isProvisional hs.provisional)
  provisional := isProvisional_mono h.newTypes hs.provisional
  propagated := h.propagated hs.propagated
  source := by
    obtain ⟨source, hadopts, hpropagated, hentry⟩ := hs.source
    exact ⟨source, hadopts, h.propagated hpropagated,
      h.entry_of_known hentry (ne_unknown_of_isProvisional hs.provisional)⟩

theorem isTyped (h : Advance c p v s t) {var : Variable} (hs : s.IsTyped var) : t.IsTyped var := by
  obtain ⟨r, hr, hknown⟩ := hs
  rcases h.change hr with hentry | ⟨_, hunknown, _⟩
  · exact ⟨r, hentry, hknown⟩
  · exact absurd hunknown hknown

theorem flows (h : Advance c p v s t) {source : Variable} (hs : s.Flowed c source) :
    t.Flowed c source :=
  fun k hk function hreceives => h.isTyped (hs k hk function hreceives)

theorem settled (h : Advance c p v s t) {function : Nat} (hs : s.Settled c function) :
    t.Settled c function where
  slots hbody slot hslot := h.contains (hs.slots hbody slot hslot)
  returns hbody := h.returns_contains (hs.returns hbody)
  callees callee hcallee hbody := h.reached (hs.callees callee hcallee hbody)

theorem trans (h : Advance c p v s t) (h' : Advance c p v t u) : Advance c p v s u where
  depth := h'.depth.trans h.depth
  change := by
    intro var r hr
    rcases h.change hr with hentry | ⟨hp, rfl, type, hreceived⟩
    · exact h'.change hentry
    · exact .inr ⟨hp, rfl, type, h'.received hreceived⟩
  closed hu := h.closed (h'.closed hu)
  returned hs := h'.returned (h.returned hs)
  returnClosed hu := h.returnClosed (h'.returnClosed hu)
  newTypes hs := h'.newTypes (h.newTypes hs)
  propagated hs := h'.propagated (h.propagated hs)
  flowed := by
    intro source hu
    rcases h'.flowed hu with ht | hflowed
    · exact (h.flowed ht).imp_right fun ⟨hp, hflowed⟩ => ⟨hp, h'.flows hflowed⟩
    · exact .inr hflowed
  analyzed hs := h'.analyzed (h.analyzed hs)
  reached hs := h'.reached (h.reached hs)
  deferred := by
    intro function hu
    rcases h'.deferred hu with ht | hbody
    · exact h.deferred ht
    · exact .inr hbody
  visited := by
    intro function hu
    rcases h'.visited hu with ht | hsettled
    · exact (h.visited ht).imp_right fun hsettled hmax => h'.settled (hsettled hmax)
    · exact .inr hsettled

theorem imp {p' v' : Prop} (h : Advance c p v s t) (hp : p → p') (hv : v → v') :
    Advance c p' v' s t where
  depth := h.depth
  change hr := (h.change hr).imp_right fun ⟨h₁, h₂⟩ => ⟨hp h₁, h₂⟩
  closed := h.closed
  returned := h.returned
  returnClosed := h.returnClosed
  newTypes := h.newTypes
  propagated := h.propagated
  flowed hf := (h.flowed hf).imp_right fun ⟨h₁, h₂⟩ => ⟨hp h₁, h₂⟩
  analyzed := h.analyzed
  reached := h.reached
  deferred hf := (h.deferred hf).imp_right fun ⟨h₁, h₂⟩ => ⟨hv h₁, h₂⟩
  visited := h.visited

end Advance

instance : Std.Refl (Advance c p v) where
  refl s := by
    constructor
    case change => exact fun h => .inl h
    case flowed => exact fun h => .inl h
    case deferred => exact fun h => .inl h
    case visited => exact fun h => .inl h
    all_goals first | rfl | exact fun h => h

instance : IsTrans Session (Advance c p v) where
  trans _ _ _ := Advance.trans

theorem Kept.advance (h : s.Kept t) : Advance c p v s t := by
  obtain ⟨db, newTypes, diagnostics, hnew, rfl⟩ := h
  constructor
  case change => exact fun h => .inl h
  case flowed => exact fun h => .inl h
  case newTypes => exact fun h => hnew _ h
  case deferred => exact fun h => .inl h
  case visited => exact fun h => .inl h
  all_goals first | rfl | exact fun h => h

namespace Advance

theorem putOff {function : Nat} (hbody : c.program.hasBody function) :
    Advance c p True s { s with deferred := s.deferred.add function } := by
  constructor
  case change => exact fun h => .inl h
  case flowed => exact fun h => .inl h
  case reached =>
    rintro other (h | h)
    · exact .inl h
    · exact .inr (KeySet.contains_add_of_contains h function)
  case deferred =>
    intro other h
    rw [KeySet.contains_add, Bool.or_eq_true, decide_eq_true_eq] at h
    rcases h with rfl | h
    · exact .inr ⟨trivial, hbody⟩
    · exact .inl h
  case visited => exact fun h => .inl h
  all_goals first | rfl | exact fun h => h

theorem leave (h : Advance c p v { s with depth := s.depth + 1 } t) :
    Advance c p v s { t with depth := t.depth - 1 } where
  depth := by
    have hdepth : t.depth = s.depth + 1 := h.depth
    simp only [hdepth, Nat.add_sub_cancel]
  change := by
    intro var r hr
    rcases h.change hr with hentry | ⟨hp, hunknown, type, hreceived⟩
    · exact .inl hentry
    · exact .inr ⟨hp, hunknown, type, hreceived.entry, hreceived.provisional,
        hreceived.propagated, hreceived.source⟩
  closed := h.closed
  returned := h.returned
  returnClosed := h.returnClosed
  newTypes := h.newTypes
  propagated := h.propagated
  flowed := h.flowed
  analyzed := h.analyzed
  reached := h.reached
  deferred := h.deferred
  visited hf := (h.visited hf).imp_right fun hsettled hmax =>
    ⟨(hsettled hmax).slots, (hsettled hmax).returns, (hsettled hmax).callees⟩

theorem settle {var : Variable} (hnone : s.vars.get? var = none)
    (h : Infers c { s with vars := s.vars.insert var .inProgress } t) (type : Ty) :
    Infers c s { t with vars := t.vars.insert var (.resolved type) } where
  depth := h.depth
  change := by
    intro other r hr
    have hne : other ≠ var := by
      rintro rfl
      exact absurd hr (by simp [hnone])
    rcases h.change ((Table.get?_insert_of_ne _ hne _).trans hr) with hentry | ⟨hfalse, _⟩
    · exact .inl ((Table.get?_insert_of_ne _ hne _).trans hentry)
    · exact hfalse.elim
  closed := by
    intro other ht
    rw [Table.get?_insert] at ht
    split at ht
    case isTrue => cases ht
    case isFalse hne => exact (Table.get?_insert_of_ne _ hne _).symm.trans (h.closed ht)
  returned := h.returned
  returnClosed := h.returnClosed
  newTypes := h.newTypes
  propagated := h.propagated
  flowed hf := (h.flowed hf).imp_right fun hfalse => hfalse.1.elim
  analyzed := h.analyzed
  reached := h.reached
  deferred := h.deferred
  visited := by
    intro function hf
    refine (h.visited hf).imp_right fun hsettled hmax => ?_
    have hs := hsettled hmax
    refine ⟨fun hbody slot hslot => ?_, hs.returns, hs.callees⟩
    exact Table.contains_insert_of_contains (hs.slots hbody slot hslot) _ _

theorem settleReturn {function : Nat} (hnone : s.returns.get? function = none)
    (h : Infers c { s with returns := s.returns.insert function .inProgress } t) (type : Ty) :
    Infers c s { t with returns := t.returns.insert function (.resolved type) } where
  depth := h.depth
  change := by
    intro var r hr
    rcases h.change hr with hentry | ⟨hfalse, _⟩
    · exact .inl hentry
    · exact hfalse.elim
  closed := h.closed
  returned := by
    intro other r hr
    have hne : other ≠ function := by
      rintro rfl
      exact absurd hr (by simp [hnone])
    have hmarked := h.returned ((Table.get?_insert_of_ne _ hne _).trans hr)
    exact (Table.get?_insert_of_ne _ hne _).trans hmarked
  returnClosed := by
    intro other ht
    rw [Table.get?_insert] at ht
    split at ht
    case isTrue => cases ht
    case isFalse hne => exact (Table.get?_insert_of_ne _ hne _).symm.trans (h.returnClosed ht)
  newTypes := h.newTypes
  propagated := h.propagated
  flowed hf := (h.flowed hf).imp_right fun hfalse => hfalse.1.elim
  analyzed := h.analyzed
  reached := h.reached
  deferred := h.deferred
  visited := by
    intro other hf
    refine (h.visited hf).imp_right fun hsettled hmax => ?_
    have hs := hsettled hmax
    exact ⟨hs.slots, fun hbody => Table.contains_insert_of_contains (hs.returns hbody) _ _,
      hs.callees⟩

theorem adopt {param : Variable} {type : Ty}
    (hentry : ∀ {r}, s.vars.get? param = some r → r = .resolved .unknown)
    (h : Advance c True v { s with vars := s.vars.insert param (.resolved type) } t)
    (hreceived : t.Received c param type) : Advance c True v s t where
  depth := h.depth
  change := by
    intro var r hr
    by_cases heq : var = param
    · subst heq
      exact .inr ⟨trivial, hentry hr, type, hreceived⟩
    · exact h.change ((Table.get?_insert_of_ne _ heq _).trans hr)
  closed := by
    intro var ht
    have hs := h.closed ht
    exact (Table.eq_or_of_get?_insert hs).resolve_left fun heq => nomatch heq.2
  returned := h.returned
  returnClosed := h.returnClosed
  newTypes := h.newTypes
  propagated := h.propagated
  flowed := h.flowed
  analyzed := h.analyzed
  reached := h.reached
  deferred := h.deferred
  visited := h.visited

theorem push {source : Variable}
    (h : Advance c True v { s with propagated := s.propagated.add source } t)
    (hflowed : t.Flowed c source) : Advance c True v s t where
  depth := h.depth
  change := h.change
  closed := h.closed
  returned := h.returned
  returnClosed := h.returnClosed
  newTypes := h.newTypes
  propagated hs := h.propagated (KeySet.contains_add_of_contains hs source)
  flowed := by
    intro var ht
    rcases h.flowed ht with hs | hvar
    · rw [KeySet.contains_add, Bool.or_eq_true, decide_eq_true_eq] at hs
      rcases hs with rfl | hs
      · exact .inr ⟨trivial, hflowed⟩
      · exact .inl hs
    · exact .inr hvar
  analyzed := h.analyzed
  reached := h.reached
  deferred := h.deferred
  visited := h.visited

theorem analyse {function : Nat}
    (h : Advance c p v { s with analyzed := s.analyzed.add function } t)
    (hsettled : 0 < c.settings.maxDepth → t.Settled c function) : Advance c p v s t where
  depth := h.depth
  change := h.change
  closed := h.closed
  returned := h.returned
  returnClosed := h.returnClosed
  newTypes := h.newTypes
  propagated := h.propagated
  flowed := h.flowed
  analyzed hs := h.analyzed (KeySet.contains_add_of_contains hs function)
  reached := by
    rintro other (hs | hs)
    · exact h.reached (.inl (KeySet.contains_add_of_contains hs function))
    · exact h.reached (.inr hs)
  deferred := h.deferred
  visited := by
    intro other ht
    rcases h.visited ht with hs | hother
    · rw [KeySet.contains_add, Bool.or_eq_true, decide_eq_true_eq] at hs
      rcases hs with rfl | hs
      · exact .inr hsettled
      · exact .inl hs
    · exact .inr hother

theorem resume {function : Nat}
    (h : Advance c p v { s with deferred := s.deferred.erase function } t)
    (hreached : t.Reached function) : Advance c p v s t where
  depth := h.depth
  change := h.change
  closed := h.closed
  returned := h.returned
  returnClosed := h.returnClosed
  newTypes := h.newTypes
  propagated := h.propagated
  flowed := h.flowed
  analyzed := h.analyzed
  reached := by
    rintro other (hs | hs)
    · exact h.reached (.inl hs)
    · by_cases heq : other = function
      · exact heq ▸ hreached
      · refine h.reached (.inr ?_)
        rw [Table.contains, Table.get?_erase_of_ne _ heq]
        exact hs
  deferred := by
    intro other ht
    refine (h.deferred ht).imp_left fun hs => ?_
    rw [Table.contains_erase, Bool.and_eq_true] at hs
    exact hs.2
  visited := h.visited

end Advance

end Session
end TypeRecovery
