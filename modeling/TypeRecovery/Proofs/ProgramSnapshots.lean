import TypeRecovery.Proofs.Indexes
import TypeRecovery.Proofs.Snapshots
import TypeRecovery.Snapshot.Program

/-!
# Reading snapshots of a program back

A snapshot of a program holds its bodies and imports. Each kind of use is read back as it was,
except for the types that inference fills in; the index is built again, and answers as before since
it is determined by the bodies and imports.
-/
namespace TypeRecovery

open Json

namespace Address

theorem isBlank_of_hexDigit? {c : Char} (h : (Numeral.hexDigit? c).isSome = true) :
    Text.isBlank c = false := by
  have hrange : 48 ≤ c.toNat ∧ c.toNat ≤ 102 := by
    unfold Numeral.hexDigit? at h
    split at h
    case isTrue hdigit => exact ⟨hdigit.1, Nat.le_trans hdigit.2 (by decide)⟩
    case isFalse =>
      split at h
      case isTrue hlower => exact ⟨Nat.le_trans (by decide) hlower.1, hlower.2⟩
      case isFalse =>
        split at h
        case isTrue hupper =>
          exact ⟨Nat.le_trans (by decide) hupper.1, Nat.le_trans hupper.2 (by decide)⟩
        case isFalse => cases h
  simp [Text.isBlank, Text.blankRanges]
  omega

theorem trim_eq_self {cs : List Char} (h : ∀ c ∈ cs, Text.isBlank c = false) :
    Text.trim cs = cs := by
  have hdrop : ∀ l : List Char, (∀ c ∈ l, Text.isBlank c = false) →
      l.dropWhile Text.isBlank = l := by
    intro l hl
    cases l with
    | nil => rfl
    | cons c rest => simp [hl c (by simp)]
  rw [Text.trim, hdrop cs h, hdrop cs.reverse (by simpa using h), List.reverse_reverse]

theorem parse?_marked {n : Nat} (h : n < Word.bound) : parse? (Numeral.marked n) = some n := by
  have hdigits : ∀ c ∈ Nat.toDigits 16 n, Text.isBlank c = false := fun c hc =>
    isBlank_of_hexDigit? (Numeral.isSome_digit? (Numeral.value?_hex n) c hc)
  have htrim : Text.trim ('0' :: 'x' :: Nat.toDigits 16 n) = '0' :: 'x' :: Nat.toDigits 16 n := by
    refine trim_eq_self fun c hc => ?_
    rcases List.mem_cons.1 hc with rfl | hc
    · decide
    · rcases List.mem_cons.1 hc with rfl | hc
      · decide
      · exact hdigits c hc
  have hvalue : Numeral.hexValue? (Nat.toDigits 16 n) = some n := by
    rw [Numeral.hexValue?, if_neg (by simp [Nat.toDigits_ne_nil]), Numeral.value?_hex]
  have hword : word? (Nat.toDigits 16 n) = some n := by
    have hplus : '+' ∉ Nat.toDigits 16 n :=
      Numeral.notMem_toDigits Numeral.value?_hex (by decide) n
    unfold word?
    split
    case h_1 rest heq => exact absurd (heq ▸ List.mem_cons_self) hplus
    case h_2 => simp [hvalue, Option.filter, h]
  simp [parse?, parseChars?, Numeral.marked, Numeral.hex, htrim, digits?, hword]

theorem readAs {limit n : Nat} (h : n < Word.bound) : ReadAs limit ofJson? (toJson n) n where
  written := written_text _
  decoded _ := by simp [toJson, ofJson?, parse?_marked h]

end Address

variable {limit : Nat} (place : Place)

namespace UseStep

/-- Every number in the step is a signed machine word. -/
def OfWords : UseStep → Prop
  | add n => Word.isSigned n = true
  | deref => True
  | addressOf => True

instance : DecidablePred OfWords
  | add n => inferInstanceAs (Decidable (Word.isSigned n = true))
  | deref => .isTrue trivial
  | addressOf => .isTrue trivial

theorem readAs {step : UseStep} (h : step.OfWords) : ReadAs limit ofJson? step.toJson step := by
  cases step with
  | add n =>
    have hword : ReadAs (limit - 1) signedWord? (.int n) n := ⟨.int n, fun _ => if_pos h⟩
    refine readAs_variant "add" (by decide +kernel) hword fun _ hname hj => ?_
    simp [ofJson?, hname, hj]
  | deref => exact ⟨.text _, fun _ => by simp [toJson, ofJson?]⟩
  | addressOf => exact ⟨.text _, fun _ => by simp [toJson, ofJson?]⟩

end UseStep

theorem Chain.readAs {chain : Chain} (h : ∀ step ∈ chain, step.OfWords) :
    ReadAs limit ofJson? (toJson chain) chain :=
  readAs_list fun step hstep => UseStep.readAs (h step hstep)

/-- Every number in a use of a variable is a machine word. -/
@[mk_iff]
structure UseOfWords (var : Variable) (chain : Chain) : Prop where
  var : var.OfWords
  chain : ∀ step ∈ chain, step.OfWords

instance (var : Variable) (chain : Chain) : Decidable (UseOfWords var chain) :=
  decidable_of_iff _ (useOfWords_iff var chain).symm

namespace UseOfWords

variable {var : Variable} {chain : Chain} (h : UseOfWords var chain)
include h

theorem readAs_var (limit : Nat) : ReadAs limit (Variable.ofJson? place) var.toJson var :=
  Variable.readAs place h.var

theorem readAs_chain (limit : Nat) : ReadAs limit Chain.ofJson? (Chain.toJson chain) chain :=
  Chain.readAs h.chain

end UseOfWords

namespace Expr

/-- Every number in the expression is a machine word. -/
inductive OfWords : Expr → Prop where
  | slot {index : Nat} (h : index < Word.bound) : OfWords (.slot index)
  | global {address : Nat} (h : address < Word.bound) : OfWords (.global address)
  | addressOf {inner : Expr} (h : OfWords inner) : OfWords (.addressOf inner)
  | num {value size : Nat} (hvalue : value < Word.bound) (hsize : size < Word.bound) :
      OfWords (.num value size)
  | call {callee : Expr} {args : List Expr} (hcallee : OfWords callee)
      (hargs : ∀ e ∈ args, OfWords e) : OfWords (.call callee args)
  | cast {inner : Expr} {type : Ty} (h : OfWords inner) (htype : type.OfWords) :
      OfWords (.cast inner type)
  | helper (name : String) : OfWords (.helper name)
  | other (text : String) : OfWords (.other text)

mutual

def decideOfWords : (e : Expr) → Decidable e.OfWords
  | slot index => decidable_of_iff (index < Word.bound) ⟨.slot, fun | .slot h => h⟩
  | global address => decidable_of_iff (address < Word.bound) ⟨.global, fun | .global h => h⟩
  | addressOf inner =>
    have := decideOfWords inner
    decidable_of_iff inner.OfWords ⟨.addressOf, fun | .addressOf h => h⟩
  | num value size =>
    decidable_of_iff (value < Word.bound ∧ size < Word.bound)
      ⟨fun h => .num h.1 h.2, fun | .num hvalue hsize => ⟨hvalue, hsize⟩⟩
  | call callee args =>
    have := decideOfWords callee
    have := decideAllOfWords args
    decidable_of_iff (callee.OfWords ∧ ∀ e ∈ args, e.OfWords)
      ⟨fun h => .call h.1 h.2, fun | .call hcallee hargs => ⟨hcallee, hargs⟩⟩
  | cast inner type =>
    have := decideOfWords inner
    decidable_of_iff (inner.OfWords ∧ type.OfWords)
      ⟨fun h => .cast h.1 h.2, fun | .cast h htype => ⟨h, htype⟩⟩
  | helper name => .isTrue (.helper name)
  | other text => .isTrue (.other text)

def decideAllOfWords : (args : List Expr) → Decidable (∀ e ∈ args, e.OfWords)
  | [] => .isTrue nofun
  | e :: rest =>
    have := decideOfWords e
    have := decideAllOfWords rest
    decidable_of_iff (e.OfWords ∧ ∀ e ∈ rest, e.OfWords) List.forall_mem_cons.symm

end

instance : DecidablePred OfWords := decideOfWords

theorem toJsonAll_eq_map (args : List Expr) : toJsonAll args = args.map toJson := by
  induction args with
  | nil => rfl
  | cons e rest ih => rw [toJsonAll, ih, List.map_cons]

theorem readAs_num {value size : Nat} (hvalue : value < Word.bound) (hsize : size < Word.bound) :
    ReadAs limit (numOfJson? place) (.obj [("value", .nat value), ("size", .nat size)])
      (num value size) := by
  refine readAs_record ["value", "size"] rfl (by decide +kernel) (by simp) fun _ hfields => ?_
  rw [numOfJson?, variantFields?_obj, hfields]
  simp [valueOf, word?_nat hvalue, word?_nat hsize]

theorem readAs_call {decode : Json → Option Expr} {callee : Expr} {args : List Expr}
    (hcallee : ReadAs limit decode callee.toJson callee)
    (hargs : ∀ e ∈ args, ReadAs limit decode e.toJson e) :
    ReadAs limit (callOfJson? place decode)
      (.obj [("callee", callee.toJson), ("args", .arr (toJsonAll args))]) (call callee args) := by
  have hall : ReadAs limit (list? decode) (.arr (toJsonAll args)) args := by
    rw [toJsonAll_eq_map]
    exact readAs_list hargs
  refine readAs_record ["callee", "args"] rfl (by decide +kernel)
    (by simp [hcallee.written, hall.written]) fun hnest hfields => ?_
  rw [callOfJson?, variantFields?_obj, hfields]
  simp [valueOf, hcallee.of_field hnest "callee" (by simp), hall.of_field hnest "args" (by simp)]

theorem readAs_cast {decode : Json → Option Expr} {inner : Expr} {type : Ty}
    (hlimit : limit ≤ maxNesting) (hinner : ReadAs limit decode inner.toJson inner)
    (htype : type.OfWords) : ReadAs limit (castOfJson? place decode)
      (.obj [("expr", inner.toJson), ("to", type.toJson)]) (cast inner type) := by
  have hto : ReadAs limit Ty.ofJson? type.toJson type := (Ty.readAs htype).mono hlimit
  refine readAs_record ["expr", "to"] rfl (by decide +kernel)
    (by simp [hinner.written, hto.written]) fun hnest hfields => ?_
  rw [castOfJson?, variantFields?_obj, hfields]
  simp [valueOf, hinner.of_field hnest "expr" (by simp), hto.of_field hnest "to" (by simp)]

/-- The levels of an expression are levels of its document. -/
theorem readAs_within {e : Expr} (h : e.OfWords) {levels : Nat} (hlevels : levels ≤ maxNesting) :
    ReadAs levels (ofJsonWithin? place (levels + 1)) e.toJson e := by
  induction h generalizing levels with
  | slot h =>
    refine readAs_variant "local" (by decide +kernel) (readAs_word h) fun _ hname hj => ?_
    simp [ofJsonWithin?, hname, ofVariant?, hj]
  | global h =>
    refine readAs_variant "global" (by decide +kernel) (readAs_word h) fun _ hname hj => ?_
    simp [ofJsonWithin?, hname, ofVariant?, hj]
  | addressOf _ ih =>
    have hless : levels - 1 ≤ maxNesting := by omega
    refine readAs_variant "address_of" (by decide +kernel) (ih hless) fun hpos hname hj => ?_
    rw [Nat.sub_add_cancel hpos] at hj
    simp [ofJsonWithin?, hname, ofVariant?, hj]
  | num hvalue hsize =>
    refine readAs_variant "num" (by decide +kernel) (readAs_num place hvalue hsize)
      fun _ hname hj => ?_
    simp [ofJsonWithin?, hname, ofVariant?, hj]
  | call _ _ ihcallee ihargs =>
    have hless : levels - 1 ≤ maxNesting := by omega
    refine readAs_variant "call" (by decide +kernel)
      (readAs_call place (ihcallee hless) fun e he => ihargs e he hless) fun hpos hname hj => ?_
    rw [Nat.sub_add_cancel hpos] at hj
    simp [ofJsonWithin?, hname, ofVariant?, hj]
  | cast _ htype ih =>
    have hless : levels - 1 ≤ maxNesting := by omega
    refine readAs_variant "cast" (by decide +kernel) (readAs_cast place hless (ih hless) htype)
      fun hpos hname hj => ?_
    rw [Nat.sub_add_cancel hpos] at hj
    simp [ofJsonWithin?, hname, ofVariant?, hj]
  | helper name =>
    refine readAs_variant "helper" (by decide +kernel) (readAs_text name) fun _ hname hj => ?_
    simp [ofJsonWithin?, hname, ofVariant?, hj]
  | other text =>
    refine readAs_variant "other" (by decide +kernel) (readAs_text text) fun _ hname hj => ?_
    simp [ofJsonWithin?, hname, ofVariant?, hj]

theorem readAs {e : Expr} (h : e.OfWords) : ReadAs maxNesting (ofJson? place) e.toJson e :=
  readAs_within place h (Nat.le_refl _)

end Expr

theorem PointerOrigin.readAs {o : PointerOrigin} (h : UseOfWords o.var o.chain) :
    ReadAs limit (ofJson? place) o.toJson o := by
  have hvar := h.readAs_var place limit
  have hchain := h.readAs_chain limit
  refine readAs_record ["var", "chain"] rfl (by decide +kernel)
    (by simp [hvar.written, hchain.written]) fun hnest hfields => ?_
  rw [ofJson?, hfields]
  simp [valueOf, hvar.of_field hnest "var" (by simp), hchain.of_field hnest "chain" (by simp)]

namespace CallTarget

/-- Every number in the target is a machine word. -/
def OfWords : CallTarget → Prop
  | explicit address => address < Word.bound
  | helper _ => True
  | implicit origin => ∀ o ∈ origin, UseOfWords o.var o.chain

instance : DecidablePred OfWords
  | explicit address => inferInstanceAs (Decidable (address < Word.bound))
  | helper _ => .isTrue trivial
  | implicit origin => inferInstanceAs (Decidable (∀ o ∈ origin, UseOfWords o.var o.chain))

theorem readAs {target : CallTarget} (h : target.OfWords) :
    ReadAs limit (ofJson? place) target.toJson target := by
  cases target with
  | explicit address =>
    refine readAs_variant "explicit" (by decide +kernel) (readAs_word h) fun _ hname hj => ?_
    simp [ofJson?, hname, hj]
  | helper name =>
    refine readAs_variant "helper" (by decide +kernel) (readAs_text name) fun _ hname hj => ?_
    simp [ofJson?, hname, hj]
  | implicit origin =>
    have horigin : ReadAs (limit - 1) (option? (PointerOrigin.ofJson? place))
        (Json.ofOption PointerOrigin.toJson origin) origin :=
      readAs_option nofun fun o ho => PointerOrigin.readAs place (h o ho)
    refine readAs_variant "implicit" (by decide +kernel) horigin fun _ hname hj => ?_
    simp [ofJson?, hname, hj]

end CallTarget

namespace Call

@[mk_iff]
structure OfWords (c : Call) : Prop where
  address : c.address < Word.bound
  target : c.target.OfWords

instance : DecidablePred OfWords := fun c => decidable_of_iff _ (ofWords_iff c).symm

theorem readAs {c : Call} (h : c.OfWords) : ReadAs limit (ofJson? place) c.toJson c := by
  have htarget : ReadAs limit (CallTarget.ofJson? place) c.target.toJson c.target :=
    CallTarget.readAs place h.target
  refine readAs_record ["address", "target"] rfl (by decide +kernel) (by simp [htarget.written])
    fun hnest hfields => ?_
  rw [ofJson?, hfields]
  simp [valueOf, word?_nat h.address, htarget.of_field hnest "target" (by simp)]

end Call

theorem Read.readAs {r : Read} (h : UseOfWords r.var r.chain) :
    ReadAs limit (ofJson? place) r.toJson r := by
  have hvar := h.readAs_var place limit
  have hchain := h.readAs_chain limit
  refine readAs_record ["var", "chain"] rfl (by decide +kernel)
    (by simp [hvar.written, hchain.written]) fun hnest hfields => ?_
  rw [ofJson?, hfields]
  simp [valueOf, hvar.of_field hnest "var" (by simp), hchain.of_field hnest "chain" (by simp)]

/-- A return site is written like a read. -/
theorem Return.readAs {r : Return} (h : UseOfWords r.var r.chain) :
    ReadAs limit (ofJson? place) r.toJson r := by
  have hread : ReadAs limit (Read.ofJson? place) (Read.toJson ⟨r.var, r.chain⟩) ⟨r.var, r.chain⟩ :=
    Read.readAs place h
  have hjson : r.toJson = Read.toJson ⟨r.var, r.chain⟩ := rfl
  rw [hjson]
  refine ⟨hread.written, fun hnest => ?_⟩
  rw [ofJson?, hread.decoded hnest, Option.map_some]

namespace Write

@[mk_iff]
structure OfWords (w : Write) : Prop where
  use : UseOfWords w.var w.chain
  value : w.value.OfWords

instance : DecidablePred OfWords := fun w => decidable_of_iff _ (ofWords_iff w).symm

/-- The type of the value is no part of the document. -/
theorem readAs {w : Write} (h : w.OfWords) (htype : w.valueType = .unknown) :
    ReadAs maxNesting (ofJson? place) w.toJson w := by
  obtain ⟨var, chain, value, _⟩ := w
  cases htype
  have hvar := h.use.readAs_var place maxNesting
  have hchain := h.use.readAs_chain maxNesting
  have hvalue := Expr.readAs place h.value
  refine readAs_record ["var", "chain", "value"] rfl (by decide +kernel)
    (by simp [hvar.written, hchain.written, hvalue.written]) fun hnest hfields => ?_
  rw [ofJson?, hfields]
  simp [valueOf, hvar.of_field hnest "var" (by simp), hchain.of_field hnest "chain" (by simp),
    hvalue.of_field hnest "value" (by simp)]

end Write

namespace Cast

@[mk_iff]
structure OfWords (k : Cast) : Prop where
  use : UseOfWords k.var k.chain
  argIndex : k.argIndex < Word.bound
  call : k.call.OfWords

instance : DecidablePred OfWords := fun k => decidable_of_iff _ (ofWords_iff k).symm

/-- The type of the parameter is no part of the document. -/
theorem readAs {k : Cast} (h : k.OfWords) (htype : k.argType = .unknown) :
    ReadAs limit (ofJson? place) k.toJson k := by
  obtain ⟨var, chain, argIndex, call, _⟩ := k
  cases htype
  have hvar := h.use.readAs_var place limit
  have hchain := h.use.readAs_chain limit
  have hcall : ReadAs limit (Call.ofJson? place) call.toJson call := Call.readAs place h.call
  refine readAs_record ["var", "chain", "arg_index", "call"] rfl (by decide +kernel)
    (by simp [hvar.written, hchain.written, hcall.written]) fun hnest hfields => ?_
  rw [ofJson?, hfields]
  simp [valueOf, hvar.of_field hnest "var" (by simp), hchain.of_field hnest "chain" (by simp),
    word?_nat h.argIndex, hcall.of_field hnest "call" (by simp)]

end Cast

theorem LocalSlot.readAs (l : LocalSlot) : ReadAs limit ofJson? l.toJson l := by
  refine readAs_record ["name", "is_arg", "is_stack"] rfl (by decide +kernel) (by simp)
    fun _ hfields => ?_
  rw [ofJson?, hfields]
  simp [valueOf]

namespace FunctionBody

/-- Every number in the body is a machine word. -/
@[mk_iff]
structure OfWords (f : FunctionBody) : Prop where
  address : f.address < Word.bound
  reads : ∀ r ∈ f.reads, UseOfWords r.var r.chain
  writes : ∀ w ∈ f.writes, w.OfWords
  casts : ∀ k ∈ f.casts, k.OfWords
  calls : ∀ c ∈ f.calls, c.OfWords
  returns : ∀ r ∈ f.returns, UseOfWords r.var r.chain

instance : DecidablePred OfWords := fun f => decidable_of_iff _ (ofWords_iff f).symm

/-- No type has been filled in. -/
@[mk_iff]
structure Untyped (f : FunctionBody) : Prop where
  writes : ∀ w ∈ f.writes, w.valueType = .unknown
  casts : ∀ k ∈ f.casts, k.argType = .unknown

instance : DecidablePred Untyped := fun f => decidable_of_iff _ (untyped_iff f).symm

theorem readAs {f : FunctionBody} (h : f.OfWords) (huntyped : f.Untyped) :
    ReadAs maxNesting ofJson? f.toJson f := by
  have haddress : ReadAs maxNesting Address.ofJson? (Address.toJson f.address) f.address :=
    Address.readAs h.address
  have hlocals : ReadAs maxNesting (list? LocalSlot.ofJson?)
      (Json.ofList LocalSlot.toJson f.locals) f.locals := readAs_list fun l _ => l.readAs
  have hreads : ReadAs maxNesting (list? (Read.ofJson? .document))
      (Json.ofList Read.toJson f.reads) f.reads :=
    readAs_list fun r hr => Read.readAs .document (h.reads r hr)
  have hwrites : ReadAs maxNesting (list? (Write.ofJson? .document))
      (Json.ofList Write.toJson f.writes) f.writes :=
    readAs_list fun w hw => Write.readAs .document (h.writes w hw) (huntyped.writes w hw)
  have hcasts : ReadAs maxNesting (list? (Cast.ofJson? .document))
      (Json.ofList Cast.toJson f.casts) f.casts :=
    readAs_list fun k hk => Cast.readAs .document (h.casts k hk) (huntyped.casts k hk)
  have hcalls : ReadAs maxNesting (list? (Call.ofJson? .document))
      (Json.ofList Call.toJson f.calls) f.calls :=
    readAs_list fun c hc => Call.readAs .document (h.calls c hc)
  have hreturns : ReadAs maxNesting (list? (Return.ofJson? .document))
      (Json.ofList Return.toJson f.returns) f.returns :=
    readAs_list fun r hr => Return.readAs .document (h.returns r hr)
  refine readAs_record
    ["address", "name", "locals", "reads", "writes", "casts", "calls", "returns"] rfl
    (by decide +kernel)
    (by simp [haddress.written, hlocals.written, hreads.written, hwrites.written, hcasts.written,
      hcalls.written, hreturns.written]) fun hnest hfields => ?_
  rw [ofJson?, hfields]
  simp [valueOf, haddress.of_field hnest "address" (by simp),
    hlocals.of_field hnest "locals" (by simp), hreads.of_field hnest "reads" (by simp),
    hwrites.of_field hnest "writes" (by simp), hcasts.of_field hnest "casts" (by simp),
    hcalls.of_field hnest "calls" (by simp), hreturns.of_field hnest "returns" (by simp)]

end FunctionBody

namespace Program

/-- Every number in the program is a machine word. -/
@[mk_iff]
structure OfWords (p : Program) : Prop where
  bodies : ∀ e ∈ p.functions.entries, e.2.OfWords
  imports : ∀ e ∈ p.imports.entries, e.1 < Word.bound

instance : DecidablePred OfWords := fun p => decidable_of_iff _ (ofWords_iff p).symm

/-- No type has been filled into a body. -/
def Untyped (p : Program) : Prop := ∀ e ∈ p.functions.entries, e.2.Untyped

instance : DecidablePred Untyped := fun p =>
  inferInstanceAs (Decidable (∀ e ∈ p.functions.entries, e.2.Untyped))

/-- The programs have the same bodies and imports and answer every question alike. -/
structure Alike (p q : Program) : Prop where
  function? : ∀ a, q.function? a = p.function? a
  imports : q.imports = p.imports
  functionAddresses : q.functionAddresses = p.functionAddresses
  callsFrom : ∀ a, q.callsFrom a = p.callsFrom a
  callsTo : ∀ a, q.callsTo a = p.callsTo a
  isFunctionStart : ∀ a, q.isFunctionStart a = p.isFunctionStart a
  functionName? : ∀ a, q.functionName? a = p.functionName? a
  isImport : ∀ a, q.isImport a = p.isImport a

theorem readAs_import {e : Nat × String} (h : e.1 < Word.bound) :
    ReadAs limit importOfJson? (importToJson e) e := by
  have haddress : ReadAs limit Address.ofJson? (Address.toJson e.1) e.1 := Address.readAs h
  refine readAs_record ["address", "name"] rfl (by decide +kernel) (by simp [haddress.written])
    fun hnest hfields => ?_
  rw [importOfJson?, hfields]
  simp [valueOf, haddress.of_field hnest "address" (by simp)]

theorem readAs {p : Program} (h : p.OfWords) (huntyped : p.Untyped) :
    ReadAs maxNesting ofJson? p.toJson (ofParts p.functions.values p.imports.entries) := by
  have hbody : ∀ body ∈ p.functions.values,
      ReadAs maxNesting FunctionBody.ofJson? body.toJson body := by
    intro body hmem
    obtain ⟨e, he, rfl⟩ := List.mem_map.1 hmem
    exact FunctionBody.readAs (h.bodies e he) (huntyped e he)
  have hfunctions : ReadAs maxNesting (list? FunctionBody.ofJson?)
      (Json.ofList FunctionBody.toJson p.functions.values) p.functions.values := readAs_list hbody
  have himports : ReadAs maxNesting (list? importOfJson?)
      (Json.ofList importToJson p.imports.entries) p.imports.entries :=
    readAs_list fun e he => readAs_import (h.imports e he)
  refine readAs_record ["functions", "imports"] rfl (by decide +kernel)
    (by simp [hfunctions.written, himports.written]) fun hnest hfields => ?_
  rw [ofJson?, hfields]
  simp [valueOf, hfunctions.of_field hnest "functions" (by simp),
    himports.of_field hnest "imports" (by simp)]

theorem ofParts_eq_ofEntries (bodies : List FunctionBody) (imports : List (Nat × String)) :
    ofParts bodies imports =
      ofEntries (imports.map (fun e => .imported e.1 e.2) ++ bodies.map .body) := by
  simp [ofParts, ofEntries, List.foldl_map, enter]

theorem functions_foldl_addFunction (p : Program) (bodies : List FunctionBody) :
    (bodies.foldl addFunction p).functions =
      bodies.foldl (fun t f => t.insert f.address f) p.functions :=
  (List.foldl_hom Program.functions fun p f => (functions_addFunction p f).symm).symm

theorem imports_foldl_addFunction (p : Program) (bodies : List FunctionBody) :
    (bodies.foldl addFunction p).imports = p.imports := by
  induction bodies generalizing p with
  | nil => rfl
  | cons body rest ih => rw [List.foldl_cons, ih, imports_addFunction]

theorem functions_ofParts (bodies : List FunctionBody) (imports : List (Nat × String)) :
    (ofParts bodies imports).functions = .ofList (bodies.map fun f => (f.address, f)) := by
  have himports : ∀ p : Program,
      (imports.foldl (fun p e => p.addImport e.1 e.2) p).functions = p.functions := by
    induction imports with
    | nil => exact fun _ => rfl
    | cons e rest ih => exact fun p => ih (p.addImport e.1 e.2)
  rw [ofParts, functions_foldl_addFunction, himports, Table.ofList, List.foldl_map]

theorem imports_ofParts (bodies : List FunctionBody) (imports : List (Nat × String)) :
    (ofParts bodies imports).imports = .ofList imports := by
  rw [ofParts, imports_foldl_addFunction]
  exact (List.foldl_hom Program.imports fun _ _ => rfl).symm

/-- The bodies and imports of a program determine what its index answers. -/
theorem Indexes.alike {p q : Program} (hp : p.Indexes p.functions.values)
    (hq : q.Indexes q.functions.values) (hfunctions : q.functions = p.functions)
    (himports : q.imports = p.imports) : p.Alike q := by
  have hname : ∀ a, q.functionName? a = p.functionName? a := fun a => by
    rw [Program.functionName?, Program.functionName?, hfunctions, himports]
  refine ⟨fun a => ?_, himports, ?_, fun a => ?_, fun a => ?_, fun a => ?_, hname, fun a => ?_⟩
  · rw [Program.function?, Program.function?, hfunctions]
  · rw [Program.functionAddresses, Program.functionAddresses, hfunctions]
  · have hcallees : q.callGraph.calleeAddresses a = p.callGraph.calleeAddresses a :=
      KeySet.toList_eq_of_mem fun b =>
        (hq.callees a b).trans (hfunctions ▸ (hp.callees a b).symm)
    have hhelper : q.isHelper = p.isHelper := funext fun b => by
      rw [Program.isHelper, Program.isHelper, hname]
    rw [Program.callsFrom, Program.callsFrom, hcallees, hhelper]
  · exact KeySet.toList_eq_of_mem fun b => hq.mem_callsTo.trans (hfunctions ▸ hp.mem_callsTo.symm)
  · rw [Program.isFunctionStart, Program.isFunctionStart, hfunctions, himports]
  · rw [Program.isImport, Program.isImport, himports]

/-- Bodies stand under their own addresses. -/
def Addressed (p : Program) : Prop := ∀ a f, p.functions.get? a = some f → f.address = a

theorem addressed_ofEntries (entries : List Entry) : (ofEntries entries).Addressed :=
  fun a _ hf => address_of_lastBody? ((function?_ofEntries entries a).symm.trans hf)

theorem Addressed.ofList_values {p : Program} (hp : p.Addressed) :
    .ofList (p.functions.values.map fun f => (f.address, f)) = p.functions := by
  have hentries : p.functions.values.map (fun f => (f.address, f)) = p.functions.entries := by
    have haddress : ∀ e ∈ p.functions.entries, (e.2.address, e.2) = e := by
      intro e he
      rw [hp e.1 e.2 (Table.get?_eq_some_iff.2 he)]
    rw [Table.values, List.map_map]
    exact (List.map_congr_left haddress).trans (List.map_id' _)
  rw [hentries]
  exact Table.merge_empty _

theorem ofList_values {entries : List Entry} :
    .ofList ((ofEntries entries).functions.values.map fun f => (f.address, f)) =
      (ofEntries entries).functions := (addressed_ofEntries entries).ofList_values

/-- A program that was written is read back with the same bodies and imports, and answers alike,
as long as no types were filled in and its document nests no deeper than a document may. -/
theorem program_reads_back (entries : List Entry) (hwords : (ofEntries entries).OfWords)
    (huntyped : (ofEntries entries).Untyped)
    (hnest : (ofEntries entries).toJson.nesting ≤ maxNesting) :
    ∃ q, parse? (ofEntries entries).render = some q ∧ (ofEntries entries).Alike q := by
  have hread := readAs hwords huntyped
  refine ⟨ofParts (ofEntries entries).functions.values (ofEntries entries).imports.entries, ?_, ?_⟩
  · rw [parse?, render, parse?_pretty hread.written hnest, Option.bind_some]
    exact hread.decoded hnest
  · refine (indexes_ofEntries entries).alike ?_ ?_ ?_
    · rw [ofParts_eq_ofEntries]
      exact indexes_ofEntries _
    · rw [functions_ofParts, ofList_values]
    · rw [imports_ofParts]
      exact Table.merge_empty _

/-- A caller with uses of every kind, whose body was replaced, and an import entered last. -/
def assorted : List Entry :=
  [.body { address := 4096, calls := [⟨4100, .explicit 24576⟩] },
   .body { address := 8192, name := "callee", returns := [⟨.global 16384, [.addressOf]⟩] },
   .body {
      address := 4096
      locals := [{ name := "a\t\"", isArg := true }, { name := "", isStack := true }]
      reads := [⟨.global 16384, [.add (-8), .deref]⟩]
      writes := [{
        var := .local 4096 1, chain := []
        value := .call (.global 8192)
          [.cast (.slot 0) (.array (.pointer .void) none), .addressOf (.num 7 8), .other "?"] }]
      casts := [{
        var := .local 4096 0, chain := [.deref], argIndex := 1
        call := ⟨4104, .implicit (some ⟨.local 4096 0, [.add 16, .deref]⟩)⟩ }]
      calls := [⟨4104, .implicit (some ⟨.local 4096 0, [.add 16, .deref]⟩)⟩,
        ⟨4108, .explicit 8192⟩, ⟨4112, .helper "LOBYTE"⟩] },
   .imported 12288 "read\x7f"]

theorem assorted_reads_back :
    (ofEntries assorted).OfWords ∧ (ofEntries assorted).Untyped ∧
      (ofEntries assorted).toJson.nesting ≤ maxNesting ∧
      ∃ q, parse? (ofEntries assorted).render = some q ∧ (ofEntries assorted).Alike q :=
  ⟨by decide +kernel, by decide +kernel, by decide +kernel,
    program_reads_back assorted (by decide +kernel) (by decide +kernel) (by decide +kernel)⟩

end Program

end TypeRecovery
