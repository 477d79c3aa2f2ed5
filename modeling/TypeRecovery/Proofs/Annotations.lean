import TypeRecovery.Inference.IndirectCall
import TypeRecovery.Proofs.ProgramSnapshots
import TypeRecovery.Proofs.Walks

/-!
# Targets written in comments

A member without a recorded call target may name a function in its comment. The comment is cut into
words, and the first word that can be read as an address decides: if no function starts there, the
call stays unresolved, whatever the other words name. `Address.Spells` says which words can be read.
A word of hexadecimal letters that ends in `h` is among them, so plain words hide the address of a
function that is written after them.
-/
namespace TypeRecovery

namespace Text

variable {p : Char → Bool} {cs w : List Char}

theorem eq_false_of_mem_splitAt (hw : w ∈ splitAt p cs) : ∀ c ∈ w, p c = false := by
  induction cs generalizing w with
  | nil =>
    rw [splitAt, List.mem_singleton] at hw
    simp [hw]
  | cons c rest ih =>
    rw [splitAt] at hw
    split at hw
    case isTrue =>
      rcases List.mem_cons.1 hw with rfl | hw
      · simp
      · exact ih hw
    case isFalse hc =>
      have hc : p c = false := Bool.eq_false_iff.2 hc
      split at hw
      case h_1 => simp_all
      case h_2 first more heq =>
        rw [heq] at ih
        rcases List.mem_cons.1 hw with rfl | hw
        · have hfirst := ih List.mem_cons_self
          simpa [hc] using hfirst
        · exact ih (List.mem_cons_of_mem _ hw)

end Text

namespace Address

variable {w ds : List Char} {a n : Nat}

/-- What may stand before the digits of an address. -/
def marks : List (List Char) := [['0', 'x'], ['0', 'X'], ['s', 'u', 'b', '_']]

/-- Hexadecimal digits of a machine word, which a plus sign may precede. -/
def Digits (ds : List Char) (n : Nat) : Prop :=
  ∃ digits, (ds = digits ∨ ds = '+' :: digits) ∧ Numeral.hexValue? digits = some n ∧ n < Word.bound

/-- The words that are read as an address. -/
inductive Spells : List Char → Nat → Prop
  | marked {mark ds : List Char} {n : Nat} (hmark : mark ∈ marks) (hds : Digits ds n) :
      Spells (mark ++ ds) n
  | suffixed {ds : List Char} {n : Nat} (hnone : ∀ mark ∈ marks, ¬ mark <+: ds ++ ['h'])
      (hds : Digits ds n) : Spells (ds ++ ['h']) n

/-- The words that are written to name a function: `0x401000` or `sub_401000`. -/
def Names (w : List Char) (n : Nat) : Prop :=
  ∃ mark ∈ [['0', 'x'], ['s', 'u', 'b', '_']], ∃ digits, w = mark ++ digits ∧
    Numeral.hexValue? digits = some n ∧ n < Word.bound

theorem Names.spells (h : Names w n) : Spells w n := by
  obtain ⟨mark, hmark, digits, rfl, hvalue, hn⟩ := h
  have hmark : mark ∈ marks := by
    simp only [marks, List.mem_cons] at hmark ⊢
    tauto
  exact .marked hmark ⟨digits, .inl rfl, hvalue, hn⟩

theorem word?_eq_some_iff : word? ds = some n ↔ Digits ds n := by
  have hplus (rest : List Char) : Numeral.hexValue? ('+' :: rest) = none := rfl
  unfold word? Digits
  split
  case h_1 rest => simp [Option.filter_eq_some_iff, hplus]
  case h_2 hne =>
    simp only [Option.filter_eq_some_iff, decide_eq_true_eq]
    constructor
    · rintro ⟨hvalue, hn⟩
      exact ⟨ds, .inl rfl, hvalue, hn⟩
    · rintro ⟨digits, rfl | rfl, hvalue⟩
      · exact hvalue
      · exact absurd rfl (hne digits)

theorem digits?_of_mark {mark : List Char} (hmark : mark ∈ marks) (ds : List Char) :
    digits? (mark ++ ds) = some ds := by
  simp only [marks, List.mem_cons, List.not_mem_nil, or_false] at hmark
  rcases hmark with rfl | rfl | rfl <;> rfl

theorem digits?_of_no_mark (h : ∀ mark ∈ marks, ¬ mark <+: w) :
    digits? w = if w.getLast? = some 'h' then some w.dropLast else none := by
  have hne (mark : List Char) (hmark : mark ∈ marks) (rest : List Char) : w ≠ mark ++ rest :=
    fun hw => h mark hmark ⟨rest, hw.symm⟩
  unfold digits?
  split
  case h_1 rest => exact absurd rfl (hne ['0', 'x'] (by decide) rest)
  case h_2 rest => exact absurd rfl (hne ['0', 'X'] (by decide) rest)
  case h_3 rest => exact absurd rfl (hne ['s', 'u', 'b', '_'] (by decide) rest)
  case h_4 => rfl

theorem digits?_eq_some_iff : digits? w = some ds ↔
    (∃ mark ∈ marks, w = mark ++ ds) ∨ ((∀ mark ∈ marks, ¬ mark <+: w) ∧ w = ds ++ ['h']) := by
  constructor
  · intro h
    by_cases hmarked : ∃ mark ∈ marks, mark <+: w
    · obtain ⟨mark, hmark, rest, rfl⟩ := hmarked
      rw [digits?_of_mark hmark] at h
      cases h
      exact .inl ⟨mark, hmark, rfl⟩
    · simp only [not_exists, not_and] at hmarked
      rw [digits?_of_no_mark hmarked] at h
      split at h
      case isTrue hlast =>
        obtain ⟨rest, rfl⟩ := List.getLast?_eq_some_iff.1 hlast
        rw [List.dropLast_concat] at h
        cases h
        exact .inr ⟨hmarked, rfl⟩
      case isFalse => cases h
  · rintro (⟨mark, hmark, rfl⟩ | ⟨hnone, rfl⟩)
    · exact digits?_of_mark hmark ds
    · simp [digits?_of_no_mark hnone]

theorem parseChars?_eq_some_iff (hw : ∀ c ∈ w, Text.isBlank c = false) :
    parseChars? w = some n ↔ Spells w n := by
  rw [parseChars?, trim_eq_self hw, Option.bind_eq_some_iff]
  simp only [digits?_eq_some_iff, word?_eq_some_iff]
  constructor
  · rintro ⟨ds, ⟨mark, hmark, rfl⟩ | ⟨hnone, rfl⟩, hds⟩
    · exact .marked hmark hds
    · exact .suffixed hnone hds
  · rintro (⟨hmark, hds⟩ | ⟨hnone, hds⟩)
    · exact ⟨_, .inl ⟨_, hmark, rfl⟩, hds⟩
    · exact ⟨_, .inr ⟨hnone, rfl⟩, hds⟩

/-- The words of a text. -/
def words (text : String) : List (List Char) := Text.splitAt isSeparator text.toList

theorem parseChars?_of_mem_words {text : String} (hw : w ∈ words text) :
    parseChars? w = some n ↔ Spells w n := by
  refine parseChars?_eq_some_iff fun c hc => ?_
  have hseparator := Text.eq_false_of_mem_splitAt hw c hc
  simp only [isSeparator, Bool.or_eq_false_iff] at hseparator
  tauto

/-- `w` is the first word of a text that is read as an address. -/
def FirstSpelled (text : String) (w : List Char) (a : Nat) : Prop :=
  ∃ before after, words text = before ++ w :: after ∧ (∀ v ∈ before, ∀ b, ¬ Spells v b) ∧ Spells w a

theorem inText?_eq_some_iff {text : String} :
    inText? text = some a ↔ ∃ w, FirstSpelled text w a := by
  have hmem {before after : List (List Char)} {w : List Char}
      (hsplit : words text = before ++ w :: after) (v : List Char) (hv : v ∈ before ∨ v = w) :
      v ∈ words text := by
    rw [hsplit, List.mem_append, List.mem_cons]
    tauto
  rw [inText?, ← words, List.findSome?_eq_some_iff]
  constructor
  · rintro ⟨before, w, after, hsplit, hw, hbefore⟩
    refine ⟨w, before, after, hsplit, fun v hv b hb => ?_, ?_⟩
    · have hread := (parseChars?_of_mem_words (hmem hsplit v (.inl hv))).2 hb
      rw [hbefore v hv] at hread
      cases hread
    · exact (parseChars?_of_mem_words (hmem hsplit w (.inr rfl))).1 hw
  · rintro ⟨w, before, after, hsplit, hbefore, hw⟩
    refine ⟨before, w, after, hsplit, ?_, fun v hv => ?_⟩
    · exact (parseChars?_of_mem_words (hmem hsplit w (.inr rfl))).2 hw
    · refine Option.eq_none_iff_forall_ne_some.2 fun b hb => hbefore v hv b ?_
      exact (parseChars?_of_mem_words (hmem hsplit v (.inl hv))).1 hb

theorem exists_firstSpelled {text : String} (hw : w ∈ words text) (h : Spells w n) :
    ∃ first a, FirstSpelled text first a := by
  cases hread : inText? text with
  | some a =>
    obtain ⟨first, hfirst⟩ := inText?_eq_some_iff.1 hread
    exact ⟨first, a, hfirst⟩
  | none =>
    have hnone := List.findSome?_eq_none_iff.1 hread w hw
    rw [(parseChars?_of_mem_words hw).2 h] at hnone
    cases hnone

end Address

theorem Ty.structId?_of_pointee? {t target : Ty} (ht : t.finalStruct? = none)
    (h : t.pointee? = some target) : target.structId? = none := by
  cases t <;> cases h
  cases target with
  | struct id => cases ht
  | _ => rfl

theorem Ty.finalStruct?_of_object? {t target : Ty} (ht : t.finalStruct? = none)
    (h : t.object? = some target) : target.finalStruct? = none := by
  cases t <;> cases h <;> exact ht

section Steps

variable {σ : Type} [TypeStore σ] {s : σ} {c d : Cursor}

/-- The walk has met no struct. -/
structure Cursor.Structless (c : Cursor) : Prop where
  type : c.type.finalStruct? = none
  member : c.member = none

namespace Cursor.Structless

theorem deref (hc : c.Structless) (h : (c.deref s).run = .ok (some d)) : d.Structless := by
  obtain ⟨target, htarget, h⟩ := Checked.optionBind_eq_some.1 h
  have htarget := Ty.finalStruct?_of_object? hc.type (Except.ok.inj htarget)
  dsimp only at h
  split at h
  · obtain ⟨_, hfail, _⟩ := Checked.optionBind_eq_some.1 h
    cases hfail
  · split at h
    case h_1 id => cases htarget
    case h_2 =>
      obtain ⟨_, _, h⟩ := Checked.optionBind_eq_some.1 h
      split at h
      · obtain ⟨_, hfail, _⟩ := Checked.optionBind_eq_some.1 h
        cases hfail
      · cases h
        exact ⟨htarget, rfl⟩

theorem step (hc : c.Structless) {step : UseStep} (h : (c.step s step).run = .ok (some d)) :
    d.Structless := by
  cases step with
  | add n =>
    obtain rfl := Cursor.add_eq_some (Except.ok.inj h)
    exact ⟨hc.type, hc.member⟩
  | deref => exact hc.deref h
  | addressOf =>
    obtain ⟨_, rfl⟩ := Cursor.addressOf_eq_some (Except.ok.inj h)
    exact ⟨hc.type, hc.member⟩

theorem foldlM {chain : Chain} (hc : c.Structless)
    (h : (chain.foldlM (Cursor.step s) c).run = .ok (some d)) : d.Structless := by
  induction chain generalizing c with
  | nil =>
    cases h
    exact hc
  | cons step rest ih =>
    rw [List.foldlM_cons] at h
    obtain ⟨next, hstep, hrest⟩ := Checked.optionBind_eq_some.1 h
    exact ih (hc.step hstep) hrest

theorem finish (hc : c.Structless) {place : ChainTarget}
    (h : (c.finish s).run = .ok (some place)) : place.member = none := by
  unfold Cursor.finish at h
  split at h
  case isTrue =>
    cases h
    exact hc.member
  case isFalse =>
    split at h
    · obtain ⟨_, hfail, _⟩ := Checked.optionBind_eq_some.1 h
      cases hfail
    · obtain ⟨id, hid, _⟩ := Checked.optionBind_eq_some.1 h
      obtain ⟨target, htarget, hstruct⟩ := Option.bind_eq_some_iff.1 (Except.ok.inj hid)
      rw [Ty.structId?_of_pointee? hc.type htarget] at hstruct
      cases hstruct

end Cursor.Structless

theorem Chain.member_of_structless {chain : Chain} {start : Ty} {place : ChainTarget}
    (hstart : start.finalStruct? = none) (h : (chain.walk s start).run = .ok (some place)) :
    place.member = none := by
  obtain ⟨c, hc, hfinish⟩ := Checked.optionBind_eq_some.1 h
  have hstructless : Cursor.Structless { type := start } := ⟨hstart, rfl⟩
  exact (hstructless.foldlM hc).finish hfinish

end Steps

variable {c : Context} {origin : PointerOrigin} {member : MemberRef}

/-- The pointer of an indirect call was loaded from a member. -/
def PointerOrigin.Lands (r : Run) (origin : PointerOrigin) (member : MemberRef) : Prop :=
  ∃ place, (origin.chain.walk r.db (r.varType origin.var)).run = .ok (some place) ∧
    place.member = some member

theorem PointerOrigin.Lands.isUnknown {r : Run} (h : origin.Lands r member) :
    (r.varType origin.var).isUnknown = false := by
  obtain ⟨place, hwalk, hmember⟩ := h
  cases htype : r.varType origin.var with
  | unknown =>
    rw [htype] at hwalk
    rw [Chain.member_of_structless rfl hwalk] at hmember
    cases hmember
  | _ => rfl

theorem targetOfOrigin_of_lands {r : Run} (h : origin.Lands r member) :
    targetOfOrigin c r (some origin) = .ok (match memberTarget? c r.db member with
      | none => .error (.noTarget member)
      | some target => if c.program.isFunctionStart target then .ok target
        else .error (.notFunction target)) := by
  have hknown := h.isUnknown
  obtain ⟨place, hwalk, hmember⟩ := h
  simp only [targetOfOrigin, hknown, hwalk, bind, Except.bind, Option.bind_some, hmember]
  cases memberTarget? c r.db member <;> rfl

theorem memberTarget?_of_comment {db : Overlay} {m : Member} {text : String} {a : Nat}
    (hpass : c.settings.isEnabled .annotationFallback = true)
    (hnone : db.callTarget? member = none)
    (hm : (db.layout? member.struct).bind (·.members.get? member.offset) = some m)
    (hcomment : m.comment = some text) (htext : Address.inText? text = some a) :
    memberTarget? c db member = some a := by
  simp [memberTarget?, hnone, hpass, hm, Member.annotatedTarget?, hcomment, htext]

/-- What is reported about a call without a target. -/
def Call.unresolved (call : Call) (message : String) : Diagnostic :=
  .unresolvableCall ("call at " ++ Numeral.marked call.address) message

namespace Infer

variable {s : Session} {call : Call}

theorem run_indirectTarget {found : Option PointerOrigin} (hcall : call.target = .implicit found) :
    (indirectTarget c call).run s = (do
      match ← targetOfOrigin c s.toRun found with
      | .ok target => return (some target, s)
      | .error failure =>
        let message ← failure.message s.db
        return (none, { s with toRun := s.toRun.report (call.unresolved message) })) := by
  unfold indirectTarget
  rw [hcall]
  dsimp only
  rw [run_get_bind, run_lift_bind]
  congr 1
  funext found
  cases found with
  | ok target => rfl
  | error failure =>
    dsimp only
    rw [run_lift_bind]
    rfl

theorem indirectTarget_of_comment {m : Member} {text : String} {a : Nat} {w : List Char}
    (hcall : call.target = .implicit (some origin))
    (hpass : c.settings.isEnabled .annotationFallback = true) (hland : origin.Lands s.toRun member)
    (hnone : s.db.callTarget? member = none)
    (hm : (s.db.layout? member.struct).bind (·.members.get? member.offset) = some m)
    (hcomment : m.comment = some text) (hfirst : Address.FirstSpelled text w a) :
    (indirectTarget c call).run s = .ok (if c.program.isFunctionStart a then (some a, s)
      else (none, { s with toRun := s.toRun.report (call.unresolved ("member target " ++
        Numeral.marked a ++ " is not a function")) })) := by
  have htext := Address.inText?_eq_some_iff.2 ⟨w, hfirst⟩
  rw [run_indirectTarget hcall, targetOfOrigin_of_lands hland,
    memberTarget?_of_comment hpass hnone hm hcomment htext]
  by_cases hstart : c.program.isFunctionStart a = true
  · simp only [hstart]
    rfl
  · simp only [hstart]
    rfl

/-- An indirect call lands on a member that has no recorded target, and some word of its comment
names a function. Then the first word that can be read as an address decides: the call goes to the
function that starts there, or is unresolved if none does. So the function that was named is found
if no word before it can be read. -/
theorem first_written_address_decides (c : Context) (s : Session) (call : Call)
    (origin : PointerOrigin) (member : MemberRef) (m : Member) (text : String) (w : List Char)
    (n : Nat) (hcall : call.target = .implicit (some origin))
    (hpass : c.settings.isEnabled .annotationFallback = true) (hland : origin.Lands s.toRun member)
    (hnone : s.db.callTarget? member = none)
    (hm : (s.db.layout? member.struct).bind (·.members.get? member.offset) = some m)
    (hcomment : m.comment = some text) (hw : w ∈ Address.words text) (hnames : Address.Names w n)
    (hstart : c.program.isFunctionStart n = true) :
    (∃ first a, Address.FirstSpelled text first a ∧
      (indirectTarget c call).run s = .ok (if c.program.isFunctionStart a then (some a, s)
        else (none, { s with toRun := s.toRun.report (call.unresolved ("member target " ++
          Numeral.marked a ++ " is not a function")) }))) ∧
    (Address.FirstSpelled text w n → (indirectTarget c call).run s = .ok (some n, s)) := by
  constructor
  · obtain ⟨first, a, hfirst⟩ := Address.exists_firstSpelled hw hnames.spells
    exact ⟨first, a, hfirst, indirectTarget_of_comment hcall hpass hland hnone hm hcomment hfirst⟩
  · intro hfirst
    rw [indirectTarget_of_comment hcall hpass hland hnone hm hcomment hfirst, if_pos hstart]

/-- The words before the name of the function are no addresses, and those after it do not count. -/
theorem first_written_address_decides_named :
    let p : Variable := .local 4096 0
    let call : Call := { address := 4104, target := .implicit (some ⟨p, [.add 8, .deref]⟩) }
    let text := "calls the handler (sub_2000), not 0x10 each"
    let run : Member := {
      offset := 8
      name := "run"
      type := .pointer .void
      size := 8
      comment := some text }
    let node : Layout := { id := ⟨0⟩, name := "node", members := .ofList [(8, run)], size := 16 }
    let db : Database := {
      structs := .ofList [(⟨0⟩, node)]
      declared := .ofList [(p, .structPointer ⟨0⟩)]
      nextId := 1 }
    let f : FunctionBody := {
      address := 4096
      locals := [{ name := "a1", isArg := true }]
      calls := [call] }
    let c : Context := {
      program := (Program.addFunction {} f).addFunction { address := 8192 }
      settings := {} }
    let s : Session := {
      Session.start db with vars := .ofList [(p, .resolved (.structPointer ⟨0⟩))] }
    (analyzeVariable c p).run (Session.start db) = .ok (.structPointer ⟨0⟩, s) ∧
      PointerOrigin.Lands s.toRun ⟨p, [.add 8, .deref]⟩ ⟨⟨0⟩, 8⟩ ∧
      (indirectTarget c call).run s = .ok (some 8192, s) := by
  intro p call text run node db f c s
  have hland : PointerOrigin.Lands s.toRun ⟨p, [.add 8, .deref]⟩ ⟨⟨0⟩, 8⟩ :=
    ⟨⟨.pointer .void, some ⟨⟨0⟩, 8⟩⟩, rfl, rfl⟩
  refine ⟨rfl, hland, ?_⟩
  have hnames : Address.Names "sub_2000".toList 8192 :=
    ⟨"sub_".toList, by decide, "2000".toList, rfl, rfl, by decide⟩
  refine (first_written_address_decides c s call _ _ run text _ 8192 rfl rfl hland rfl rfl rfl
    (by decide) hnames rfl).2 ?_
  refine ⟨["calls", "the", "handler", ""].map String.toList,
    ["", "", "not", "0x10", "each"].map String.toList, by decide, ?_, hnames.spells⟩
  intro v hv b hspells
  have hplain : ∀ v ∈ ["calls", "the", "handler", ""].map String.toList,
      v ∈ Address.words text ∧ Address.parseChars? v = none := by decide
  obtain ⟨hword, hnone⟩ := hplain v hv
  rw [(Address.parseChars?_of_mem_words hword).2 hspells] at hnone
  cases hnone

/-- A plain word hides the function that is named after it: without its last letter it is a
hexadecimal number. -/
theorem plain_word_hides_function :
    let p : Variable := .local 4096 0
    let call : Call := { address := 4104, target := .implicit (some ⟨p, [.add 8, .deref]⟩) }
    let text := "each handler 0x2000"
    let run : Member := {
      offset := 8
      name := "run"
      type := .pointer .void
      size := 8
      comment := some text }
    let node : Layout := { id := ⟨0⟩, name := "node", members := .ofList [(8, run)], size := 16 }
    let db : Database := {
      structs := .ofList [(⟨0⟩, node)]
      declared := .ofList [(p, .structPointer ⟨0⟩)]
      nextId := 1 }
    let f : FunctionBody := {
      address := 4096
      locals := [{ name := "a1", isArg := true }]
      calls := [call] }
    let c : Context := {
      program := (Program.addFunction {} f).addFunction { address := 8192 }
      settings := {} }
    let s : Session := {
      Session.start db with vars := .ofList [(p, .resolved (.structPointer ⟨0⟩))] }
    Address.words text = ["each", "handler", "0x2000"].map String.toList ∧
      Address.Names "0x2000".toList 8192 ∧ c.program.isFunctionStart 8192 = true ∧
      (analyzeVariable c p).run (Session.start db) = .ok (.structPointer ⟨0⟩, s) ∧
      PointerOrigin.Lands s.toRun ⟨p, [.add 8, .deref]⟩ ⟨⟨0⟩, 8⟩ ∧
      s.db.callTarget? ⟨⟨0⟩, 8⟩ = none ∧
      (indirectTarget c call).run s = .ok (none, { s with
        diagnostics := [call.unresolved ("member target " ++ Numeral.marked 0xeac ++
          " is not a function")] }) := by
  intro p call text run node db f c s
  have hnames : Address.Names "0x2000".toList 8192 :=
    ⟨"0x".toList, by decide, "2000".toList, rfl, rfl, by decide⟩
  have hland : PointerOrigin.Lands s.toRun ⟨p, [.add 8, .deref]⟩ ⟨⟨0⟩, 8⟩ :=
    ⟨⟨.pointer .void, some ⟨⟨0⟩, 8⟩⟩, rfl, rfl⟩
  have hwords : Address.words text = ["each", "handler", "0x2000"].map String.toList := by decide
  have hword : "each".toList ∈ Address.words text := by decide
  have heach : Address.Spells "each".toList 0xeac :=
    (Address.parseChars?_of_mem_words hword).1 (by decide)
  refine ⟨hwords, hnames, rfl, rfl, hland, rfl, ?_⟩
  have hfirst : Address.FirstSpelled text "each".toList 0xeac :=
    ⟨[], ["handler", "0x2000"].map String.toList, hwords, by simp, heach⟩
  rw [indirectTarget_of_comment rfl rfl hland rfl rfl rfl hfirst]
  rfl

end Infer
end TypeRecovery
