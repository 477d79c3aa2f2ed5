import TypeRecovery.Proofs.Annotations

/-!
# The grammar of written addresses

Blanks around an address do not count. What is left is a mark followed by hexadecimal digits, or
digits followed by an `h`, of the value of a machine word (`Address.Written`). The reader takes one
thing more: a plus sign may precede the digits. No address is ever written with one, so addresses
are read back in each of the three spellings.
-/
namespace TypeRecovery

namespace Text

variable {cs core : List Char}

/-- Nothing but blanks stands around the core. -/
def Surrounded (cs core : List Char) : Prop :=
  ∃ before after, cs = before ++ core ++ after ∧ (∀ c ∈ before, isBlank c = true) ∧
    ∀ c ∈ after, isBlank c = true

theorem surrounded_self (cs : List Char) : Surrounded cs cs :=
  ⟨[], [], by simp, by simp, by simp⟩

theorem surrounded_trim (cs : List Char) : Surrounded cs (trim cs) := by
  have hblank {l : List Char} {c : Char} (hc : c ∈ l.takeWhile isBlank) : isBlank c = true :=
    List.all_eq_true.1 List.all_takeWhile c hc
  refine ⟨cs.takeWhile isBlank, ((cs.dropWhile isBlank).reverse.takeWhile isBlank).reverse, ?_,
    fun c hc => hblank hc, fun c hc => hblank (List.mem_reverse.1 hc)⟩
  rw [trim, List.append_assoc, ← List.reverse_append, List.takeWhile_append_dropWhile,
    List.reverse_reverse, List.takeWhile_append_dropWhile]

theorem trim_of_surrounded (h : Surrounded cs core) (hcore : ∀ c ∈ core, isBlank c = false) :
    trim cs = core := by
  obtain ⟨before, after, rfl, hbefore, hafter⟩ := h
  rw [trim, List.append_assoc, List.dropWhile_append_of_pos hbefore]
  cases core with
  | nil =>
    have hnil : after.dropWhile isBlank = [] := List.dropWhile_eq_nil_iff.2 hafter
    simp [hnil]
  | cons c rest =>
    have hhead : isBlank c = false := hcore c List.mem_cons_self
    have hlast : ∀ c ∈ after.reverse, isBlank c = true := by simpa using hafter
    have hrest : ((c :: rest).reverse.dropWhile isBlank) = (c :: rest).reverse := by
      have htrim := Address.trim_eq_self hcore
      rw [trim, List.dropWhile_cons_of_neg (by simp [hhead])] at htrim
      exact List.reverse_eq_iff.1 htrim
    rw [List.cons_append, List.dropWhile_cons_of_neg (by simp [hhead]), ← List.cons_append,
      List.reverse_append, List.dropWhile_append_of_pos hlast, hrest, List.reverse_reverse]

end Text

namespace Numeral

variable {c : Char} {cs : List Char} {d n : Nat}

/-- A hexadecimal digit, in lower or upper case, and what it stands for. -/
def HexDigit (c : Char) (d : Nat) : Prop :=
  d < 16 ∧ (c = d.digitChar ∨ c = d.digitChar.toUpper)

instance (c : Char) (d : Nat) : Decidable (HexDigit c d) :=
  inferInstanceAs (Decidable (_ ∧ _))

/-- One or more hexadecimal digits and their value, with any number of zeros in front. -/
inductive Hex : List Char → Nat → Prop
  | digit {c : Char} {d : Nat} (hd : HexDigit c d) : Hex [c] d
  | append {cs : List Char} {c : Char} {n d : Nat} (hcs : Hex cs n) (hd : HexDigit c d) :
      Hex (cs ++ [c]) (n * 16 + d)

theorem hexDigit?_eq_some_iff : hexDigit? c = some d ↔ HexDigit c d := by
  constructor
  · -- each of the three ranges of characters is gone through
    have hdecimal : ∀ k < 58, 48 ≤ k → HexDigit (Char.ofNat k) (k - 48) := by decide
    have hlower : ∀ k < 103, 97 ≤ k → HexDigit (Char.ofNat k) (k - 97 + 10) := by decide
    have hupper : ∀ k < 71, 65 ≤ k → HexDigit (Char.ofNat k) (k - 65 + 10) := by decide
    intro h
    rw [← Char.ofNat_toNat c]
    unfold hexDigit? at h
    split at h
    case isTrue hc =>
      cases h
      exact hdecimal c.toNat (Nat.lt_succ_of_le hc.2) hc.1
    case isFalse =>
      split at h
      case isTrue hc =>
        cases h
        exact hlower c.toNat (Nat.lt_succ_of_le hc.2) hc.1
      case isFalse =>
        split at h
        case isTrue hc =>
          cases h
          exact hupper c.toNat (Nat.lt_succ_of_le hc.2) hc.1
        case isFalse => cases h
  · have hread : ∀ d < 16, hexDigit? d.digitChar = some d ∧
        hexDigit? d.digitChar.toUpper = some d := by decide
    rintro ⟨hd, rfl | rfl⟩
    · exact (hread d hd).1
    · exact (hread d hd).2

theorem hexValue?_concat : hexValue? (cs ++ [c]) = some n ↔
    ∃ d, HexDigit c d ∧ (cs = [] ∧ n = d ∨ ∃ k, hexValue? cs = some k ∧ n = k * 16 + d) := by
  have hfold : hexValue? (cs ++ [c]) =
      (value? 16 hexDigit? cs).bind fun k => (hexDigit? c).map fun d => k * 16 + d := by
    rw [hexValue?, if_neg (by simp), value?, List.foldlM_append]
    simp [value?]
  simp only [hfold, Option.bind_eq_some_iff, Option.map_eq_some_iff, hexDigit?_eq_some_iff]
  cases cs with
  | nil => simp [value?, hexValue?, eq_comm]
  | cons first rest =>
    simp only [hexValue?, List.isEmpty_cons, Bool.false_eq_true, if_false, reduceCtorEq, false_and,
      false_or]
    constructor
    · rintro ⟨k, hk, d, hd, rfl⟩
      exact ⟨d, hd, k, hk, rfl⟩
    · rintro ⟨d, hd, k, hk, rfl⟩
      exact ⟨k, hk, d, hd, rfl⟩

theorem hexValue?_eq_some_iff : hexValue? cs = some n ↔ Hex cs n := by
  constructor
  · intro h
    induction cs using List.reverseRecOn generalizing n with
    | nil => cases h
    | append_singleton cs c ih =>
      obtain ⟨d, hd, ⟨rfl, rfl⟩ | ⟨k, hk, rfl⟩⟩ := hexValue?_concat.1 h
      · exact .digit hd
      · exact .append (ih hk) hd
  · intro h
    induction h with
    | @digit c d hd =>
      rw [← List.nil_append [c]]
      exact hexValue?_concat.2 ⟨d, hd, .inl ⟨rfl, rfl⟩⟩
    | append _ hd ih => exact hexValue?_concat.2 ⟨_, hd, .inr ⟨_, ih, rfl⟩⟩

theorem Hex.hexDigit_of_mem (h : Hex cs n) (hc : c ∈ cs) : ∃ d, HexDigit c d := by
  induction h with
  | @digit c' d hd => exact ⟨d, List.mem_singleton.1 hc ▸ hd⟩
  | append _ hd ih =>
    rcases List.mem_append.1 hc with hc | hc
    · exact ih hc
    · exact ⟨_, List.mem_singleton.1 hc ▸ hd⟩

theorem hex_toDigits (n : Nat) : Hex (Nat.toDigits 16 n) n := by
  rw [← hexValue?_eq_some_iff, hexValue?, if_neg (by simp [Nat.toDigits_ne_nil]), value?_hex]

end Numeral

namespace Address

open Numeral (Hex HexDigit)
open Text (Surrounded)

variable {sign core : List Char} {text : String} {n : Nat}

/-- What may stand right before the digits. -/
def signs : List (List Char) := [[], ['+']]

/-- The spellings of an address, with a sign before the digits. -/
inductive Written (sign : List Char) : List Char → Nat → Prop
  | marked {mark ds : List Char} {n : Nat} (hmark : mark ∈ marks) (hds : Hex ds n)
      (hn : n < Word.bound) : Written sign (mark ++ (sign ++ ds)) n
  | suffixed {ds : List Char} {n : Nat} (hds : Hex ds n) (hn : n < Word.bound) :
      Written sign (sign ++ ds ++ ['h']) n

theorem digits_iff {ds : List Char} : Digits ds n ↔
    ∃ sign ∈ signs, ∃ digits, ds = sign ++ digits ∧ Hex digits n ∧ n < Word.bound := by
  simp only [Digits, Numeral.hexValue?_eq_some_iff, signs, List.mem_cons, List.not_mem_nil,
    or_false, exists_eq_left, List.nil_append, List.cons_append, or_and_right, exists_or]

theorem Written.mem_cases (h : Written sign core n) {c : Char} (hc : c ∈ core) :
    c ∈ sign ∨ c ∈ "0xXsub_h".toList ∨ ∃ d, HexDigit c d := by
  cases h with
  | @marked mark ds n hmark hds =>
    rcases List.mem_append.1 hc with hc | hc
    · have hmarks : ∀ mark ∈ marks, ∀ c ∈ mark, c ∈ "0xXsub_h".toList := by simp [marks]
      exact .inr (.inl (hmarks mark hmark c hc))
    · rcases List.mem_append.1 hc with hc | hc
      · exact .inl hc
      · exact .inr (.inr (hds.hexDigit_of_mem hc))
  | @suffixed ds n hds =>
    rcases List.mem_append.1 hc with hc | hc
    · rcases List.mem_append.1 hc with hc | hc
      · exact .inl hc
      · exact .inr (.inr (hds.hexDigit_of_mem hc))
    · rw [List.mem_singleton.1 hc]
      exact .inr (.inl (by decide))

theorem Written.isBlank_eq_false (h : Written sign core n) (hsign : sign ∈ signs) {c : Char}
    (hc : c ∈ core) : Text.isBlank c = false := by
  rcases h.mem_cases hc with hc | hc | ⟨d, hd⟩
  · have hplus : ∀ sign ∈ signs, ∀ c ∈ sign, Text.isBlank c = false := by
      simp only [signs, List.mem_cons, List.not_mem_nil, or_false, forall_eq_or_imp, forall_eq,
        false_implies, implies_true, true_and]
      decide
    exact hplus sign hsign c hc
  · have hplain : "0xXsub_h".toList.all fun c => !Text.isBlank c := by decide
    simpa using List.all_eq_true.1 hplain c hc
  · exact isBlank_of_hexDigit? (by simp [Numeral.hexDigit?_eq_some_iff.2 hd])

/-- Digits before an `h` do not begin with a mark: each mark has a letter that is no digit. -/
theorem not_mark_prefix {ds : List Char} (hsign : sign ∈ signs) (hds : Hex ds n)
    {mark : List Char} (hmark : mark ∈ marks) : ¬ mark <+: sign ++ ds ++ ['h'] := by
  intro hprefix
  have hletter : ∃ c ∈ mark, c ∈ ['x', 'X', 'u'] := by
    have hmarks : marks.all fun mark => mark.any fun c => c ∈ ['x', 'X', 'u'] := by decide
    simpa using List.all_eq_true.1 hmarks mark hmark
  obtain ⟨c, hc, hletter⟩ := hletter
  have hmem : c ∈ sign ++ ds ++ ['h'] := hprefix.subset hc
  have hapart : ['x', 'X', 'u'].all fun c =>
      c ≠ '+' && c ≠ 'h' && (Numeral.hexDigit? c).isNone := by decide
  have hc := List.all_eq_true.1 hapart c hletter
  simp only [Bool.and_eq_true, decide_eq_true_eq, Option.isNone_iff_eq_none] at hc
  rcases List.mem_append.1 hmem with hmem | hmem
  · rcases List.mem_append.1 hmem with hmem | hmem
    · simp only [signs, List.mem_cons, List.not_mem_nil, or_false] at hsign
      rcases hsign with rfl | rfl
      · cases hmem
      · exact hc.1.1 (List.mem_singleton.1 hmem)
    · obtain ⟨d, hd⟩ := hds.hexDigit_of_mem hmem
      rw [Numeral.hexDigit?_eq_some_iff.2 hd] at hc
      cases hc.2
  · exact hc.1.2 (List.mem_singleton.1 hmem)

theorem Written.digits? (h : Written sign core n) (hsign : sign ∈ signs) :
    ∃ ds, digits? core = some ds ∧ Digits ds n := by
  cases h with
  | @marked mark ds n hmark hds hn =>
    exact ⟨sign ++ ds, digits?_of_mark hmark _, digits_iff.2 ⟨sign, hsign, ds, rfl, hds, hn⟩⟩
  | @suffixed ds n hds hn =>
    refine ⟨sign ++ ds, ?_, digits_iff.2 ⟨sign, hsign, ds, rfl, hds, hn⟩⟩
    exact digits?_eq_some_iff.2 (.inr ⟨fun mark hmark => not_mark_prefix hsign hds hmark, rfl⟩)

theorem parse?_eq_some_iff : parse? text = some n ↔
    ∃ sign ∈ signs, ∃ core, Surrounded text.toList core ∧ Written sign core n := by
  rw [parse?, parseChars?, Option.bind_eq_some_iff]
  simp only [word?_eq_some_iff]
  constructor
  · rintro ⟨ds, hdigits, hds⟩
    obtain ⟨sign, hsign, digits, rfl, hhex, hn⟩ := digits_iff.1 hds
    refine ⟨sign, hsign, Text.trim text.toList, Text.surrounded_trim _, ?_⟩
    rcases digits?_eq_some_iff.1 hdigits with ⟨mark, hmark, hcore⟩ | ⟨_, hcore⟩
    · rw [hcore]
      exact .marked hmark hhex hn
    · rw [hcore]
      exact .suffixed hhex hn
  · rintro ⟨sign, hsign, core, hsurrounded, hcore⟩
    rw [Text.trim_of_surrounded hsurrounded fun c hc => hcore.isBlank_eq_false hsign hc]
    exact hcore.digits? hsign

theorem Written.plus_mem (h : Written ['+'] core n) : '+' ∈ core := by
  cases h <;> simp

/-- A text is read as an address exactly if, blanks around it apart, it is a mark and hexadecimal
digits, or digits and an `h`, of the value of a machine word, where a plus sign may precede the
digits. A text without a plus sign is therefore read exactly if it is spelled as addresses are.
Every machine word is read back in each spelling. -/
theorem addresses_read_by_grammar (text : String) (n : Nat) :
    (parse? text = some n ↔
      ∃ sign ∈ signs, ∃ core, Surrounded text.toList core ∧ Written sign core n) ∧
    ('+' ∉ text.toList →
      (parse? text = some n ↔ ∃ core, Surrounded text.toList core ∧ Written [] core n)) ∧
    (n < Word.bound → parse? (Numeral.marked n) = some n ∧
      parse? ("sub_" ++ Numeral.hex n) = some n ∧ parse? (Numeral.hex n ++ "h") = some n) := by
  refine ⟨parse?_eq_some_iff, fun hplus => ?_, fun hn => ⟨parse?_marked hn, ?_, ?_⟩⟩
  · rw [parse?_eq_some_iff]
    constructor
    · rintro ⟨sign, hsign, core, hsurrounded, hcore⟩
      simp only [signs, List.mem_cons, List.not_mem_nil, or_false] at hsign
      rcases hsign with rfl | rfl
      · exact ⟨core, hsurrounded, hcore⟩
      · obtain ⟨before, after, htext, _⟩ := hsurrounded
        exact absurd (by simp [htext, hcore.plus_mem]) hplus
    · rintro ⟨core, hcore⟩
      exact ⟨[], by decide, core, hcore⟩
  · refine parse?_eq_some_iff.2 ⟨[], by decide, _, Text.surrounded_self _, ?_⟩
    have hwritten : Written [] ("sub_".toList ++ ([] ++ Nat.toDigits 16 n)) n :=
      .marked (by decide) (Numeral.hex_toDigits n) hn
    simpa [Numeral.hex] using hwritten
  · refine parse?_eq_some_iff.2 ⟨[], by decide, _, Text.surrounded_self _, ?_⟩
    have hwritten : Written [] ([] ++ Nat.toDigits 16 n ++ ['h']) n :=
      .suffixed (Numeral.hex_toDigits n) hn
    simpa [Numeral.hex] using hwritten

/-- Blanks around it, leading zeros and letters of both cases do not keep an address from being
read, and the largest word is read back. -/
theorem addresses_read_by_grammar_padded :
    '+' ∉ "\t sub_00fF\n".toList ∧ parse? "\t sub_00fF\n" = some 255 ∧
      parse? "0xffffffffffffffff" = some Word.max ∧ parse? "sub_ffffffffffffffff" = some Word.max ∧
      parse? "ffffffffffffffffh" = some Word.max := by
  have hplus : '+' ∉ "\t sub_00fF\n".toList := by decide
  have hhex : Hex "00fF".toList 255 := Numeral.hexValue?_eq_some_iff.1 (by decide)
  have hwritten : Written [] ("sub_".toList ++ ([] ++ "00fF".toList)) 255 :=
    .marked (by decide) hhex (by decide)
  have hback := (addresses_read_by_grammar "" Word.max).2.2 (by decide)
  refine ⟨hplus, ?_, hback⟩
  exact ((addresses_read_by_grammar _ 255).2.1 hplus).2
    ⟨_, ⟨"\t ".toList, "\n".toList, by decide, List.all_eq_true.1 (by decide),
      List.all_eq_true.1 (by decide)⟩, hwritten⟩

/-- A plus sign is read although no address is spelled with one. -/
theorem signed_address_read :
    parse? "0x+10" = some 16 ∧ ¬ ∃ core, Surrounded "0x+10".toList core ∧ Written [] core 16 := by
  refine ⟨by decide, ?_⟩
  rintro ⟨core, ⟨before, after, htext, hbefore, hafter⟩, hcore⟩
  have hplus : '+' ∈ before ++ core ++ after := htext ▸ by decide
  rcases List.mem_append.1 hplus with hplus | hplus
  · rcases List.mem_append.1 hplus with hplus | hplus
    · exact absurd (hbefore _ hplus) (by decide)
    · rcases hcore.mem_cases hplus with hplus | hplus | ⟨d, hd⟩
      · cases hplus
      · exact absurd hplus (by decide)
      · have hnone : Numeral.hexDigit? '+' = none := by decide
        rw [Numeral.hexDigit?_eq_some_iff.2 hd] at hnone
        cases hnone
  · exact absurd (hafter _ hplus) (by decide)

end Address
end TypeRecovery
