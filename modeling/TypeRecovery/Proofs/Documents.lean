import Mathlib.Data.List.TakeWhile
import TypeRecovery.Json.Printer
import TypeRecovery.Json.Reader
import TypeRecovery.Proofs.Numerals

/-!
# Reading documents back

A value that is printed is read back from its text. The lexer cuts the text into the tokens of the
value, whatever its indentation, and the tokens are assembled into the value again as long as it
nests at most `Json.maxNesting` levels.
-/
namespace TypeRecovery

namespace Numeral

theorem head?_toDigits {n : Nat} (h : n ≠ 0) : (Nat.toDigits 10 n).head? ≠ some '0' := by
  induction n using Nat.strongRecOn with
  | ind n ih =>
    rw [Nat.toDigits_eq_if (by decide)]
    split
    case isTrue hlt =>
      have hdigits : ∀ d < 10, d ≠ 0 → d.digitChar ≠ '0' := by decide
      simpa using hdigits n hlt h
    case isFalse hle =>
      rw [List.head?_append_of_ne_nil _ Nat.toDigits_ne_nil]
      exact ih (n / 10) (Nat.div_lt_self (by omega) (by decide)) (by omega)

theorem canonical?_toDigits (n : Nat) : canonical? (Nat.toDigits 10 n) = some n := by
  by_cases hzero : n = 0
  · subst hzero
    rfl
  · have hhead := head?_toDigits hzero
    have hvalue := value?_decimal n
    unfold canonical?
    split
    case h_1 heq => simp [heq] at hhead
    case h_2 heq => simp [heq] at hhead
    case h_3 => simpa [decimalValue?, Nat.toDigits_ne_nil] using hvalue

theorem isDigit_of_mem_toDigits {n : Nat} {c : Char} (h : c ∈ Nat.toDigits 10 n) :
    c.isDigit = true :=
  Nat.isDigit_of_mem_toDigits (by decide) (by decide) h

end Numeral

namespace Json

/-- Strings spell texts, names need no escapes, and numbers are integers. -/
inductive Written : Json → Prop
  | null : Written null
  | bool (b : Bool) : Written (bool b)
  | int (n : Int) : Written (int n)
  | text (s : String) : Written (text s)
  | arr {items : List Json} (h : ∀ j ∈ items, Written j) : Written (arr items)
  | obj {fields : List (String × Json)} (hnames : ∀ f ∈ fields, spell f.1 = f.1)
      (h : ∀ f ∈ fields, Written f.2) : Written (obj fields)

mutual

/-- How many lists and objects stand one inside the other. -/
def nesting : Json → Nat
  | arr items => nestingItems items + 1
  | obj fields => nestingFields fields + 1
  | _ => 0

def nestingItems : List Json → Nat
  | [] => 0
  | j :: rest => max j.nesting (nestingItems rest)

def nestingFields : List (String × Json) → Nat
  | [] => 0
  | (_, j) :: rest => max j.nesting (nestingFields rest)

end

mutual

/-- The tokens of a value, in order. -/
def tokens : Json → List Token
  | arr [] => [.openList, .closeList]
  | obj [] => [.openObject, .closeObject]
  | arr (j :: rest) => .openList :: tokens j ++ itemTokens rest ++ [.closeList]
  | obj ((k, j) :: rest) =>
    .openObject :: .atom (str k) :: .colon :: tokens j ++ fieldTokens rest ++ [.closeObject]
  | j => [.atom j]

def itemTokens : List Json → List Token
  | [] => []
  | j :: rest => .comma :: tokens j ++ itemTokens rest

def fieldTokens : List (String × Json) → List Token
  | [] => []
  | (k, j) :: rest => .comma :: .atom (str k) :: .colon :: tokens j ++ fieldTokens rest

end

namespace Lexer

/-- The tokens so far, in reverse, once the text ends or a comma or a new line follows. A word or a
number may still be open. -/
structure Holds (l : Lexer) (ts : List Token) : Prop where
  finish : l.finish = some ts.reverse
  step : ∀ {c}, c = ',' ∨ c = '\n' → l.step c = open? ts c

theorem holds_between (ts : List Token) : Holds ⟨.between, ts⟩ ts := ⟨rfl, fun _ => rfl⟩

theorem holds_word {read : List Char} {v : Json} {ts : List Token}
    (h : wordValue? read.reverse = some v) : Holds ⟨.word read, ts⟩ (.atom v :: ts) where
  finish := by simp [finish, h]
  step := by
    rintro c (rfl | rfl) <;> simp [step, isLetter, h]

theorem holds_number {read : List Char} {v : Json} {ts : List Token}
    (h : numberValue? read.reverse = some v) : Holds ⟨.number read, ts⟩ (.atom v :: ts) where
  finish := by simp [finish, h]
  step := by
    rintro c (rfl | rfl) <;> simp [step, isNumberChar, h]

theorem foldlM_newline (level : Nat) (ts : List Token) :
    (newline level).foldlM step ⟨.between, ts⟩ = some ⟨.between, ts⟩ := by
  have hblanks : ∀ n, (List.replicate n ' ').foldlM step ⟨.between, ts⟩ =
      some ⟨.between, ts⟩ := by
    intro n
    induction n with
    | zero => rfl
    | succ n ih => exact ih
  exact hblanks _

theorem Holds.foldlM_newline {l : Lexer} {ts : List Token} (h : l.Holds ts) (level : Nat) :
    (newline level).foldlM Lexer.step l = some ⟨.between, ts⟩ := by
  have hstep : l.step '\n' = Lexer.step ⟨.between, ts⟩ '\n' := h.step (.inr rfl)
  rw [← Lexer.foldlM_newline level ts]
  simp only [newline, List.foldlM_cons, hstep]

theorem foldlM_number {cs : List Char} (h : ∀ c ∈ cs, isNumberChar c = true) (read : List Char)
    (ts : List Token) :
    cs.foldlM step ⟨.number read, ts⟩ = some ⟨.number (cs.reverse ++ read), ts⟩ := by
  induction cs generalizing read with
  | nil => rfl
  | cons c rest ih =>
    have hc : step ⟨.number read, ts⟩ c = some ⟨.number (c :: read), ts⟩ := by
      simp [step, h c (by simp)]
    rw [List.foldlM_cons, hc]
    simpa using ih (fun c' hc' => h c' (by simp [hc'])) (c :: read)

theorem open?_digit {c : Char} (h : c.isDigit = true) (ts : List Token) :
    open? ts c = some ⟨.number [c], ts⟩ := by
  have hne : ∀ x : Char, x.isDigit = false → c ≠ x := by
    rintro x hx rfl
    simp [h] at hx
  have hletter : isLetter c = false := by
    simp only [Char.isDigit, ge_iff_le, Bool.and_eq_true, decide_eq_true_eq] at h
    simp only [isLetter, Bool.and_eq_false_iff, decide_eq_false_iff_not]
    exact .inl fun ha => absurd (UInt32.le_trans ha h.2) (by decide)
  simp [open?, isSpace, hletter, h, hne ' ' rfl, hne '\n' rfl, hne '\r' rfl, hne '\t' rfl,
    hne '[' rfl, hne ']' rfl, hne '\x7b' rfl, hne '\x7d' rfl, hne ',' rfl, hne ':' rfl,
    hne '"' rfl]

theorem isNumberChar_of_isDigit {c : Char} (h : c.isDigit = true) : isNumberChar c = true := by
  simp [isNumberChar, h]

theorem unsignedValue?_toDigits (negative : Bool) (literal : List Char) (n : Nat) :
    unsignedValue? negative literal (Nat.toDigits 10 n) =
      if negative then
        if n = 0 then some (.real (String.ofList literal)) else some (.int (-(n : Int)))
      else some (.int n) := by
  have hdigits : ∀ c ∈ Nat.toDigits 10 n, c.isDigit = true := fun _ =>
    Numeral.isDigit_of_mem_toDigits
  simp [unsignedValue?, List.takeWhile_eq_self_iff.2 hdigits, List.dropWhile_eq_nil_iff.2 hdigits,
    Numeral.canonical?_toDigits]

theorem numberValue?_signed (n : Int) :
    numberValue? (Numeral.signed n).toList = some (.int n) := by
  cases n with
  | ofNat n =>
    have hminus : ∀ cs, Nat.toDigits 10 n ≠ '-' :: cs := by
      intro cs heq
      have hdigit := Numeral.isDigit_of_mem_toDigits (n := n) (c := '-') (by simp [heq])
      exact absurd hdigit (by decide)
    have hvalue := unsignedValue?_toDigits false (Nat.toDigits 10 n) n
    simp only [Numeral.signed, Numeral.decimal, String.toList_ofList]
    unfold numberValue?
    split
    case h_1 cs heq => exact absurd heq (hminus cs)
    case h_2 => simpa using hvalue
  | negSucc n =>
    have hvalue := unsignedValue?_toDigits true ('-' :: Nat.toDigits 10 (n + 1)) (n + 1)
    simpa [Numeral.signed, Numeral.decimal, numberValue?, Int.negSucc_eq] using hvalue

theorem foldlM_signed (n : Int) (ts : List Token) :
    (Numeral.signed n).toList.foldlM step ⟨.between, ts⟩ =
      some ⟨.number (Numeral.signed n).toList.reverse, ts⟩ := by
  have hdigits : ∀ (m : Nat), ∀ c ∈ Nat.toDigits 10 m, isNumberChar c = true := fun m c hc =>
    isNumberChar_of_isDigit (Numeral.isDigit_of_mem_toDigits hc)
  cases n with
  | ofNat n =>
    simp only [Numeral.signed, Numeral.decimal, String.toList_ofList]
    cases hcs : Nat.toDigits 10 n with
    | nil => exact absurd hcs Nat.toDigits_ne_nil
    | cons c rest =>
      have hfirst : step ⟨.between, ts⟩ c = some ⟨.number [c], ts⟩ :=
        open?_digit (Numeral.isDigit_of_mem_toDigits (n := n) (by simp [hcs])) ts
      have hrest : ∀ c' ∈ rest, isNumberChar c' = true := fun c' hc' =>
        hdigits n c' (by simp [hcs, hc'])
      rw [List.foldlM_cons, hfirst]
      simpa using foldlM_number hrest [c] ts
  | negSucc n =>
    have hfirst : step ⟨.between, ts⟩ '-' = some ⟨.number ['-'], ts⟩ := rfl
    have hnumber := foldlM_number (hdigits (n + 1)) ['-'] ts
    simpa [Numeral.signed, Numeral.decimal, hfirst] using hnumber

theorem isSome_hexDigit? : ∀ n < 32, (Numeral.hexDigit? (hexDigitChar (n / 16))).isSome = true ∧
    (Numeral.hexDigit? (hexDigitChar n)).isSome = true := by decide

theorem foldlM_escape (c : Char) (read : List Char) (ts : List Token) :
    (escape c).foldlM step ⟨.text read, ts⟩ =
      some ⟨.text ((escape c).reverse ++ read), ts⟩ := by
  unfold escape
  repeat' split
  all_goals try rfl
  case isTrue hcontrol =>
    obtain ⟨hhigh, hlow⟩ := isSome_hexDigit? _ hcontrol
    obtain ⟨high, hhigh⟩ := Option.isSome_iff_exists.1 hhigh
    obtain ⟨low, hlow⟩ := Option.isSome_iff_exists.1 hlow
    have hzero : Numeral.hexDigit? '0' = some 0 := rfl
    simp [step, hzero, hhigh, hlow]
  case isFalse => simp_all [step]

theorem foldlM_escapes (cs read : List Char) (ts : List Token) :
    (cs.flatMap escape).foldlM step ⟨.text read, ts⟩ =
      some ⟨.text ((cs.flatMap escape).reverse ++ read), ts⟩ := by
  induction cs generalizing read with
  | nil => rfl
  | cons c cs ih =>
    rw [List.flatMap_cons, List.foldlM_append, foldlM_escape]
    simpa using ih ((escape c).reverse ++ read)

theorem foldlM_quote_spell (s : String) (ts : List Token) :
    (quote (spell s)).foldlM step ⟨.between, ts⟩ =
      some ⟨.between, .atom (str (spell s)) :: ts⟩ := by
  have hopen : step ⟨.between, ts⟩ '"' = some ⟨.text [], ts⟩ := rfl
  have hclose : ∀ read, step ⟨.text read, ts⟩ '"' =
      some ⟨.between, .atom (str (String.ofList read.reverse)) :: ts⟩ := fun _ => rfl
  simp [quote, spell, hopen, hclose, foldlM_escapes]

theorem foldlM_quote {name : String} (h : spell name = name) (ts : List Token) :
    (quote name).foldlM step ⟨.between, ts⟩ = some ⟨.between, .atom (str name) :: ts⟩ := by
  have hquote := foldlM_quote_spell name ts
  rwa [h] at hquote

/-- From `l`, the characters are cut into tokens that leave `ts` in all. -/
def Cuts (l : Lexer) (cs : List Char) (ts : List Token) : Prop :=
  ∃ l', cs.foldlM step l = some l' ∧ l'.Holds ts

theorem Holds.cuts_nil {l : Lexer} {ts : List Token} (h : l.Holds ts) : Cuts l [] ts :=
  ⟨l, rfl, h⟩

theorem cuts_of_between {l : Lexer} {cs : List Char} {ts : List Token}
    (h : cs.foldlM step l = some ⟨.between, ts⟩) : Cuts l cs ts :=
  ⟨_, h, holds_between ts⟩

theorem cuts_append {l l' : Lexer} {cs cs' : List Char} {ts : List Token}
    (h : cs.foldlM step l = some l') (h' : Cuts l' cs' ts) : Cuts l (cs ++ cs') ts := by
  obtain ⟨last, hlast, hholds⟩ := h'
  refine ⟨last, ?_, hholds⟩
  rw [List.foldlM_append, h]
  exact hlast

theorem Cuts.append {l : Lexer} {cs cs' : List Char} {ts ts' : List Token} (h : Cuts l cs ts)
    (h' : ∀ {l'}, l'.Holds ts → Cuts l' cs' ts') : Cuts l (cs ++ cs') ts' := by
  obtain ⟨l', hl', hholds⟩ := h
  exact cuts_append hl' (h' hholds)

theorem Holds.cuts_close {l : Lexer} {ts : List Token} (h : l.Holds ts) (level : Nat) {c : Char}
    {t : Token} (hc : open? ts c = some ⟨.between, t :: ts⟩) :
    Cuts l (newline level ++ [c]) (t :: ts) := by
  refine cuts_append (h.foldlM_newline level) (cuts_of_between ?_)
  rw [List.foldlM_cons, show Lexer.step ⟨.between, ts⟩ c = _ from hc]
  rfl

theorem Holds.foldlM_comma {l : Lexer} {ts : List Token} (h : l.Holds ts) (level : Nat) :
    (',' :: newline level).foldlM Lexer.step l = some ⟨.between, .comma :: ts⟩ := by
  have hstep : l.step ',' = some ⟨.between, .comma :: ts⟩ := h.step (.inl rfl)
  simpa [hstep] using Lexer.foldlM_newline level (.comma :: ts)

theorem foldlM_name {name : String} (h : spell name = name) (ts : List Token) :
    (quote name ++ [':', ' ']).foldlM step ⟨.between, ts⟩ =
      some ⟨.between, .colon :: .atom (str name) :: ts⟩ := by
  rw [List.foldlM_append, foldlM_quote h]
  rfl

section Containers

variable {level : Nat}

theorem cuts_items {items : List Json}
    (h : ∀ j ∈ items, ∀ ts, Cuts ⟨.between, ts⟩ (prettyChars level j) (j.tokens.reverse ++ ts))
    {l : Lexer} {ts : List Token} (hl : l.Holds ts) :
    Cuts l (prettyItems level items) ((itemTokens items).reverse ++ ts) := by
  induction items generalizing l ts with
  | nil => exact hl.cuts_nil
  | cons j rest ih =>
    have hvalue := h j (by simp) (.comma :: ts)
    have hrest := hvalue.append fun hl' => ih (fun j' hj' => h j' (by simp [hj'])) hl'
    have hall := cuts_append (hl.foldlM_comma level) hrest
    simpa [prettyItems, itemTokens] using hall

theorem cuts_fields {fields : List (String × Json)} (hnames : ∀ f ∈ fields, spell f.1 = f.1)
    (h : ∀ f ∈ fields, ∀ ts,
      Cuts ⟨.between, ts⟩ (prettyChars level f.2) (f.2.tokens.reverse ++ ts))
    {l : Lexer} {ts : List Token} (hl : l.Holds ts) :
    Cuts l (prettyFields level fields) ((fieldTokens fields).reverse ++ ts) := by
  induction fields generalizing l ts with
  | nil => exact hl.cuts_nil
  | cons f rest ih =>
    obtain ⟨k, j⟩ := f
    have hname := foldlM_name (hnames (k, j) (by simp)) (.comma :: ts)
    have hvalue := h (k, j) (by simp) (.colon :: .atom (str k) :: .comma :: ts)
    have hrest := hvalue.append fun hl' =>
      ih (fun f hf => hnames f (by simp [hf])) (fun f hf => h f (by simp [hf])) hl'
    have hall := cuts_append (hl.foldlM_comma level) (cuts_append hname hrest)
    simpa [prettyFields, fieldTokens] using hall

end Containers

/-- The text of a value is cut into its tokens, at every level of indentation. -/
theorem cuts_pretty {j : Json} (h : Written j) (level : Nat) (ts : List Token) :
    Cuts ⟨.between, ts⟩ (prettyChars level j) (j.tokens.reverse ++ ts) := by
  induction h generalizing level ts with
  | null => exact ⟨_, rfl, holds_word rfl⟩
  | bool b => cases b <;> exact ⟨_, rfl, holds_word rfl⟩
  | int n => exact ⟨_, foldlM_signed n ts, holds_number (by simpa using numberValue?_signed n)⟩
  | text s => exact cuts_of_between (foldlM_quote_spell s ts)
  | @arr items _ ih =>
    cases items with
    | nil => exact cuts_of_between rfl
    | cons j rest =>
      have hopen : ('[' :: newline (level + 1)).foldlM step ⟨.between, ts⟩ =
          some ⟨.between, .openList :: ts⟩ := foldlM_newline (level + 1) (.openList :: ts)
      have hvalue := ih j (by simp) (level + 1) (.openList :: ts)
      have hitems : ∀ j' ∈ rest, ∀ ts, Cuts ⟨.between, ts⟩ (prettyChars (level + 1) j')
          (j'.tokens.reverse ++ ts) := fun j' hj' => ih j' (by simp [hj']) (level + 1)
      have hrest := hvalue.append fun hl => (cuts_items hitems hl).append fun hl' =>
        hl'.cuts_close level (c := ']') rfl
      simpa [prettyChars, Json.tokens] using cuts_append hopen hrest
  | @obj fields hnames _ ih =>
    cases fields with
    | nil => exact cuts_of_between rfl
    | cons f rest =>
      obtain ⟨k, j⟩ := f
      have hopen : ('\x7b' :: newline (level + 1)).foldlM step ⟨.between, ts⟩ =
          some ⟨.between, .openObject :: ts⟩ := foldlM_newline (level + 1) (.openObject :: ts)
      have hname := foldlM_name (hnames (k, j) (by simp)) (.openObject :: ts)
      have hvalue := ih (k, j) (by simp) (level + 1) (.colon :: .atom (str k) :: .openObject :: ts)
      have hrestNames : ∀ f ∈ rest, spell f.1 = f.1 := fun f hf => hnames f (by simp [hf])
      have hfields : ∀ f ∈ rest, ∀ ts, Cuts ⟨.between, ts⟩ (prettyChars (level + 1) f.2)
          (f.2.tokens.reverse ++ ts) := fun f hf => ih f (by simp [hf]) (level + 1)
      have hrest := hvalue.append fun hl => (cuts_fields hrestNames hfields hl).append fun hl' =>
        hl'.cuts_close level (c := '\x7d') rfl
      simpa [prettyChars, Json.tokens] using cuts_append hopen (cuts_append hname hrest)

theorem run_pretty {j : Json} (h : Written j) : run (prettyChars 0 j) = some j.tokens := by
  obtain ⟨l, hl, hholds⟩ := cuts_pretty h 0 []
  simp [run, start, hl, hholds.finish]

end Lexer

namespace Assembly

theorem close_eq_accept {v : Json} {rest : List Frame} (h : rest.length + 1 ≤ maxNesting) :
    close v rest = accept v rest := by
  have hdrop : rest.drop (maxNesting - 1) = [] := List.drop_eq_nil_iff.2 (by omega)
  simp [close, hdrop]

/-- The value is assembled and handed to the containers around it. -/
def Builds (j : Json) : Prop :=
  ∀ stack : List Frame, stack.length + j.nesting ≤ maxNesting →
    j.tokens.foldlM step ⟨stack, .value⟩ = accept j stack

/-- A value may stand first in a list, as no value starts with a closing bracket. -/
theorem foldlM_firstItem {j : Json} (h : Written j) (stack : List Frame) :
    j.tokens.foldlM step ⟨stack, .firstItem⟩ = j.tokens.foldlM step ⟨stack, .value⟩ := by
  have hstep : ∀ {t : Token} {ts : List Token}, t ≠ .closeList →
      (t :: ts).foldlM step ⟨stack, .firstItem⟩ = (t :: ts).foldlM step ⟨stack, .value⟩ := by
    intro t ts ht
    cases stack with
    | nil => cases t <;> rfl
    | cons frame rest => cases frame <;> cases t <;> first | rfl | exact absurd rfl ht
  cases h with
  | @arr items _ => cases items <;> exact hstep nofun
  | @obj fields _ _ => cases fields <;> exact hstep nofun
  | _ => exact hstep nofun

theorem foldlM_items {items : List Json} (h : ∀ j ∈ items, Builds j) (done : List Json)
    {rest : List Frame} (hnest : rest.length + 1 + nestingItems items ≤ maxNesting) :
    (itemTokens items).foldlM step ⟨.items done :: rest, .separator⟩ =
      some ⟨.items (items.reverse ++ done) :: rest, .separator⟩ := by
  induction items generalizing done with
  | nil => rfl
  | cons j items ih =>
    simp only [nestingItems] at hnest
    have hcomma : step ⟨.items done :: rest, .separator⟩ .comma =
        some ⟨.items done :: rest, .value⟩ := rfl
    have hvalue := h j (by simp) (.items done :: rest) (by simp; omega)
    have hrest := ih (fun j' hj' => h j' (by simp [hj'])) (j :: done) (by omega)
    simp [itemTokens, hcomma, hvalue, accept, hrest]

theorem foldlM_field {j : Json} (h : Builds j) (k : String) (done : List (String × Json))
    {rest : List Frame} (hnest : rest.length + 1 + j.nesting ≤ maxNesting) {expect : Expect}
    (hexpect : expect = .firstName ∨ expect = .name) :
    (.atom (str k) :: .colon :: j.tokens).foldlM step ⟨.fields done :: rest, expect⟩ =
      some ⟨.fields ((k, j) :: done) :: rest, .separator⟩ := by
  have hname : step ⟨.fields done :: rest, expect⟩ (.atom (str k)) =
      some ⟨.field done k :: rest, .colon⟩ := by
    rcases hexpect with rfl | rfl <;> rfl
  have hcolon : step ⟨.field done k :: rest, .colon⟩ .colon =
      some ⟨.field done k :: rest, .value⟩ := rfl
  have hvalue := h (.field done k :: rest) (by simp; omega)
  simp [hname, hcolon, hvalue, accept]

theorem foldlM_fields {fields : List (String × Json)} (h : ∀ f ∈ fields, Builds f.2)
    (done : List (String × Json)) {rest : List Frame}
    (hnest : rest.length + 1 + nestingFields fields ≤ maxNesting) :
    (fieldTokens fields).foldlM step ⟨.fields done :: rest, .separator⟩ =
      some ⟨.fields (fields.reverse ++ done) :: rest, .separator⟩ := by
  induction fields generalizing done with
  | nil => rfl
  | cons f fields ih =>
    obtain ⟨k, j⟩ := f
    simp only [nestingFields] at hnest
    have hcomma : step ⟨.fields done :: rest, .separator⟩ .comma =
        some ⟨.fields done :: rest, .name⟩ := rfl
    have hj : Builds j := h (k, j) (by simp)
    have hnestj : rest.length + 1 + j.nesting ≤ maxNesting := by omega
    have hfield := foldlM_field hj k done hnestj (.inr rfl)
    have hrest := ih (fun f hf => h f (by simp [hf])) ((k, j) :: done) (by omega)
    have hsplit : fieldTokens ((k, j) :: fields) =
        .comma :: (.atom (str k) :: .colon :: j.tokens) ++ fieldTokens fields := by
      simp [fieldTokens]
    rw [hsplit, List.foldlM_append, List.foldlM_cons, hcomma]
    simp only [Option.bind_eq_bind, Option.bind_some, hfield, hrest]
    simp

theorem builds_of_written {j : Json} (h : Written j) : Builds j := by
  induction h with
  | @arr items hitems ih =>
    intro stack hnest
    simp only [nesting] at hnest
    have hopen : step ⟨stack, .value⟩ .openList = some ⟨.items [] :: stack, .firstItem⟩ := rfl
    have hclose : ∀ {done expect}, expect = .firstItem ∨ expect = .separator →
        step ⟨.items done :: stack, expect⟩ .closeList = accept (.arr done.reverse) stack := by
      rintro done _ (rfl | rfl) <;> exact close_eq_accept (by omega)
    cases items with
    | nil => simp [tokens, hopen, hclose]
    | cons j rest =>
      simp only [nestingItems] at hnest
      have hvalue := ih j (by simp) (.items [] :: stack) (by simp; omega)
      rw [← foldlM_firstItem (hitems j (by simp))] at hvalue
      have hnestRest : stack.length + 1 + nestingItems rest ≤ maxNesting := by omega
      have hrest := foldlM_items (fun j' hj' => ih j' (by simp [hj'])) [j] hnestRest
      simp [tokens, hopen, hvalue, accept, hrest, hclose]
  | @obj fields _ _ ih =>
    intro stack hnest
    simp only [nesting] at hnest
    have hopen : step ⟨stack, .value⟩ .openObject = some ⟨.fields [] :: stack, .firstName⟩ := rfl
    have hclose : ∀ {done expect}, expect = .firstName ∨ expect = .separator →
        step ⟨.fields done :: stack, expect⟩ .closeObject = accept (.obj done.reverse) stack := by
      rintro done _ (rfl | rfl) <;> exact close_eq_accept (by omega)
    cases fields with
    | nil => simp [tokens, hopen, hclose]
    | cons f rest =>
      obtain ⟨k, j⟩ := f
      simp only [nestingFields] at hnest
      have hj : Builds j := ih (k, j) (by simp)
      have hnestj : stack.length + 1 + j.nesting ≤ maxNesting := by omega
      have hnestRest : stack.length + 1 + nestingFields rest ≤ maxNesting := by omega
      have hfield := foldlM_field hj k [] hnestj (.inl rfl)
      have hrest := foldlM_fields (fun f hf => ih f (by simp [hf])) [(k, j)] hnestRest
      have hsplit : tokens (.obj ((k, j) :: rest)) =
          .openObject :: (.atom (str k) :: .colon :: j.tokens) ++ fieldTokens rest ++
            [.closeObject] := by
        simp [tokens]
      rw [hsplit, List.foldlM_append, List.foldlM_append, List.foldlM_cons, hopen]
      simp only [Option.bind_eq_bind, Option.bind_some, hfield, hrest]
      simp [hclose]
  | _ =>
    intro stack _
    simp [tokens, text, step, value?]

theorem run_tokens {j : Json} (h : Written j) (hnest : j.nesting ≤ maxNesting) :
    run j.tokens = some j := by
  have hbuilds := builds_of_written h [] (by simpa using hnest)
  simp [run, start, hbuilds, accept, finish]

end Assembly

/-- A value that was printed is read back, as long as it does not nest too deep. -/
theorem parse?_pretty {j : Json} (h : Written j) (hnest : j.nesting ≤ maxNesting) :
    parse? j.pretty = some j := by
  simp [parse?, pretty, Lexer.run_pretty h, Assembly.run_tokens h hnest]

end Json
end TypeRecovery
