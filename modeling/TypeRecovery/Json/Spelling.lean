import TypeRecovery.Json.Basic

/-!
# Spelling texts in JSON

Between its quotes a string spells a text: the quote, the backslash and control characters are
escaped when a text is spelled, and any character may be escaped when a spelling is read. A
character beyond 16 bits is escaped by two surrogates, one after the other; a surrogate without its
partner stands for no text.
-/
namespace TypeRecovery.Json

def hexDigitChar (n : Nat) : Char := Nat.digitChar (n % 16)

def escape (c : Char) : List Char :=
  if c = '"' then ['\\', '"']
  else if c = '\\' then ['\\', '\\']
  else if c = '\n' then ['\\', 'n']
  else if c = '\r' then ['\\', 'r']
  else if c = '\t' then ['\\', 't']
  else if c = '\x08' then ['\\', 'b']
  else if c = '\x0c' then ['\\', 'f']
  else if c.toNat < 32 then
    ['\\', 'u', '0', '0', hexDigitChar (c.toNat / 16), hexDigitChar c.toNat]
  else [c]

def spell (s : String) : String := String.ofList (s.toList.flatMap escape)

/-- The string that spells a text. -/
def text (s : String) : Json := str (spell s)

/-! ## Reading a spelling -/

def simpleEscape? : Char → Option Char
  | '"' => some '"'
  | '\\' => some '\\'
  | '/' => some '/'
  | 'b' => some '\x08'
  | 'f' => some '\x0c'
  | 'n' => some '\n'
  | 'r' => some '\r'
  | 't' => some '\t'
  | _ => none

def isHighSurrogate (n : Nat) : Bool := 0xd800 ≤ n && n ≤ 0xdbff

def isLowSurrogate (n : Nat) : Bool := 0xdc00 ≤ n && n ≤ 0xdfff

/-- Which part of an escape comes next. A high surrogate waits for the escape of its partner. -/
inductive EscapeMode where
  | plain
  | letter
  | unit (high : Option Nat) (digits : List Char)
  | lowMark (high : Nat)
  | lowLetter (high : Nat)

/-- The text read so far, in reverse, and what comes next. -/
structure Unspelling where
  read : List Char
  mode : EscapeMode

namespace Unspelling

def start : Unspelling := ⟨[], .plain⟩

/-- Takes an escape of four digits with value `unit`. -/
def afterUnit? (read : List Char) (high : Option Nat) (unit : Nat) : Option Unspelling :=
  match high with
  | some h =>
    if isLowSurrogate unit then
      some ⟨Char.ofNat (0x10000 + (h - 0xd800) * 0x400 + (unit - 0xdc00)) :: read, .plain⟩
    else none
  | none =>
    if isHighSurrogate unit then some ⟨read, .lowMark unit⟩
    else if isLowSurrogate unit then none
    else some ⟨Char.ofNat unit :: read, .plain⟩

def step (u : Unspelling) (c : Char) : Option Unspelling :=
  match u.mode with
  | .plain => if c = '\\' then some ⟨u.read, .letter⟩ else some ⟨c :: u.read, .plain⟩
  | .letter =>
    if c = 'u' then some ⟨u.read, .unit none []⟩
    else (simpleEscape? c).map fun e => ⟨e :: u.read, .plain⟩
  | .unit high digits =>
    match digits with
    | [c₃, c₂, c₁] => (Numeral.hexValue? [c₁, c₂, c₃, c]).bind (afterUnit? u.read high)
    | _ => some ⟨u.read, .unit high (c :: digits)⟩
  | .lowMark high => if c = '\\' then some ⟨u.read, .lowLetter high⟩ else none
  | .lowLetter high => if c = 'u' then some ⟨u.read, .unit (some high) []⟩ else none

def finish (u : Unspelling) : Option String :=
  match u.mode with
  | .plain => some (String.ofList u.read.reverse)
  | _ => none

end Unspelling

/-- The text that a string spells. -/
def unspell? (literal : String) : Option String :=
  (literal.toList.foldlM Unspelling.step Unspelling.start).bind Unspelling.finish

theorem hexValue?_control : ∀ n < 32, Numeral.hexValue?
    ['0', '0', hexDigitChar (n / 16), hexDigitChar n] = some n := by decide

/-- One character after the other is read back. -/
theorem foldlM_step_escape (c : Char) (read : List Char) :
    (escape c).foldlM Unspelling.step ⟨read, .plain⟩ = some ⟨c :: read, .plain⟩ := by
  unfold escape
  repeat' split
  all_goals try (subst_vars; rfl)
  · rename_i h
    have hc : Char.ofNat c.toNat = c := Char.ofNat_toNat c
    have high : isHighSurrogate c.toNat = false := by simp [isHighSurrogate]; omega
    have low : isLowSurrogate c.toNat = false := by simp [isLowSurrogate]; omega
    simp [Unspelling.step, hexValue?_control _ h, Unspelling.afterUnit?, high, low, hc]
  · simp_all [Unspelling.step]

theorem foldlM_step_escapes (cs read : List Char) :
    (cs.flatMap escape).foldlM Unspelling.step ⟨read, .plain⟩ =
      some ⟨cs.reverse ++ read, .plain⟩ := by
  induction cs generalizing read with
  | nil => rfl
  | cons c cs ih =>
    rw [List.flatMap_cons, List.foldlM_append, foldlM_step_escape]
    simpa using ih (c :: read)

@[simp] theorem unspell?_spell (s : String) : unspell? (spell s) = some s := by
  simp [unspell?, spell, Unspelling.start, foldlM_step_escapes, Unspelling.finish]

end TypeRecovery.Json
