import TypeRecovery.Json.Spelling

/-!
# JSON tokens

A text is cut into tokens by an automaton that takes one character at a time, so that lexing is a
fold over the text. Strings keep their spelling. An escape must be well formed and a raw control
character is refused, but whether escaped surrogates come in pairs is not looked at here.
-/
namespace TypeRecovery.Json

inductive Token where
  | openList
  | closeList
  | openObject
  | closeObject
  | comma
  | colon
  | atom (value : Json)

/-- What the character being read belongs to. Text read so far is held in reverse. In the digits of
an escape, `others` of them follow the next one. -/
inductive Mode where
  | between
  | word (read : List Char)
  | number (read : List Char)
  | text (read : List Char)
  | escaped (read : List Char)
  | digits (read : List Char) (others : Nat)

structure Lexer where
  mode : Mode
  tokens : List Token

namespace Lexer

def start : Lexer := ⟨.between, []⟩

def isSpace (c : Char) : Bool := c = ' ' || c = '\n' || c = '\r' || c = '\t'

def isLetter (c : Char) : Bool := 'a' ≤ c && c ≤ 'z'

def isNumberChar (c : Char) : Bool :=
  c.isDigit || c = '-' || c = '+' || c = '.' || c = 'e' || c = 'E'

def wordValue? : List Char → Option Json
  | ['n', 'u', 'l', 'l'] => some .null
  | ['t', 'r', 'u', 'e'] => some (.bool true)
  | ['f', 'a', 'l', 's', 'e'] => some (.bool false)
  | _ => none

def isExponent : List Char → Bool
  | '+' :: cs => !cs.isEmpty && cs.all Char.isDigit
  | '-' :: cs => !cs.isEmpty && cs.all Char.isDigit
  | cs => !cs.isEmpty && cs.all Char.isDigit

/-- What may follow the integer part of a number: a fraction, an exponent, or both. -/
def isFraction : List Char → Bool
  | '.' :: cs =>
    !(cs.takeWhile Char.isDigit).isEmpty &&
      match cs.dropWhile Char.isDigit with
      | [] => true
      | e :: rest => (e = 'e' || e = 'E') && isExponent rest
  | e :: rest => (e = 'e' || e = 'E') && isExponent rest
  | [] => false

def unsignedValue? (negative : Bool) (literal cs : List Char) : Option Json := do
  let n ← Numeral.canonical? (cs.takeWhile Char.isDigit)
  match cs.dropWhile Char.isDigit with
  | [] =>
    if negative then
      if n = 0 then some (.real (String.ofList literal)) else some (.int (-(n : Int)))
    else some (.int n)
  | rest => if isFraction rest then some (.real (String.ofList literal)) else none

/-- The value of a number literal. Negative zero is no integer. -/
def numberValue? : List Char → Option Json
  | '-' :: cs => unsignedValue? true ('-' :: cs) cs
  | cs => unsignedValue? false cs cs

/-- Takes a character that opens a token. -/
def open? (tokens : List Token) (c : Char) : Option Lexer :=
  if isSpace c then some ⟨.between, tokens⟩
  else if c = '[' then some ⟨.between, .openList :: tokens⟩
  else if c = ']' then some ⟨.between, .closeList :: tokens⟩
  else if c = '\x7b' then some ⟨.between, .openObject :: tokens⟩
  else if c = '\x7d' then some ⟨.between, .closeObject :: tokens⟩
  else if c = ',' then some ⟨.between, .comma :: tokens⟩
  else if c = ':' then some ⟨.between, .colon :: tokens⟩
  else if c = '"' then some ⟨.text [], tokens⟩
  else if isLetter c then some ⟨.word [c], tokens⟩
  else if c.isDigit || c = '-' then some ⟨.number [c], tokens⟩
  else none

def step (l : Lexer) (c : Char) : Option Lexer :=
  match l.mode with
  | .between => open? l.tokens c
  | .word read =>
    if isLetter c then some ⟨.word (c :: read), l.tokens⟩
    else (wordValue? read.reverse).bind fun v => open? (.atom v :: l.tokens) c
  | .number read =>
    if isNumberChar c then some ⟨.number (c :: read), l.tokens⟩
    else (numberValue? read.reverse).bind fun v => open? (.atom v :: l.tokens) c
  | .text read =>
    if c = '"' then some ⟨.between, .atom (.str (String.ofList read.reverse)) :: l.tokens⟩
    else if c = '\\' then some ⟨.escaped (c :: read), l.tokens⟩
    else if c.toNat < 32 then none
    else some ⟨.text (c :: read), l.tokens⟩
  | .escaped read =>
    if c = 'u' then some ⟨.digits (c :: read) 3, l.tokens⟩
    else (simpleEscape? c).map fun _ => ⟨.text (c :: read), l.tokens⟩
  | .digits read others =>
    (Numeral.hexDigit? c).map fun _ =>
      match others with
      | 0 => ⟨.text (c :: read), l.tokens⟩
      | n + 1 => ⟨.digits (c :: read) n, l.tokens⟩

/-- The tokens in order, once the text has ended. -/
def finish (l : Lexer) : Option (List Token) :=
  match l.mode with
  | .between => some l.tokens.reverse
  | .word read => (wordValue? read.reverse).map fun v => (.atom v :: l.tokens).reverse
  | .number read => (numberValue? read.reverse).map fun v => (.atom v :: l.tokens).reverse
  | _ => none

def run (cs : List Char) : Option (List Token) :=
  (cs.foldlM step start).bind finish

end Lexer
end TypeRecovery.Json
