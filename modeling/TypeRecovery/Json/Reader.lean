import TypeRecovery.Json.Token

/-!
# Reading JSON

Tokens are assembled by an automaton with a stack of part-built containers: reading is a fold over
the tokens, and the height of the stack is the nesting of the text. A container below `maxNesting`
levels is checked like any other and then stands as `tooDeep`.
-/
namespace TypeRecovery.Json

/-- A container whose end has not been reached, with its contents so far in reverse. -/
inductive Frame where
  | items (done : List Json)
  | fields (done : List (String × Json))
  | field (done : List (String × Json)) (name : String)

inductive Expect where
  | value
  | firstItem
  | firstName
  | name
  | colon
  | separator
  | nothing (result : Json)

structure Assembly where
  stack : List Frame
  expect : Expect

namespace Assembly

def start : Assembly := ⟨[], .value⟩

/-- Hands a finished value to the container around it. -/
def accept (v : Json) : List Frame → Option Assembly
  | [] => some ⟨[], .nothing v⟩
  | .items done :: rest => some ⟨.items (v :: done) :: rest, .separator⟩
  | .field done name :: rest => some ⟨.fields ((name, v) :: done) :: rest, .separator⟩
  | .fields _ :: _ => none

/-- Takes a token where a value must start. -/
def value? (stack : List Frame) : Token → Option Assembly
  | .atom v => accept v stack
  | .openList => some ⟨.items [] :: stack, .firstItem⟩
  | .openObject => some ⟨.fields [] :: stack, .firstName⟩
  | _ => none

/-- Hands a finished container to the containers around it. -/
def close (v : Json) (rest : List Frame) : Option Assembly :=
  accept (if (rest.drop (maxNesting - 1)).isEmpty then v else .tooDeep) rest

def name? (done : List (String × Json)) (rest : List Frame) : Token → Option Assembly
  | .atom (.str name) => some ⟨.field done name :: rest, .colon⟩
  | _ => none

def step (a : Assembly) (t : Token) : Option Assembly :=
  match a.expect, a.stack, t with
  | .value, stack, t => value? stack t
  | .firstItem, .items done :: rest, .closeList => close (.arr done.reverse) rest
  | .firstItem, stack, t => value? stack t
  | .firstName, .fields done :: rest, .closeObject => close (.obj done.reverse) rest
  | .firstName, .fields done :: rest, t => name? done rest t
  | .name, .fields done :: rest, t => name? done rest t
  | .colon, stack, .colon => some ⟨stack, .value⟩
  | .separator, .items done :: rest, .comma => some ⟨.items done :: rest, .value⟩
  | .separator, .items done :: rest, .closeList => close (.arr done.reverse) rest
  | .separator, .fields done :: rest, .comma => some ⟨.fields done :: rest, .name⟩
  | .separator, .fields done :: rest, .closeObject => close (.obj done.reverse) rest
  | _, _, _ => none

def finish (a : Assembly) : Option Json :=
  match a.expect with
  | .nothing v => some v
  | _ => none

def run (tokens : List Token) : Option Json :=
  (tokens.foldlM step start).bind finish

end Assembly

/-- The value of a text that holds exactly one JSON value. -/
def parse? (text : String) : Option Json :=
  (Lexer.run text.toList).bind Assembly.run

end TypeRecovery.Json
