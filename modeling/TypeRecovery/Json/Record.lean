import TypeRecovery.Json.Spelling
import TypeRecovery.Word

/-!
# Reading records and variants

A record is an object with its fields in any order, or the list of its fields in their declared
order. Unknown fields of an object are skipped with all they hold, a repeated known field is
refused, and fields missing at the end of a list count as absent. Every name of a record must spell
a text, that of a skipped field too.

A variant is its bare name, or an object whose only field is named for it and holds its contents.
-/
namespace TypeRecovery.Json

/-- Where a value stands. In a document every record may be a list of its fields; in a message the
contents of a variant with named fields must be an object. -/
inductive Place where
  | document
  | message
deriving DecidableEq

def below? (bound : Nat) : Json → Option Nat
  | int (.ofNat n) => if n < bound then some n else none
  | _ => none

/-- A machine word. -/
def word? (j : Json) : Option Nat := j.below? Word.bound

def signedWord? : Json → Option Int
  | int n => if Word.isSigned n then some n else none
  | _ => none

def str? : Json → Option String
  | str literal => unspell? literal
  | _ => none

def bool? : Json → Option Bool
  | bool b => some b
  | _ => none

def option? {α : Type} (decode : Json → Option α) : Json → Option (Option α)
  | null => some none
  | j => (decode j).map some

def list? {α : Type} (decode : Json → Option α) : Json → Option (List α)
  | arr items => items.mapM decode
  | _ => none

def pair? {α β : Type} (first : Json → Option α) (second : Json → Option β) :
    Json → Option (α × β)
  | arr [a, b] => do return (← first a, ← second b)
  | _ => none

/-- A map whose keys are words, spelled as decimal numerals without escapes. -/
def wordMap? {α : Type} (decode : Json → Option α) : Json → Option (List (Nat × α))
  | obj fields => fields.mapM fun (k, j) => do
    let key ← (Numeral.canonical? k.toList).filter (· < Word.bound)
    return (key, ← decode j)
  | _ => none

/-! ## Records -/

def occurrences (name : String) (fields : List (String × Json)) : List Json :=
  (fields.filter (·.1 == name)).map (·.2)

/-- The field of that name, `none` if it is repeated. -/
def single? (fields : List (String × Json)) (name : String) : Option (Option Json) :=
  match occurrences name fields with
  | [] => some none
  | [j] => some (some j)
  | _ => none

/-- The fields of an object with the names that are spelled. -/
def unspellNames? (fields : List (String × Json)) : Option (List (String × Json)) :=
  fields.mapM fun (literal, j) => (unspell? literal).map fun name => (name, j)

/-- The fields of a record in the order of `names`. -/
def fields? (names : List String) : Json → Option (List (Option Json))
  | obj fields => do names.mapM (single? (← unspellNames? fields))
  | arr items =>
    if items.length ≤ names.length then
      some (items.map some ++ List.replicate (names.length - items.length) none)
    else none
  | _ => none

/-- The fields of a variant with named fields. -/
def variantFields? (place : Place) (names : List String) (j : Json) :
    Option (List (Option Json)) :=
  match place, j with
  | .message, arr _ => none
  | _, j => fields? names j

def required {α : Type} (decode : Json → Option α) (field : Option Json) : Option α :=
  field.bind decode

def optional {α : Type} (default : α) (decode : Json → Option α) (field : Option Json) : Option α :=
  match field with
  | none => some default
  | some j => decode j

/-! ## Variants -/

/-- The name of a variant and its contents. -/
def variant? : Json → Option (String × Option Json)
  | str literal => (unspell? literal).map fun name => (name, none)
  | obj [(literal, j)] => (unspell? literal).map fun name => (name, some j)
  | _ => none

/-- A variant without contents may carry `null`. -/
def bare? : Json → Option String
  | str literal => unspell? literal
  | obj [(literal, null)] => unspell? literal
  | _ => none

/-- The value among `all` of that name. -/
def named? {α : Type} (all : List α) (name : α → String) (j : Json) : Option α :=
  j.bare?.bind fun n => all.find? fun a => name a == n

end TypeRecovery.Json
