import TypeRecovery.Json.Basic

/-!
# Writing JSON

Two spellings of a value: `compact` without blanks, and `pretty` with one item to a line, indented
by two blanks a level. Strings stand as they are spelled.
-/
namespace TypeRecovery.Json

def quote (literal : String) : List Char := '"' :: literal.toList ++ ['"']

/-- The spelling of a value that holds no other value. -/
def scalar : Json → List Char
  | null => ['n', 'u', 'l', 'l']
  | bool true => ['t', 'r', 'u', 'e']
  | bool false => ['f', 'a', 'l', 's', 'e']
  | int n => (Numeral.signed n).toList
  | real literal => literal.toList
  | str literal => quote literal
  | arr _ => []
  | obj _ => []
  | tooDeep => []

mutual

def compactChars : Json → List Char
  | arr items => '[' :: compactItems items ++ [']']
  | obj fields => '\x7b' :: compactFields fields ++ ['\x7d']
  | j => scalar j

def compactItems : List Json → List Char
  | [] => []
  | [j] => compactChars j
  | j :: rest => compactChars j ++ ',' :: compactItems rest

def compactFields : List (String × Json) → List Char
  | [] => []
  | [(k, j)] => quote k ++ ':' :: compactChars j
  | (k, j) :: rest => quote k ++ ':' :: compactChars j ++ ',' :: compactFields rest

end

def newline (level : Nat) : List Char := '\n' :: List.replicate (2 * level) ' '

mutual

/-- The pretty spelling of a value that stands `level` levels deep. -/
def prettyChars (level : Nat) : Json → List Char
  | arr [] => ['[', ']']
  | obj [] => ['\x7b', '\x7d']
  | arr (j :: rest) =>
    '[' :: newline (level + 1) ++ prettyChars (level + 1) j ++ prettyItems (level + 1) rest ++
      newline level ++ [']']
  | obj ((k, j) :: rest) =>
    '\x7b' :: newline (level + 1) ++ quote k ++ ':' :: ' ' :: prettyChars (level + 1) j ++
      prettyFields (level + 1) rest ++ newline level ++ ['\x7d']
  | j => scalar j

def prettyItems (level : Nat) : List Json → List Char
  | [] => []
  | j :: rest => ',' :: newline level ++ prettyChars level j ++ prettyItems level rest

def prettyFields (level : Nat) : List (String × Json) → List Char
  | [] => []
  | (k, j) :: rest =>
    ',' :: newline level ++ quote k ++ ':' :: ' ' :: prettyChars level j ++ prettyFields level rest

end

def compact (j : Json) : String := String.ofList (compactChars j)

def pretty (j : Json) : String := String.ofList (prettyChars 0 j)

end TypeRecovery.Json
