import TypeRecovery.Text.Numeral

/-!
# JSON values

Strings are kept as they are spelled between their quotes, and so are numbers other than plain
integer literals. Objects keep their fields as written, repeated names included. What a spelling
or a repetition means is for the reader of a field to say: a field that is skipped may hold strings
that stand for no text, and may nest without limit.
-/
namespace TypeRecovery

inductive Json where
  | null
  | bool (b : Bool)
  | int (n : Int)
  | real (literal : String)
  | str (literal : String)
  | arr (items : List Json)
  | obj (fields : List (String × Json))
  /-- A list or object below `Json.maxNesting` levels, which can only be skipped. -/
  | tooDeep

namespace Json

instance : Inhabited Json := ⟨null⟩

def nat (n : Nat) : Json := int n

def ofOption {α : Type} (f : α → Json) : Option α → Json
  | none => null
  | some a => f a

def ofList {α : Type} (f : α → Json) (l : List α) : Json := arr (l.map f)

/-- Lists and objects that are read nest at most this deep. -/
def maxNesting : Nat := 127

end Json
end TypeRecovery
