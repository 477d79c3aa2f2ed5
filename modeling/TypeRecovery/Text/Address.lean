import TypeRecovery.Word
import TypeRecovery.Text.Blank
import TypeRecovery.Text.Numeral

/-!
# Written addresses

Code addresses are written `0x401000`, `sub_401000` or `401000h`. The first spelling that fits
decides which characters are the digits.
-/
namespace TypeRecovery.Address

def digits? : List Char → Option (List Char)
  | '0' :: 'x' :: cs => some cs
  | '0' :: 'X' :: cs => some cs
  | 's' :: 'u' :: 'b' :: '_' :: cs => some cs
  | cs => if cs.getLast? = some 'h' then some cs.dropLast else none

/-- A hexadecimal word, which may carry a plus sign. -/
def word? (cs : List Char) : Option Nat :=
  let digits := match cs with
    | '+' :: rest => rest
    | _ => cs
  (Numeral.hexValue? digits).filter (· < Word.bound)

def parseChars? (cs : List Char) : Option Nat :=
  (digits? (Text.trim cs)).bind word?

def parse? (text : String) : Option Nat := parseChars? text.toList

def isSeparator (c : Char) : Bool :=
  Text.isBlank c || c = ',' || c = ';' || c = '(' || c = ')' || c = ':' || c = '='

/-- The first address among the words of a free-form annotation. -/
def inText? (text : String) : Option Nat :=
  (Text.splitAt isSeparator text.toList).findSome? parseChars?

end TypeRecovery.Address
