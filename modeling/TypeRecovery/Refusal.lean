import TypeRecovery.Ty
import TypeRecovery.Variable

/-!
# Refusals

Why a change to a layout or a store is refused, and why the inference of one variable is given up.
-/
namespace TypeRecovery

inductive Refusal where
  /-- The struct does not exist, or was deleted. -/
  | unknownStruct (id : StructId)
  /-- No member starts at the offset. -/
  | missingMember (id : StructId) (offset : Nat)
  /-- The member would run into the one that follows. -/
  | memberOverlap (id : StructId) (offset size next : Nat)
  /-- The offset lies inside a member that starts earlier. -/
  | midMember (id : StructId) (offset start : Nat)
  /-- The struct is older than the overlay. -/
  | immutableStruct (id : StructId)
  /-- A type without a size has no place in a layout. -/
  | unsizedType (type : String)
  | declaration (var : Variable) (type : String)
deriving DecidableEq

def Refusal.message : Refusal → String
  | unknownStruct id => "unknown struct " ++ id.text
  | missingMember id offset => id.text ++ " has no member at offset " ++ Numeral.marked offset
  | memberOverlap id offset size next =>
    id.text ++ ": member at " ++ Numeral.marked offset ++ " of size " ++ Numeral.decimal size ++
      " would overlap member at " ++ Numeral.marked next
  | midMember id offset start =>
    id.text ++ ": offset " ++ Numeral.marked offset ++ " lies inside member at " ++
      Numeral.marked start
  | immutableStruct id => id.text ++ " is not provisional and cannot be modified"
  | unsizedType type => "type " ++ type ++ " has no known size"
  | declaration var type => "refusing to declare " ++ var.text ++ " as " ++ type

/-- A change to a state that may be refused. The state it leaves behind is part of the result
whether or not it was refused. -/
abbrev Edit (σ α : Type) := ExceptT Refusal (StateT σ Checked) α

inductive InferenceError where
  | malformedChain (var : Variable) (reason : String)
  | unknownFunction (address : Nat)
  | unknownLocal (function slot : Nat)
  | depthLimit (limit : Nat)
  | refused (cause : Refusal)
deriving DecidableEq

def InferenceError.message : InferenceError → String
  | malformedChain var reason => "malformed use chain on " ++ var.text ++ ": " ++ reason
  | unknownFunction address => "no function at " ++ Numeral.marked address
  | unknownLocal function slot =>
    "function " ++ Numeral.marked function ++ " has no local slot " ++ Numeral.decimal slot
  | depthLimit limit => "inference depth limit of " ++ Numeral.decimal limit ++ " reached"
  | refused cause => cause.message

end TypeRecovery
