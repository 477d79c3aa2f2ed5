import TypeRecovery.Table
import TypeRecovery.Text.Numeral

/-!
# Settings

Optional behaviours of the analysis are passes that can be switched on and off one by one.
-/
namespace TypeRecovery

inductive Pass where
  /-- Pushes new struct types into untyped parameters of callees. -/
  | crossCallPropagation
  /-- Resolves indirect calls through function-pointer members. -/
  | implicitCalls
  /-- Takes call targets from the comments and names of members. -/
  | annotationFallback
  /-- Infers the types of stack variables. -/
  | stackVariables
deriving DecidableEq

namespace Pass

def all : List Pass := [crossCallPropagation, implicitCalls, annotationFallback, stackVariables]

def rank : Pass → Nat
  | crossCallPropagation => 0
  | implicitCalls => 1
  | annotationFallback => 2
  | stackVariables => 3

instance : Key Pass := Key.comap rank fun {a b} h => by cases a <;> cases b <;> simp_all [rank]

def isDefault : Pass → Bool
  | stackVariables => false
  | _ => true

def name : Pass → String
  | crossCallPropagation => "cross-call-propagation"
  | implicitCalls => "implicit-calls"
  | annotationFallback => "annotation-fallback"
  | stackVariables => "stack-variables"

def ofName? (name : String) : Option Pass := all.find? (·.name == name)

/-- The lower case of a character where that is an ASCII character: the Kelvin sign is the one
letter outside ASCII of which this holds. -/
def lower (c : Char) : Char := if c = '\u212a' then 'k' else c.toLower

/-- Reads a name in any case. -/
def parse? (text : String) : Option Pass := ofName? (String.ofList (text.toList.map lower))

end Pass

structure Settings where
  structPrefix : String := "struct_"
  enabled : KeySet Pass := .empty
  disabled : KeySet Pass := .empty
  /-- The limit on nested inference. -/
  maxDepth : Nat := 256
deriving DecidableEq

namespace Settings

def enable (s : Settings) (pass : Pass) : Settings :=
  { s with enabled := s.enabled.add pass, disabled := s.disabled.erase pass }

def disable (s : Settings) (pass : Pass) : Settings :=
  { s with enabled := s.enabled.erase pass, disabled := s.disabled.add pass }

def isEnabled (s : Settings) (pass : Pass) : Bool :=
  s.enabled.contains pass || (!s.disabled.contains pass && pass.isDefault)

/-- The name of a struct that the analysis creates. -/
def structName (s : Settings) (id : Nat) : String := s.structPrefix ++ Numeral.decimal id

end Settings
end TypeRecovery
