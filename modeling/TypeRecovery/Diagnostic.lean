/-!
# Diagnostics

What the analysis worked around: missing evidence, refused changes, calls it could not resolve.
-/
namespace TypeRecovery

inductive Severity where
  | debug
  | warning
  | error
deriving DecidableEq

inductive Subsystem where
  | memberMerge
  | variableTypes
  | returnValues
  | expressions
  | propagation
  | implicitCalls
  | writeBack
deriving DecidableEq

inductive DiagnosticKind where
  /-- Evidence is missing or contradictory, and the result is unknown. -/
  | unknownEvidence
  /-- A change was refused, and things are as they were. -/
  | refusedMutation
  /-- An indirect call has no known target. -/
  | unresolvableCall
  /-- Malformed input ended the analysis of one variable. -/
  | contractViolation
  /-- A parameter already has another type. -/
  | propagationConflict
deriving DecidableEq

def Severity.all : List Severity := [debug, warning, error]

def Severity.name : Severity → String
  | debug => "debug"
  | warning => "warning"
  | error => "error"

namespace Subsystem

def all : List Subsystem :=
  [memberMerge, variableTypes, returnValues, expressions, propagation, implicitCalls, writeBack]

def name : Subsystem → String
  | memberMerge => "member-merge"
  | variableTypes => "variables"
  | returnValues => "return-values"
  | expressions => "expressions"
  | propagation => "propagation"
  | implicitCalls => "implicit-calls"
  | writeBack => "write-back"

end Subsystem

namespace DiagnosticKind

def all : List DiagnosticKind :=
  [unknownEvidence, refusedMutation, unresolvableCall, contractViolation, propagationConflict]

def name : DiagnosticKind → String
  | unknownEvidence => "unknown_evidence"
  | refusedMutation => "refused_mutation"
  | unresolvableCall => "unresolvable_call"
  | contractViolation => "contract_violation"
  | propagationConflict => "propagation_conflict"

def severity : DiagnosticKind → Severity
  | contractViolation => .error
  | _ => .warning

end DiagnosticKind

structure Diagnostic where
  severity : Severity
  kind : DiagnosticKind
  subsystem : Subsystem
  subject : String
  message : String
deriving DecidableEq

namespace Diagnostic

def text (d : Diagnostic) : String :=
  "[" ++ d.subsystem.name ++ "] " ++ d.subject ++ ": " ++ d.message

def ofKind (kind : DiagnosticKind) (subsystem : Subsystem) (subject message : String) :
    Diagnostic :=
  { severity := kind.severity, kind, subsystem, subject, message }

/-- Missing evidence that is no cause for a warning. -/
def note (subsystem : Subsystem) (subject message : String) : Diagnostic :=
  { severity := .debug, kind := .unknownEvidence, subsystem, subject, message }

def unknownEvidence := ofKind .unknownEvidence

def refused := ofKind .refusedMutation

def contractViolation := ofKind .contractViolation

def unresolvableCall := ofKind .unresolvableCall .implicitCalls

def conflict := ofKind .propagationConflict .propagation

def isUnknownAbout (subject : String) (d : Diagnostic) : Bool :=
  d.kind == .unknownEvidence && d.subject == subject

/-- Drops the unknown evidence about a subject that has since been typed. -/
def retractUnknown (subject : String) (ds : List Diagnostic) : List Diagnostic :=
  ds.filter fun d => !d.isUnknownAbout subject

end Diagnostic
end TypeRecovery
