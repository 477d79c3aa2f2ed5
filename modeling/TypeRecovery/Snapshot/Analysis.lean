import TypeRecovery.Diagnostic
import TypeRecovery.Json.Printer
import TypeRecovery.Json.Reader
import TypeRecovery.Json.Record
import TypeRecovery.Program.CallGraph
import TypeRecovery.Settings

/-!
# Settings, diagnostics and calls as JSON
-/
namespace TypeRecovery

namespace Pass

def toJson (p : Pass) : Json := .text p.name

def ofJson? (j : Json) : Option Pass := j.named? all name

end Pass

namespace Settings

def toJson (s : Settings) : Json :=
  .obj [("struct_name_prefix", .text s.structPrefix),
    ("enabled_passes", Json.ofList Pass.toJson s.enabled.toList),
    ("disabled_passes", Json.ofList Pass.toJson s.disabled.toList),
    ("max_depth", .nat s.maxDepth)]

def passesOfJson? (j : Json) : Option (KeySet Pass) :=
  (Json.list? Pass.ofJson? j).map KeySet.ofKeys

def ofJson? (j : Json) : Option Settings := do
  match ← j.fields? ["struct_name_prefix", "enabled_passes", "disabled_passes", "max_depth"] with
  | [structPrefix, enabled, disabled, maxDepth] =>
    return {
      structPrefix := ← Json.optional "struct_" Json.str? structPrefix
      enabled := ← Json.optional .empty passesOfJson? enabled
      disabled := ← Json.optional .empty passesOfJson? disabled
      maxDepth := ← Json.optional 256 Json.word? maxDepth }
  | _ => none

def parse? (text : String) : Option Settings := (Json.parse? text).bind ofJson?

end Settings

namespace Diagnostic

def toJson (d : Diagnostic) : Json :=
  .obj [("severity", .text d.severity.name), ("kind", .text d.kind.name),
    ("subsystem", .text d.subsystem.name), ("subject", .text d.subject),
    ("message", .text d.message)]

def severityOfJson? (j : Json) : Option Severity := j.named? Severity.all Severity.name

def kindOfJson? (j : Json) : Option DiagnosticKind :=
  j.named? DiagnosticKind.all DiagnosticKind.name

def subsystemOfJson? (j : Json) : Option Subsystem := j.named? Subsystem.all Subsystem.name

def ofJson? (j : Json) : Option Diagnostic := do
  match ← j.fields? ["severity", "kind", "subsystem", "subject", "message"] with
  | [severity, kind, subsystem, subject, message] =>
    return {
      severity := ← Json.required severityOfJson? severity
      kind := ← Json.required kindOfJson? kind
      subsystem := ← Json.required subsystemOfJson? subsystem
      subject := ← Json.required Json.str? subject
      message := ← Json.required Json.str? message }
  | _ => none

end Diagnostic

def CallKind.name : CallKind → String
  | direct => "direct"
  | implicit => "implicit"

namespace CallSite

def toJson (s : CallSite) : Json :=
  .obj [("call_address", .nat s.callAddress), ("call_type", .text s.kind.name)]

def ofJson? (j : Json) : Option CallSite := do
  match ← j.fields? ["call_address", "call_type"] with
  | [callAddress, kind] =>
    return {
      callAddress := ← Json.required Json.word? callAddress
      kind := ← Json.required (Json.named? [.direct, .implicit] CallKind.name) kind }
  | _ => none

end CallSite

namespace CallEdge

def toJson (e : CallEdge) : Json :=
  .obj [("caller", .nat e.caller), ("call_address", .nat e.callAddress), ("target", .nat e.target)]

def ofJson? (j : Json) : Option CallEdge := do
  match ← j.fields? ["caller", "call_address", "target"] with
  | [caller, callAddress, target] =>
    return {
      caller := ← Json.required Json.word? caller
      callAddress := ← Json.required Json.word? callAddress
      target := ← Json.required Json.word? target }
  | _ => none

end CallEdge
end TypeRecovery
