import Graphlab.Runtime.Data

/-!
# Checks on source commands

The pure checks of `source_control.cpp`: the shape of a request, the availability of
its run and node, and the capability a workload reports.  Each answers with the code
of the failure it throws, or `none`.
-/

namespace Graphlab.Runtime.SourceControl

/-- `[A-Za-z0-9_-]`. -/
def wordChar (c : Char) : Bool :=
  ('A' ≤ c && c ≤ 'Z') || ('a' ≤ c && c ≤ 'z') || ('0' ≤ c && c ≤ '9') || c == '_' || c == '-'

/-- `regex_match` for one character class repeated between `least` and `most` times. -/
def repeated (char : Char → Bool) (least most : ℕ) (s : String) : Bool :=
  least ≤ s.toList.length && s.toList.length ≤ most && s.toList.all char

/-- A required string field of a command. -/
def field (s : String) : Bool := s != "" && s.utf8ByteSize ≤ 128

/-- `validate` for a command; `size` is the length of the JSON text of its
parameters. -/
def validate (size : ℕ) (p : SourceRequest) : Bool :=
  size ≤ 1024 &&
  [p.runId, p.node, p.apiVersion, p.instanceId, p.epoch, p.source, p.action, p.requestId].all field &&
  p.apiVersion == "graphlab.source-control/v1" &&
  (p.action == "pause" || p.action == "resume") &&
  repeated wordChar 1 64 p.requestId

/-- `available`. -/
def available (run : Run) : Bool := run.state == .ready || run.state == .stopped

/-- `resource`: the container of a node. -/
def resource (run : Run) (node : String) : Option Resource :=
  run.resources.find? fun r =>
    r.logical == node && r.kind == .container && r.identity.isSome && r.state != .removed

/-- `wire`. -/
def wire (p : SourceRequest) : SourceWire :=
  { apiVersion := p.apiVersion, epoch := p.epoch, source := p.source, action := p.action,
    requestId := p.requestId }

/-- `0|[1-9][0-9]{0,19}`. -/
def decimal (s : String) : Bool :=
  match s.toList with
  | [] => false
  | '0' :: rest => rest.isEmpty
  | c :: rest => '1' ≤ c && c ≤ '9' && rest.length ≤ 19 && rest.all Char.isDigit

/-- `[A-Za-z][A-Za-z0-9_-]{0,63}`. -/
def sourceName (s : String) : Bool :=
  match s.toList with
  | [] => false
  | c :: rest =>
    (('A' ≤ c && c ≤ 'Z') || ('a' ≤ c && c ≤ 'z')) && rest.length ≤ 63 && rest.all wordChar

/-- `[a-f0-9]`. -/
def hexChar (c : Char) : Bool := ('a' ≤ c && c ≤ 'f') || ('0' ≤ c && c ≤ '9')

/-- `valid_capability`. -/
def validCapability (status : Capability) : Bool :=
  status.apiVersion == "graphlab.source-control/v1" && status.size ≤ 2048 &&
  !status.sources.isEmpty && status.sources.length ≤ 4 &&
  repeated hexChar 32 32 status.epoch &&
  status.sources.all (fun s =>
    sourceName s.id && (s.state == "paused" || s.state == "running") &&
    decimal s.generatedDatagrams) &&
  (status.sources.map SourceStatus.id).Nodup

/-- `capability`: the failure a status gives for a command. -/
def capability (status : Capability) (p : SourceRequest) : Option String :=
  if !validCapability status then some "source_capability_invalid"
  else if status.epoch != p.epoch then some "source_epoch_changed"
  else if status.sources.any (fun s => s.id == p.source) then none
  else some "source_control_unsupported"

/-- The run's topology declares the source on the node. -/
def declared (run : Run) (p : SourceRequest) : Bool :=
  run.topology.application.any fun e => e.id == p.source && e.source == p.node

end Graphlab.Runtime.SourceControl
