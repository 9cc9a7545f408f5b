import Graphlab.Application.WellFormed
import Mathlib.Data.List.FinRange

/-!
# The loop of a node

A node echoes datagrams and records of streams while its gate is released, counts what it has
echoed, and answers one command of its control socket per round.  A gate that is released with a
lease is held again once the deadline has passed.

One round of the loop is a function of the state and of what the system calls of the round have
returned; the clock is one of them.  The clock is in nanoseconds.  Counters are numbers without a
bound.  The ledger of source commands and the reporter of messages are models of their own: of
them a round has the answer only.

## Main definitions

* `Gate`, `Gate.expire`, `control` — the gate, and what commands do with it.
* `Counters`, `Stream` — what was echoed; `nodeReport`, `edgeReport`.
* `round`, `run` — the loop.
-/

namespace Graphlab.Node

open Lib Application

/-- The arguments of `run_node`. -/
structure Config where
  application : String
  applicationTelemetry : Bool := false
  edgeTelemetry : Bool := false
  sourceTarget : Option String := none
  messageObservations : Bool := false

/-- The epoch of a process that reports, from the numbers that were drawn. -/
def drawnEpoch (random : Fin 32 → ℕ) : String :=
  String.ofList ((List.finRange 32).map fun i => "0123456789abcdef".toList.getD (random i % 16) '0')

/-! ## The gate -/

structure Gate where
  released : Bool := false
  leased : Bool := false
  deadline : ℕ := 0
  /-- The socket of datagrams is open. -/
  data : Bool := false
  /-- The listener of the streams is open. -/
  tcp : Bool := false
  deriving DecidableEq, Repr

/-- Hold the gate, and close its sockets. -/
def Gate.hold (g : Gate) : Gate :=
  { g with released := false, leased := false, data := false, tcp := false }

/-- `expire`. -/
def Gate.expire (g : Gate) (now : ℕ) : Gate :=
  if g.leased && decide (g.deadline ≤ now) then g.hold else g

/-- The ten seconds of a lease. -/
def lease : ℕ := 10000000000

/-- What a command finds. -/
structure Environment where
  /-- The clock as the command is begun. -/
  now : ℕ
  /-- The clock as a deadline is set. -/
  armed : ℕ := now
  /-- The address of `data0` is there, and the socket of datagrams is opened and bound. -/
  data : Bool := true
  /-- `data_address`, for the listener. -/
  address : Except String Unit := .ok ()
  /-- The listener is opened, bound and listens. -/
  listen : Bool := true
  /-- What the sources, the probe or the reporter have answered. -/
  answer : Except String Json := .ok .null
  /-- The clock as the command is done. -/
  done : ℕ := now
  /-- The time since the start, of the report. -/
  elapsed : ℕ := 0
  /-- The clock as the response is written. -/
  written : ℕ := done

/-- What a command adds to its response, with its key. -/
abbrev Answer := Except String (Option (String × Json))

def answered (key : String) : Except String Json → Answer
  | .ok v => .ok (some (key, v))
  | .error e => .error e

/-- Open the socket of datagrams, if there is none.  It is not an error if that fails. -/
def Gate.openData (g : Gate) (e : Environment) : Gate := if g.data then g else { g with data := e.data }

/-- Open the listener of the streams, if there is none. -/
def Gate.openListener (c : Config) (g : Gate) (e : Environment) : Gate × Answer :=
  if c.edgeTelemetry && !g.tcp then
    match e.address with
    | .error message => (g, .error message)
    | .ok () =>
      if e.listen then ({ g with tcp := true }, .ok none)
      else (g, .error "stream_listener_failed")
  else (g, .ok none)

/-- `release` and `release-lease`. -/
def release (c : Config) (g : Gate) (leased : Bool) (e : Environment) : Gate × Answer :=
  let g := { g with leased, deadline := e.armed + lease, released := true }
  (g.openData e).openListener c e

/-- `command.starts_with(...)`. -/
def startsWith (command start : String) : Bool := start.toList.isPrefixOf command.toList

/-- The handling of a command; an error is the text of the exception. -/
def control (c : Config) (g : Gate) (command : String) (e : Environment) : Gate × Answer :=
  let g := g.expire e.now
  if startsWith command "source-command " then
    if c.sourceTarget.isNone then (g, .error "source_control_unsupported")
    else (g, answered "sourceAcknowledgement" e.answer)
  else if command = "renew-lease" then
    if !g.released || !g.leased then (g, .error "lease_expired_or_not_armed")
    else ({ g with deadline := e.armed + lease }, .ok none)
  else if command = "release" ∨ command = "release-lease" then
    release c g (command == "release-lease") e
  else if command = "quiesce" then (g.hold, .ok none)
  else if startsWith command "probe-alpha " || startsWith command "probe-beta " ||
      startsWith command "probe " then
    if !g.released then (g, .error "gate_held") else (g, answered "probe" e.answer)
  else if command = "message-observations" ∧ c.messageObservations then
    (g, answered "messageObservations" e.answer)
  else if command ≠ "status" then (g, .error "unsupported_control")
  else (g, .ok none)

/-! ## What was echoed -/

/-- The counters of the datagrams. -/
structure Counters where
  packets : ℕ := 0
  sent : ℕ := 0
  receivedBytes : ℕ := 0
  sentBytes : ℕ := 0
  errors : ℕ := 0
  rejected : ℕ := 0
  backpressure : ℕ := 0
  sequence : ℕ := 0
  latencySum : ℕ := 0
  latencyBuckets : List ℕ := List.replicate 8 0

/-- A datagram, and what came of the attempt to echo it. -/
structure Datagram where
  size : ℕ
  /-- How long it took to echo it; none if `sendto` has failed. -/
  echoed : Option ℕ
  /-- `sendto` has failed for the time being. -/
  again : Bool := false

/-- The loop for the bucket of a latency, and the bucket's increment. -/
def count (buckets : List ℕ) (ns : ℕ) : List ℕ := buckets.modify (bucket bounds ns) (· + 1)

def Counters.datagram (k : Counters) (d : Datagram) : Counters :=
  let k := { k with packets := k.packets + 1, receivedBytes := k.receivedBytes + d.size }
  if 1500 < d.size then { k with rejected := k.rejected + 1 }
  else
    match d.echoed with
    | some ns =>
      { k with
        sent := k.sent + 1
        sentBytes := k.sentBytes + d.size
        latencySum := k.latencySum + ns
        latencyBuckets := count k.latencyBuckets ns }
    | none =>
      { k with
        errors := k.errors + 1
        backpressure := if d.again then k.backpressure + 1 else k.backpressure }

inductive Tag
  | alpha | beta
  deriving DecidableEq, Repr

def Tag.text : Tag → String
  | .alpha => "alpha"
  | .beta => "beta"

/-- `Stream`. -/
structure Stream where
  received : ℕ := 0
  bytes : ℕ := 0
  errors : ℕ := 0
  rejected : ℕ := 0
  connections : ℕ := 0
  count : ℕ := 0
  sum : ℕ := 0
  buckets : List ℕ := List.replicate 8 0

/-- A record that was read, and what came of the attempt to echo it. -/
structure Record where
  bytes : Fin 16 → Char
  echoed : Option ℕ

def Record.tag (r : Record) : Option Tag :=
  if r.bytes 0 = 'A' then some .alpha else if r.bytes 0 = 'B' then some .beta else none

def Stream.record (s : Stream) (r : Record) : Stream :=
  let s :=
    { s with connections := s.connections + 1, received := s.received + 1, bytes := s.bytes + 16 }
  if ∀ i, r.bytes i = r.bytes 0 then
    match r.echoed with
    | some ns => { s with count := s.count + 1, sum := s.sum + ns, buckets := Node.count s.buckets ns }
    | none => { s with errors := s.errors + 1 }
  else { s with rejected := s.rejected + 1 }

/-! ## Reports -/

/-- `latency` of a report. -/
def latencyJson (count sum : ℕ) (buckets : List ℕ) : Json :=
  .object [("buckets", .array (buckets.map word)), ("count", word count),
    ("kind", .string "local-service-time"), ("sumNs", word sum)]

/-- `applicationTelemetry`. -/
def nodeReport (epoch : String) (k : Counters) (elapsed : ℕ) : Json :=
  .object [
    ("apiVersion", .string "graphlab.application-telemetry/v1"),
    ("counters", .object [
      ("backpressureEvents", word k.backpressure),
      ("errors", word k.errors),
      ("receivedMessages", word k.packets),
      ("receivedPayloadBytes", word k.receivedBytes),
      ("rejectedMessages", word k.rejected),
      ("sentMessages", word k.sent),
      ("sentPayloadBytes", word k.sentBytes)]),
    ("elapsedNs", word elapsed),
    ("epoch", .string epoch),
    ("latency", latencyJson k.sent k.latencySum k.latencyBuckets),
    ("sequence", word k.sequence),
    ("stream", .string "udp-echo")]

/-- One of `applicationEdgeTelemetry`. -/
def edgeReport (epoch : String) (tag : Tag) (s : Stream) (sequence : ℕ) (elapsed : Json) : Json :=
  .object [
    ("apiVersion", .string "graphlab.application-edge-telemetry/v1"),
    ("counters", .object [
      ("backpressureEvents", .null),
      ("backpressureNs", .null),
      ("errors", word s.errors),
      ("receivedMessages", word s.received),
      ("receivedPayloadBytes", word s.bytes),
      ("reconnects", word (s.connections - 1)),
      ("rejectedMessages", word s.rejected),
      ("sentMessages", .null),
      ("sentPayloadBytes", .null)]),
    ("edge", .string tag.text),
    ("elapsedNs", elapsed),
    ("endpoint", .string "target"),
    ("epoch", .string epoch),
    ("latency", latencyJson s.count s.sum s.buckets),
    ("sequence", word sequence),
    ("stream", .string tag.text)]

/-! ## Rounds -/

/-- The state of `run_node`. -/
structure State where
  gate : Gate := {}
  counters : Counters := {}
  streams : Tag → Stream := fun _ => {}

/-- The sources' part of a round. -/
structure Generation where
  /-- The time of the next datagrams has come. -/
  due : Bool := false
  /-- The exception, if a socket for them is not there. -/
  failure : Option String := none
  /-- The clock before the datagram of each source. -/
  clocks : List ℕ := []

structure Request where
  command : String
  environment : Environment

/-- What a round finds once `poll` has returned. -/
structure Ready where
  polled : ℕ
  /-- The record of a stream, if one was read. -/
  record : Option Record := none
  streamed : ℕ := polled
  datagram : Option Datagram := none
  drained : ℕ := streamed
  generation : Generation := {}
  /-- The command, if one was read. -/
  request : Option Request := none

structure Round where
  start : ℕ
  /-- None if `poll` has failed. -/
  ready : Option Ready

structure Response where
  error : Option String
  answer : Option (String × Json)
  capabilities : List String
  state : String
  application : String
  echoPackets : Json
  applicationTelemetry : Option Json
  applicationEdgeTelemetry : List Json
  dataReady : Bool
  leaseActive : Bool
  leaseMilliseconds : ℕ

namespace State

variable (n : State)

def expire (now : ℕ) : State := { n with gate := n.gate.expire now }

/-- The record of a stream; of one of the two only if it begins with its character. -/
def stream (r : Option Record) : State :=
  match r with
  | some r =>
    match r.tag with
    | some tag =>
      if n.gate.released && n.gate.tcp then
        { n with streams := Function.update n.streams tag ((n.streams tag).record r) }
      else n
    | none => n
  | none => n

/-- The datagram.  Without telemetry its size is that of the buffer at most, and it is not empty. -/
def datagram (c : Config) (d : Option Datagram) : State :=
  match d with
  | some d =>
    let d := if c.applicationTelemetry then d else { d with size := min d.size 1500 }
    if n.gate.data && n.gate.released && (decide (0 < d.size) || c.applicationTelemetry) then
      { n with counters := n.counters.datagram d }
    else n
  | none => n

/-- The datagrams of the sources; without a socket for them the node ends. -/
def generate (c : Config) (g : Generation) : Except String State :=
  if c.sourceTarget.isSome && n.gate.released && g.due then
    match g.failure with
    | some failure => .error failure
    | none => .ok (g.clocks.foldl expire n)
  else .ok n

/-- Whether the response to a command has a report. -/
def reports (c : Config) (command : String) : Bool := c.applicationTelemetry && command == "status"

/-- The state after a command; a report has the next number. -/
def command (c : Config) (r : Request) : State :=
  { n with
    gate := (control c n.gate r.command r.environment).1.expire r.environment.done
    counters :=
      if reports c r.command then { n.counters with sequence := n.counters.sequence + 1 }
      else n.counters }

def capabilitiesOf (c : Config) (command : String) : List String :=
  ["quiesce", "traffic-lease"] ++
  (if c.messageObservations then ["message-observations/v1"] else []) ++
  (if c.applicationTelemetry then ["application-telemetry/v1"] else []) ++
  (if c.sourceTarget.isSome then ["source-control/v1"] else []) ++
  (if c.edgeTelemetry && command == "status" then ["application-edge-telemetry/v1"] else [])

/-- The response, of the state after the command.  A report of an edge has the time of the
node's; where there is none, the time is null. -/
def response (c : Config) (epoch : String) (r : Request) (answer : Answer) : Response where
  error :=
    match answer with
    | .error message => some message
    | .ok _ => none
  answer := answer.toOption.join
  capabilities := capabilitiesOf c r.command
  state := if n.gate.released then "released" else "held"
  application := c.application
  echoPackets := word n.counters.packets
  applicationTelemetry :=
    if reports c r.command then some (nodeReport epoch n.counters r.environment.elapsed)
    else if c.edgeTelemetry && r.command == "status" then some (.object [("elapsedNs", .null)])
    else none
  applicationEdgeTelemetry :=
    if c.edgeTelemetry && r.command == "status" then
      [Tag.alpha, .beta].map fun tag => edgeReport epoch tag (n.streams tag) n.counters.sequence
        (if reports c r.command then word r.environment.elapsed else .null)
    else []
  dataReady := n.gate.data
  leaseActive := n.gate.leased && n.gate.released
  leaseMilliseconds :=
    if n.gate.leased then (n.gate.deadline - r.environment.written) / 1000000 else 0

end State

/-- What a round does before it looks for a command. -/
def serve (c : Config) (n : State) (e : Ready) : Except String State :=
  let n := ((n.expire e.polled).stream e.record).expire e.streamed
  ((n.datagram c e.datagram).expire e.drained).generate c e.generation

/-- A round of the loop. -/
def round (c : Config) (epoch : String) (n : State) (e : Round) :
    Except String (State × Option Response) :=
  let n := n.expire e.start
  match e.ready with
  | none => .ok (n, none)
  | some ready => do
      let n ← serve c n ready
      match ready.request with
      | none => return (n, none)
      | some r =>
        let answer := (control c n.gate r.command r.environment).2
        let n := n.command c r
        return (n, some (n.response c epoch r answer))

/-- The rounds until the node is stopped or ends, with the responses. -/
def run (c : Config) (epoch : String) : State → List Round → State × List Response
  | n, [] => (n, [])
  | n, e :: es =>
    match round c epoch n e with
    | .error _ => (n, [])
    | .ok (n, response) => ((run c epoch n es).1, response.toList ++ (run c epoch n es).2)

end Graphlab.Node
