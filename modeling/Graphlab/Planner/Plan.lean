import Graphlab.Contracts.Validate
import Graphlab.Lib.Kahn

/-!
# Plans

`plan`: the steps that bring up an accepted topology, in an order that has every dependency
of a step before it, and the order in which resources are taken down.

`canonical["k"]` of a constant document is `member`; validation has checked that all that
the planner reads is there.

## Main definitions

* `Step` — one step; `step` is the `add` of the source.
* `rawSteps` — the steps in the order in which the source adds them.
* `plan`.
-/

namespace Graphlab.Planner

open Lib
open Contracts (Platform ValidatedTopology Node Kind Edge Error validate nodeName)
open Std (TreeMap)

/-! ## Steps -/

inductive Operation
  | verifyRuntime | prepareManagement | prepareBridge | prepareGuestResources | prepareContainer
  | prepareLink | configurePolicy | preparePausedGuest | armCapture | awaitCaptures | enableLinks
  | awaitPolicy | continueGuest | releaseWorkload | awaitReadiness | markReady
  deriving DecidableEq, Repr

def Operation.text : Operation → String
  | .verifyRuntime => "verify-runtime-and-reserve"
  | .prepareManagement => "prepare-management"
  | .prepareBridge => "prepare-ovs-bridge"
  | .prepareGuestResources => "prepare-guest-resources"
  | .prepareContainer => "prepare-gated-container"
  | .prepareLink => "prepare-disabled-link"
  | .configurePolicy => "configure-vlan-and-tree"
  | .preparePausedGuest => "prepare-paused-guest"
  | .armCapture => "arm-capture"
  | .awaitCaptures => "await-capture-activation"
  | .enableLinks => "enable-data-links"
  | .awaitPolicy => "await-network-policy"
  | .continueGuest => "continue-guest"
  | .releaseWorkload => "release-workload"
  | .awaitReadiness => "await-workload-readiness"
  | .markReady => "mark-run-ready"

/-- `op.starts_with("prepare-") || op == "arm-capture"`. -/
def Operation.tornDown (o : Operation) : Bool :=
  "prepare-".toList.isPrefixOf o.text.toList || o.text == "arm-capture"

structure Step where
  id : String
  operation : Operation
  dependsOn : List String
  resource : Json
  deriving DecidableEq

/-- `add`: the dependencies are sorted, each once. -/
def step (key : String) (operation : Operation) (dependencies : List String)
    (resource : Json := .object []) : Step where
  id := key
  operation := operation
  dependsOn := unique (sortOn (fun s => s) dependencies)
  resource := resource

/-- `p[k]`. -/
def member (p : Json) (k : String) : Json := (p.find? k).getD .null

/-- `p[k].get<std::string>()`. -/
def textOf (p : Json) (k : String) : String :=
  match p.find? k with
  | some (.string s) => s
  | _ => ""

/-- `p.items()`. -/
def items : Json → List (String × Json)
  | .object fs => fs
  | _ => []

/-! ## Preparation -/

def preflight : Step :=
  step "preflight" .verifyRuntime []
    (.object [("executionAllowed", .bool false), ("runtimeChecks", .string "deferred")])

def networks (t : ValidatedTopology) : List (String × Json) :=
  items (member (member t.canonical "management") "networks")

def managementStep (f : String × Json) : Step :=
  step ("management/" ++ f.1) .prepareManagement ["preflight"]
    (.object [("configuration", f.2), ("network", .string f.1)])

/-- The management attachments of a node. -/
def attachmentsAt (t : ValidatedTopology) (key : String) : List Json :=
  (member t.canonical "managementAttachments").elements.filter fun a =>
    (key ++ ":").toList.isPrefixOf (textOf a "endpoint").toList

def prepareOf : Kind → Operation
  | .ovsSwitch => .prepareBridge
  | .qemu => .prepareGuestResources
  | .docker => .prepareContainer

/-- The resource of a node. -/
def nodeResource (t : ValidatedTopology) (f : String × Node) : Json :=
  let base : Json := .object [("configuration", member (member t.canonical "nodes") f.1),
    ("kind", .string f.2.kind.text), ("node", .string f.1)]
  let base := match f.2.kind with
    | .ovsSwitch => base.set "failureDomain" (.string "host/shared-ovs")
    | _ => base.set "artifact" (member (member t.artifacts "workloads") f.2.workload)
  base.set "managementAttachments" (.array (attachmentsAt t f.1))

def nodeStep (t : ValidatedTopology) (f : String × Node) : Step :=
  step ("node/" ++ f.1) (prepareOf f.2.kind)
    ("preflight" :: (attachmentsAt t f.1).map fun a => "management/" ++ textOf a "network")
    (nodeResource t f)

/-- `t.nodes.at(key).kind`, of a node that is there. -/
def kindAt (t : ValidatedTopology) (key : String) : Option Kind :=
  (lookup key t.nodes).map Node.kind

/-- The link of an edge, and whether a bridge stands between its ends. -/
def primitive (t : ValidatedTopology) (e : Edge) : String × Bool :=
  let a := kindAt t (nodeName e.first)
  let b := kindAt t (nodeName e.second)
  let tap := a == some .qemu || b == some .qemu
  let attachment := tap && a != some .ovsSwitch && b != some .ovsSwitch
  (if attachment then "attachment-bridge" else if tap then "tap" else "veth", attachment)

def edgeStep (t : ValidatedTopology) (e : Edge) : Step :=
  step ("edge/" ++ e.id) .prepareLink
    ["node/" ++ nodeName e.first, "node/" ++ nodeName e.second]
    (.object [("adminUp", .bool false), ("edge", .string e.id),
      ("endpoints", .array [.string e.first, .string e.second]),
      ("internalAttachment", .bool (primitive t e).2), ("primitive", .string (primitive t e).1)])

/-- All steps that prepare resources. -/
def preparation (t : ValidatedTopology) : List Step :=
  (networks t).map managementStep ++ t.nodes.map (nodeStep t) ++ t.edges.map (edgeStep t)

/-- Keys, or another key if there are none. -/
def orElse (keys : List String) (other : String) : List String :=
  if keys.isEmpty then [other] else keys

def policyStep (t : ValidatedTopology) : Step :=
  step "policy" .configurePolicy (orElse ((preparation t).map Step.id) "preflight")
    (.object [("loopPolicy", member t.canonical "loopPolicy")])

/-! ## Captures -/

def guests (t : ValidatedTopology) : List (String × Node) :=
  t.nodes.filter fun f => f.2.kind == .qemu

def guestStep (f : String × Node) : Step :=
  step ("guest/" ++ f.1 ++ "/paused") .preparePausedGuest ["policy", "node/" ++ f.1]
    (.object [("node", .string f.1)])

/-- The endpoint at which an edge is captured, and how. -/
def capturePoint (t : ValidatedTopology) (e : Edge) : String × String :=
  let a := kindAt t (nodeName e.first)
  let b := kindAt t (nodeName e.second)
  if a == some .qemu || b == some .qemu then
    (if a == some .qemu then e.first else e.second, "guest-tap")
  else if a == some .docker && b == some .docker then (e.first, "endpoint0-container-veth")
  else if a == some .docker || b == some .docker then
    (if a == some .docker then e.first else e.second, "workload-host-veth")
  else (e.first, "endpoint0-host-veth")

def captureStep (t : ValidatedTopology) (e : Edge) : Step :=
  step ("capture/" ++ e.id) .armCapture ["policy", "edge/" ++ e.id]
    (.object [("capturePoint", .string (capturePoint t e).2),
      ("directionMappingVerified", .bool false), ("edge", .string e.id),
      ("format", .string "pcapng"), ("logicalEndpoint", .string (capturePoint t e).1),
      ("runtimeMappingRequired", .bool true)])

/-- The steps that must be done before the barrier. -/
def armed (t : ValidatedTopology) : List Step :=
  (guests t).map guestStep ++ t.edges.map (captureStep t)

def barrierStep (t : ValidatedTopology) : Step :=
  step "capture-barrier" .awaitCaptures (orElse ((armed t).map Step.id) "policy")
    (.object [("expectedCount", .number t.edges.length),
      ("required", member (member t.canonical "capture") "required")])

def enableStep : Step := step "enable-data" .enableLinks ["capture-barrier"]

def convergeStep (t : ValidatedTopology) : Step :=
  step "converge" .awaitPolicy ["enable-data"]
    (.object [("loopPolicy", member t.canonical "loopPolicy")])

/-! ## Release -/

def workloads (t : ValidatedTopology) : List (String × Node) :=
  t.nodes.filter fun f => f.2.kind != .ovsSwitch

def releaseStep (f : String × Node) : Step :=
  step ("release/" ++ f.1) (if f.2.kind == .qemu then .continueGuest else .releaseWorkload)
    (["converge", "node/" ++ f.1] ++
      if f.2.kind == .qemu then ["guest/" ++ f.1 ++ "/paused"] else [])

def healthStep (f : String × Node) : Step :=
  step ("health/" ++ f.1) .awaitReadiness ["release/" ++ f.1] (.object [("node", .string f.1)])

def readyStep (t : ValidatedTopology) : Step :=
  step "ready" .markReady (orElse ((workloads t).map fun f => "health/" ++ f.1) "converge")

/-- The steps in the order in which they are added. -/
def rawSteps (t : ValidatedTopology) : List Step :=
  preflight :: preparation t ++ policyStep t :: armed t ++
    [barrierStep t, enableStep, convergeStep t] ++
    (workloads t).flatMap (fun f => [releaseStep f, healthStep f]) ++ [readyStep t]

/-! ## The order of the steps -/

/-- `steps`, by their keys. -/
def stepMap (raw : List Step) : TreeMap String Step :=
  raw.foldl (fun m s => m.insert s.id s) ∅

/-- The steps as tasks. -/
def graphOf (steps : TreeMap String Step) : Graph String :=
  steps.toList.map fun f => (f.1, f.2.dependsOn)

/-- The steps in the order of Kahn's algorithm. -/
def ordered (steps : TreeMap String Step) : Except Error (List Step) :=
  match (graphOf steps).missing with
  | some (key, name) => .error ⟨"planner_error", key, "missing dependency: " ++ name⟩
  | none =>
    let result := (graphOf steps).order.filterMap (steps[·]?)
    if result.length ≠ steps.size then
      .error ⟨"planner_error", "steps", "resource dependency cycle"⟩
    else .ok result

/-- The steps whose resources are taken down, last first. -/
def teardown (steps : List Step) : List String :=
  (steps.reverse.filter fun s => s.operation.tornDown).map Step.id

structure Plan where
  apiVersion : String := "graphlab.plan/v1"
  mode : String := "dry-run"
  executable : Bool := false
  topologyHash : String
  artifactLockHash : Json
  /-- `summary`. -/
  nodes : ℕ
  dataEdges : ℕ
  captures : ℕ
  canonicalTopology : Json
  steps : List Step
  resourceTeardownOrder : List String
  deferredChecks : List String :=
    ["artifact bytes/registry availability", "host routes and resource budgets",
      "KVM/devices/privileges", "Docker/OVS/QEMU versions and ownership",
      "capture direction and activation", "runtime generation and physical names"]
  deriving DecidableEq

/-- The plan of an accepted topology. -/
def planOf (t : ValidatedTopology) : Except Error Plan := do
  let steps ← ordered (stepMap (rawSteps t))
  return {
    topologyHash := t.hash
    artifactLockHash := member t.canonical "artifactLock"
    nodes := t.nodes.length
    dataEdges := t.edges.length
    captures := t.edges.length
    canonicalTopology := t.canonical
    steps
    resourceTeardownOrder := teardown steps }

/-- `plan`. -/
def plan (lib : Platform) (topology artifacts : Json) : Except Error Plan := do
  let t ← validate lib topology artifacts
  planOf t

end Graphlab.Planner
