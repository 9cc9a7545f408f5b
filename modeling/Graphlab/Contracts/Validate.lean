import Graphlab.Contracts.Checks
import Graphlab.Lib.Components

/-!
# Validation of a topology

`validate`: the checks of a topology against an artifact lock, its nodes and edges, and the
canonical topology with all defaults written out and its lists sorted.

The loops of the source check an element against those before it; they are `collect` here,
and the sets that the source fills beside them (`edge_ids`, `used`, `ids`, `links`,
`subnets`, `allocations`) are read off what was collected.

## Main definitions

* `nodeOf`, `edgeOf`, `flowOf`, `networkOf`, `attachmentOf` — one element of each loop.
* `loopCheck` — the components of the switches.
* `validate`.
-/

namespace Graphlab.Contracts

open Lib

/-! ## What validation returns -/

inductive Kind
  | docker | qemu | ovsSwitch
  deriving DecidableEq, Repr

def Kind.text : Kind → String
  | .docker => "docker"
  | .qemu => "qemu"
  | .ovsSwitch => "ovs-switch"

def kindOf (s : String) : Option Kind :=
  if s = "docker" then some .docker
  else if s = "qemu" then some .qemu
  else if s = "ovs-switch" then some .ovsSwitch
  else none

inductive Role
  | data | management
  deriving DecidableEq, Repr

def Role.text : Role → String
  | .data => "data"
  | .management => "management"

def roleOf (s : String) : Option Role :=
  if s = "data" then some .data else if s = "management" then some .management else none

inductive LoopPolicy
  | rstp | unprotected
  deriving DecidableEq, Repr

def LoopPolicy.text : LoopPolicy → String
  | .rstp => "rstp"
  | .unprotected => "unprotected"

def loopOf (s : String) : Option LoopPolicy :=
  if s = "rstp" then some .rstp else if s = "unprotected" then some .unprotected else none

/-- `Port`.  A port without VLAN policy has none where the source has the empty object. -/
structure Port where
  role : Role
  medium : String
  mtu : ℤ
  vlan : Option Json
  deriving DecidableEq, Repr

/-- `Node`. -/
structure Node where
  kind : Kind
  workload : String
  ports : List (String × Port)
  deriving DecidableEq, Repr

/-- `Edge`. -/
structure Edge where
  id : String
  first : String
  second : String
  deriving DecidableEq, Repr

/-- `ValidatedTopology`. -/
structure ValidatedTopology where
  canonical : Json
  artifacts : Json
  nodes : List (String × Node)
  edges : List Edge
  hash : String
  deriving DecidableEq

/-- A text that must be one of an enumeration. -/
def oneOf {α : Type} (parse : String → Option α) (s path message : String)
    (code : String := "validation_error") : Except Error α :=
  match parse s with
  | some a => .ok a
  | none => fail path message code

/-! ## The head of a topology -/

/-- The limits on nodes and edges. -/
def limitsOf (t : Json) : Except Error (ℤ × ℤ) :=
  match t.find? "limits" with
  | none => .ok (1024, 8192)
  | some l => do
      fields l "limits" ["maxNodes", "maxEdges"]
      let maxNodes ← need l "maxNodes" "limits"
      let maxNodes ← number maxNodes "limits.maxNodes" 1 10000
      let maxEdges ← need l "maxEdges" "limits"
      let maxEdges ← number maxEdges "limits.maxEdges" 0 100000
      return (maxNodes, maxEdges)

def loopPolicyText (t : Json) : Except Error String :=
  match t.find? "loopPolicy" with
  | none => .ok "rstp"
  | some v => str v "loopPolicy"

structure Head where
  maxNodes : ℤ
  maxEdges : ℤ
  loop : LoopPolicy
  deriving DecidableEq, Repr

/-- The keys of a topology. -/
def topologyFields : List String :=
  ["apiVersion", "id", "artifactLock", "backend", "management", "nodes", "edges",
    "managementAttachments", "capture", "requiredFeatures", "limits", "loopPolicy", "application"]

/-- The checks of a topology's version, lock, backend and capture. -/
def settings (lib : Platform) (t lock : Json) : Except Error Unit := do
  let version ← getstr t "apiVersion" "topology"
  ensure "topology.apiVersion" "unsupported topology major" (version == "graphlab.topology/v2")
    "unsupported_version"
  let name ← getstr t "id" "topology"
  id name "topology.id"
  features t "topology"
  let lockhash ← getstr t "artifactLock" "topology"
  hash lockhash "topology.artifactLock"
  ensure "topology.artifactLock" "artifact lock hash mismatch" (lib.digest lock == lockhash)
    "integrity_error"
  let backend ← need t "backend" "topology"
  fields backend "backend" ["kind", "switchIsolation"]
  let kind ← getstr backend "kind" "backend"
  ensure "backend" "only linux-local/shared-ovs is supported" (kind == "linux-local")
    "unsupported_backend"
  let isolation ← getstr backend "switchIsolation" "backend"
  ensure "backend" "only linux-local/shared-ovs is supported" (isolation == "shared-ovs")
    "unsupported_backend"
  let capture ← need t "capture" "topology"
  fields capture "capture" ["required", "scope", "format"]
  let required ← need capture "required" "capture"
  let _ ← boolean required "capture.required"
  let scope ← getstr capture "scope" "capture"
  ensure "capture" "expected all-data-edges / pcapng" (scope == "all-data-edges")
  let format ← getstr capture "format" "capture"
  ensure "capture" "expected all-data-edges / pcapng" (format == "pcapng")

/-- All checks before those of the nodes. -/
def headOf (lib : Platform) (t lock : Json) : Except Error Head := do
  fields t "topology" topologyFields
  settings lib t lock
  let (maxNodes, maxEdges) ← limitsOf t
  let loop ← loopPolicyText t
  let loop ← oneOf loopOf loop "loopPolicy" "expected rstp or explicit unprotected"
  return { maxNodes, maxEdges, loop }

/-! ## Nodes -/

/-- The contract of a workload in a lock. -/
def contractOf (lock : Json) (workload : String) : Option Json :=
  ((lock.find? "workloads").bind (·.find? workload)).bind (·.find? "contract")

def interfacesOf (lock : Json) (workload : String) : List (String × Json) :=
  match (contractOf lock workload).bind (·.find? "interfaces") with
  | some (.object fs) => fs
  | _ => []

/-- The policy of a switch. -/
def switchPolicy (n : Json) (p : String) : Except Error Unit := do
  ensure p "switch cannot carry workload or host addresses"
    ((n.find? "workload").isNone && (n.find? "addresses").isNone)
  let policy ← need n "policy" p
  fields policy (p ++ ".policy") ["forwarding", "rstp", "priority"]
  let forwarding ← getstr policy "forwarding" p
  ensure (p ++ ".policy.forwarding") "only normal forwarding supported" (forwarding == "normal")
  let rstp ← need policy "rstp" p
  let _ ← boolean rstp (p ++ ".policy.rstp")
  let priority ← need policy "priority" p
  let priority ← number priority (p ++ ".policy.priority") 0 61440
  ensure (p ++ ".policy.priority") "RSTP priority must be multiple of 4096"
    (priority % 4096 == 0)

/-- The workload of a node. -/
def workloadOf (lock : Json) (kind : Kind) (n : Json) (p : String) : Except Error String := do
  ensure (p ++ ".policy") "switch policy on a workload" (n.find? "policy").isNone
  let name ← getstr n "workload" p
  ensure (p ++ ".workload") "unresolved workload reference"
    (((lock.find? "workloads").bind (·.find? name)).isSome)
  ensure (p ++ ".kind") "workload kind mismatch"
    (decide ((contractOf lock name).bind (·.find? "kind") = some (.string kind.text)))
  return name

/-- What a node of a kind must have: its workload, empty for a switch. -/
def kindCheck (lock : Json) (kind : Kind) (n : Json) (p : String) : Except Error String :=
  match kind with
  | .ovsSwitch => do
      switchPolicy n p
      return ""
  | kind => workloadOf lock kind n p

/-- One VLAN of a trunk, after those before. -/
def vlanId (q : String) (seen : List ℤ) (v : Json) : Except Error ℤ := do
  let n ← number v (q ++ ".vlan.trunk") 1 4094
  ensure (q ++ ".vlan.trunk") "duplicate VLAN" (!seen.contains n)
  return n

/-- The VLAN policy of a switch port, its trunk sorted. -/
def vlanPolicy (vlan : Json) (q : String) : Except Error Json := do
  fields vlan (q ++ ".vlan") ["access", "trunk"]
  let fs ← object vlan (q ++ ".vlan")
  ensure (q ++ ".vlan") "exactly one access or trunk policy required" (fs.length == 1)
  match vlan.find? "access" with
  | some access => do
      let _ ← number access (q ++ ".vlan.access") 1 4094
      return vlan
  | none => do
      let trunk ← array ((vlan.find? "trunk").getD .null) (q ++ ".vlan.trunk")
      let ids ← collect (vlanId q) trunk []
      ensure (q ++ ".vlan.trunk") "explicit nonempty trunk required" (!ids.isEmpty)
      return vlan.set "trunk" (.array ((sortOn (fun n => n) ids).map .number))

/-- The VLAN policy of a port. -/
def vlanOf (kind : Kind) (v : Json) (q : String) : Except Error (Option Json) :=
  match v.find? "vlan" with
  | some vlan => do
      ensure (q ++ ".vlan") "VLAN wiring belongs to switch ports" (kind == .ovsSwitch)
      let vlan ← vlanPolicy vlan q
      return some vlan
  | none => do
      ensure (q ++ ".vlan") "explicit switch VLAN policy required" (kind != .ovsSwitch)
      return none

def mediumOf (v : Json) (q : String) : Except Error String :=
  match v.find? "medium" with
  | none => .ok "ethernet"
  | some m => str m (q ++ ".medium")

def mtuOf (v : Json) (q : String) : Except Error ℤ :=
  match v.find? "mtu" with
  | none => .ok 1500
  | some m => number m (q ++ ".mtu") 576 9216

/-- The port is as the interface of a contract says. -/
def fits (spec : Json) (role : Role) (medium : String) (mtu : ℤ) : Bool :=
  decide (spec.find? "role" = some (.string role.text)) &&
    decide (spec.find? "medium" = some (.string medium)) &&
    match spec.find? "mtuRange" with
    | some (.array [.number lo, .number hi]) => decide (lo ≤ mtu) && decide (mtu ≤ hi)
    | _ => false

/-- A port of a workload against the contract. -/
def contractCheck (lock : Json) (kind : Kind) (workload name q : String) (port : Port) :
    Except Error Unit :=
  match kind with
  | .ovsSwitch => .ok ()
  | _ =>
    match lookup name (interfacesOf lock workload) with
    | none => fail q "port not declared by workload"
    | some spec =>
      ensure q "port incompatible with workload contract"
        (fits spec port.role port.medium port.mtu)

/-- A port in the canonical topology. -/
def canonicalPort (v : Json) (port : Port) : Json :=
  let v := (v.set "medium" (.string port.medium)).set "mtu" (.number port.mtu)
  match port.vlan with
  | some vlan => v.set "vlan" vlan
  | none => v

/-- One port. -/
def portOf (lock : Json) (kind : Kind) (workload p : String) (f : String × Json) :
    Except Error (String × Port) := do
  let v := f.2
  let q := p ++ ".ports." ++ f.1
  id f.1 q
  fields v q ["role", "medium", "mtu", "vlan"]
  let role ← getstr v "role" q
  let role ← oneOf roleOf role (q ++ ".role") "unknown role"
  ensure (q ++ ".role") "switch management uses host socket, not a data bridge port"
    (!(kind == .ovsSwitch && role != .data))
  let medium ← mediumOf v q
  ensure (q ++ ".medium") "only ethernet supported" (medium == "ethernet")
  let mtu ← mtuOf v q
  let vlan ← vlanOf kind v q
  let port : Port := { role, medium, mtu, vlan }
  contractCheck lock kind workload f.1 q port
  return (f.1, port)

/-- An interface that a contract requires. -/
def requiredCheck (ports : List (String × Port)) (p : String) (f : String × Json) :
    Except Error Unit :=
  ensure (p ++ ".ports." ++ f.1) "required workload interface missing"
    (!(decide (f.2.find? "required" = some (.bool true)) && (lookup f.1 ports).isNone))

/-- An address of a node. -/
def addressCheck (lib : Platform) (ports : List (String × Port)) (p : String)
    (f : String × Json) : Except Error Unit := do
  let path := p ++ ".addresses." ++ f.1
  ensure path "address requires declared data port"
    (((lookup f.1 ports).map Port.role) == some .data)
  let text ← str f.2 path
  let _ ← cidr lib text path

def addressesCheck (lib : Platform) (ports : List (String × Port)) (n : Json) (p : String) :
    Except Error Unit :=
  match n.find? "addresses" with
  | none => .ok ()
  | some addresses => do
      let addresses ← object addresses (p ++ ".addresses")
      each (addressCheck lib ports p) addresses

/-- A node with its ports in the canonical topology. -/
def canonicalNode (n : Json) (raw : List (String × Json)) (ports : List (String × Port)) : Json :=
  n.set "ports" (.object (List.zipWith (fun f g => (f.1, canonicalPort f.2 g.2)) raw ports))

/-- One node: its key, what it is, and its canonical form. -/
def nodeOf (lib : Platform) (lock : Json) (f : String × Json) :
    Except Error (String × Node × Json) := do
  let n := f.2
  let p := "nodes." ++ f.1
  id f.1 p
  fields n p ["kind", "workload", "ports", "policy", "addresses"]
  let kind ← getstr n "kind" p
  let kind ← oneOf kindOf kind (p ++ ".kind") "unsupported node kind" "unsupported_backend"
  let workload ← kindCheck lock kind n p
  let raw ← need n "ports" p
  let raw ← object raw (p ++ ".ports")
  let ports ← collect (fun _ => portOf lock kind workload p) raw []
  if kind != .ovsSwitch then each (requiredCheck ports p) (interfacesOf lock workload)
  addressesCheck lib ports n p
  return (f.1, { kind, workload, ports }, canonicalNode n raw ports)

/-- The nodes of a topology. -/
def nodesOf (lib : Platform) (t lock : Json) (head : Head) :
    Except Error (List (String × Node × Json)) := do
  let nodes ← need t "nodes" "topology"
  let nodes ← object nodes "nodes"
  ensure "nodes" "node budget exceeded" (decide ((nodes.length : ℤ) ≤ head.maxNodes))
    "resource_limit"
  collect (fun _ => nodeOf lib lock) nodes []

/-! ## Edges -/

/-- `e.substr(0, e.find(':'))`. -/
def nodeName (e : String) : String := String.ofList (e.toList.takeWhile (· ≠ ':'))

def portName (e : String) : String := String.ofList ((e.toList.dropWhile (· ≠ ':')).drop 1)

/-- `endpoint`: the node of an endpoint and its port. -/
def endpoint (nodes : List (String × Node)) (e p : String) : Except Error (Node × Port) :=
  if e.toList.count ':' ≠ 1 then fail p "endpoint must be node:port"
  else match lookup (nodeName e) nodes with
    | none => fail p ("undeclared endpoint: " ++ e)
    | some node =>
      match lookup (portName e) node.ports with
      | none => fail p ("undeclared endpoint: " ++ e)
      | some port => .ok (node, port)

def Edge.endpoints (e : Edge) : List String := [e.first, e.second]

/-- Two texts in an array. -/
def pairOf (v : Json) (p : String) : Except Error (String × String) := do
  let eps ← array v (p ++ ".endpoints")
  match eps with
  | [x, y] => do
      let first ← str x p
      let second ← str y p
      return (first, second)
  | _ => fail p "exactly two endpoints required"

/-- One edge, after those before. -/
def edgeOf (nodes : List (String × Node)) (loop : LoopPolicy) (done : List Edge) (e : Json) :
    Except Error Edge := do
  fields e "edge" ["id", "endpoints"]
  let key ← getstr e "id" "edge"
  id key "edge.id"
  let p := "edges." ++ key
  ensure p "duplicate edge ID" (!(done.map Edge.id).contains key)
  let eps ← need e "endpoints" p
  let (first, second) ← pairOf eps p
  let (a, ap) ← endpoint nodes first p
  let (_, bp) ← endpoint nodes second p
  let used := done.flatMap Edge.endpoints
  ensure p "endpoint reused" (!used.contains first && !(first :: used).contains second)
  ensure p "incompatible endpoint roles, media or MTUs"
    (ap.role == .data && bp.role == .data && ap.medium == bp.medium && ap.mtu == bp.mtu)
  ensure p "self-links require switch ports and explicit unprotected loopPolicy"
    (!(nodeName first == nodeName second && (a.kind != .ovsSwitch || loop != .unprotected)))
  return { id := key, first, second }

/-- The edges of a topology. -/
def edgesOf (t : Json) (head : Head) (nodes : List (String × Node)) :
    Except Error (List Edge) := do
  let edges ← need t "edges" "topology"
  let edges ← array edges "edges"
  ensure "edges" "edge budget exceeded" (decide ((edges.length : ℤ) ≤ head.maxEdges))
    "resource_limit"
  collect (edgeOf nodes head.loop) edges []

/-! ## Application flows -/

/-- The node that a flow names. -/
def flowNode (nodes : List (String × Node)) (flow : Json) (field p : String) :
    Except Error Unit := do
  let node ← getstr flow field p
  ensure (p ++ "." ++ field) "expected declared workload node"
    (match lookup node nodes with
    | some n => n.kind != .ovsSwitch
    | none => false)

/-- A letter or digit, then up to 127 letters, digits, dots, underscores, colons, slashes and
dashes. -/
def declaration (s : String) : Bool :=
  match s.toList with
  | c :: cs => c.isAlphanum && decide (cs.length ≤ 127) &&
      cs.all fun c => c.isAlphanum || ['.', '_', ':', '/', '-'].contains c
  | [] => false

def declarationCheck (protocol : Json) (p field : String) : Except Error Unit := do
  let value ← getstr protocol field p
  ensure (p ++ ".protocol") "invalid or oversized declaration identifier" (declaration value)

/-- The protocol that a flow declares. -/
def protocolCheck (flow : Json) (p : String) : Except Error Unit :=
  match flow.find? "protocol" with
  | none => .ok ()
  | some protocol => do
      fields protocol (p ++ ".protocol") ["apiVersion", "transport", "framing", "schema"]
      let version ← getstr protocol "apiVersion" p
      ensure (p ++ ".protocol.apiVersion") "unsupported protocol declaration version"
        (version == "graphlab.application-protocol/v1")
      each (declarationCheck protocol p) ["transport", "framing", "schema"]

/-- One data edge that a flow is mapped to, after those before. -/
def linkOf (edges : List Edge) (p : String) (links : List String) (ref : Json) :
    Except Error String := do
  let link ← str ref (p ++ ".networkEdges")
  ensure (p ++ ".networkEdges") "unknown or duplicate data edge"
    ((edges.map Edge.id).contains link && !links.contains link)
  return link

/-- One flow, after those before: its identifier and its canonical form. -/
def flowOf (nodes : List (String × Node)) (edges : List Edge) (done : List (String × Json))
    (flow : Json) : Except Error (String × Json) := do
  fields flow "application.edge" ["id", "source", "target", "networkEdges", "protocol"]
  let key ← getstr flow "id" "application.edge"
  id key "application.edge.id"
  let p := "application.edges." ++ key
  ensure p "duplicate application edge ID" (!(done.map Prod.fst).contains key)
  each (fun field => flowNode nodes flow field p) ["source", "target"]
  protocolCheck flow p
  let refs ← need flow "networkEdges" p
  let refs ← array refs (p ++ ".networkEdges")
  ensure p "network mapping budget exceeded" (decide (refs.length ≤ 256)) "resource_limit"
  let links ← collect (linkOf edges p) refs []
  return (key, flow.set "networkEdges" (.array ((sortOn (fun s => s) links).map .string)))

/-- The application of a topology in its canonical form. -/
def applicationOf (t : Json) (nodes : List (String × Node)) (edges : List Edge) :
    Except Error (Option Json) :=
  match t.find? "application" with
  | none => .ok none
  | some app => do
      fields app "application" ["apiVersion", "edges"]
      let version ← getstr app "apiVersion" "application"
      ensure "application.apiVersion" "unsupported dataflow version"
        (version == "graphlab.application-dataflow/v1") "unsupported_version"
      let flows ← need app "edges" "application"
      let flows ← array flows "application.edges"
      ensure "application.edges" "application edge budget exceeded"
        (decide (flows.length ≤ 1024)) "resource_limit"
      let flows ← collect (flowOf nodes edges) flows []
      return some (app.set "edges" (.array ((sortOn Prod.fst flows).map Prod.snd)))

/-! ## Loop protection -/

def isSwitch (nodes : List (String × Node)) (key : String) : Bool :=
  ((lookup key nodes).map Node.kind) == some .ovsSwitch

/-- The edges between switches. -/
def switchLinks (nodes : List (String × Node)) (edges : List Edge) : List (String × String) :=
  (edges.map fun e => (nodeName e.first, nodeName e.second)).filter fun l =>
    isSwitch nodes l.1 && isSwitch nodes l.2

/-- `t["nodes"][key]["policy"]["rstp"] == true`. -/
def rstp (t : Json) (key : String) : Bool :=
  decide ((((t.find? "nodes").bind (·.find? key)).bind (·.find? "policy")).bind (·.find? "rstp") =
    some (.bool true))

/-- One switch against the components with a cycle. -/
def rstpCheck (t : Json) (links : List (String × String)) (f : String × Node) :
    Except Error Unit :=
  let u := Unions.ofList links
  let root := root u.parent links.length
  ensure ("nodes." ++ f.1 ++ ".policy.rstp")
    "cyclic switch component needs RSTP or explicit unprotected policy"
    (!(f.2.kind == .ovsSwitch && u.cyclic.any fun c => root f.1 == root c && !rstp t f.1))

/-- Every switch in a component with a cycle must enable RSTP. -/
def loopCheck (t : Json) (loop : LoopPolicy) (nodes : List (String × Node)) (edges : List Edge) :
    Except Error Unit :=
  match loop with
  | .rstp => each (rstpCheck t (switchLinks nodes edges)) nodes
  | .unprotected => .ok ()

/-! ## Management -/

structure Network where
  name : String
  subnet : Cidr
  pool : Cidr
  gateway : BitVec 32
  deriving DecidableEq, Repr

/-- The last address of a network. -/
def broadcast (c : Cidr) : BitVec 32 := c.ip ||| ~~~c.mask

def overlaps (a b : Cidr) : Bool := inside a b || inside b a

/-- A network against one before it. -/
def overlapCheck (subnet : Cidr) (p : String) (other : Network) : Except Error Unit :=
  ensure p ("management networks overlap: " ++ other.name) (!overlaps subnet other.subnet)

/-- One management network, after those before. -/
def networkOf (lib : Platform) (done : List Network) (f : String × Json) :
    Except Error Network := do
  let n := f.2
  let p := "management.networks." ++ f.1
  id f.1 p
  fields n p ["subnet", "dynamicPool", "gateway", "externalAccess"]
  let subnet ← getstr n "subnet" p
  let subnet ← cidr lib subnet (p ++ ".subnet")
  let pool ← getstr n "dynamicPool" p
  let pool ← cidr lib pool (p ++ ".dynamicPool")
  ensure (p ++ ".subnet") "canonical IPv4 network with prefix 8..30 required"
    (decide (8 ≤ subnet.prefixLength) && decide (subnet.prefixLength ≤ 30) &&
      subnet.ip == subnet.ip &&& subnet.mask)
  ensure (p ++ ".dynamicPool") "canonical pool must be contained by subnet"
    (decide (subnet.prefixLength ≤ pool.prefixLength) && pool.ip == pool.ip &&& pool.mask &&
      inside pool subnet)
  each (overlapCheck subnet p) done
  let gateway ← getstr n "gateway" p
  let gateway ← cidr lib (gateway ++ "/" ++ toString subnet.prefixLength) (p ++ ".gateway")
  ensure (p ++ ".gateway") "gateway must be usable and outside dynamic pool"
    (inside gateway subnet && !inside gateway pool && gateway.ip != subnet.ip &&
      gateway.ip != broadcast subnet)
  let external ← need n "externalAccess" p
  let external ← boolean external (p ++ ".externalAccess")
  ensure (p ++ ".externalAccess") "external management routing is not supported in M0" (!external)
  return { name := f.1, subnet, pool, gateway := gateway.ip }

/-- The management networks of a topology. -/
def networksOf (lib : Platform) (t : Json) : Except Error (List Network) := do
  let management ← need t "management" "topology"
  fields management "management" ["networks"]
  let networks ← need management "networks" "management"
  let networks ← object networks "management.networks"
  collect (networkOf lib) networks []

/-- A static address that was attached. -/
structure Attached where
  endpoint : String
  network : String
  ip : BitVec 32
  value : Json

/-- One attachment, after those before.  `used` are the endpoints of the edges. -/
def attachmentOf (lib : Platform) (nodes : List (String × Node)) (used : List String)
    (networks : List Network) (done : List Attached) (a : Json) : Except Error Attached := do
  fields a "attachment" ["endpoint", "network", "address"]
  let ep ← getstr a "endpoint" "attachment"
  let (_, port) ← endpoint nodes ep "attachment.endpoint"
  ensure "attachment.endpoint" "management port required and may attach only once"
    (port.role == .management && !used.contains ep && !(done.map Attached.endpoint).contains ep)
  let name ← getstr a "network" "attachment"
  match networks.find? (·.name == name) with
  | none => fail "attachment.network" "unknown management network"
  | some net => do
      let address ← getstr a "address" "attachment"
      let address ← cidr lib address "attachment.address"
      let allocations := net.gateway :: (done.filter (·.network == name)).map Attached.ip
      ensure "attachment.address"
        "address must be unique, usable, in subnet and outside dynamic pool"
        (address.prefixLength == net.subnet.prefixLength && inside address net.subnet &&
          !inside address net.pool && address.ip != net.subnet.ip &&
          address.ip != broadcast net.subnet && !allocations.contains address.ip)
      return { endpoint := ep, network := name, ip := address.ip, value := a }

/-- The attachments of a topology. -/
def attachmentsOf (lib : Platform) (t : Json) (nodes : List (String × Node)) (edges : List Edge)
    (networks : List Network) : Except Error (List Attached) := do
  let attachments ← array ((t.find? "managementAttachments").getD (.array []))
    "managementAttachments"
  collect (attachmentOf lib nodes (edges.flatMap Edge.endpoints) networks) attachments []

/-! ## The canonical topology -/

/-- An edge in the canonical topology. -/
def Edge.json (e : Edge) : Json :=
  .object [("endpoints", .array [.string e.first, .string e.second]), ("id", .string e.id)]

def Head.json (h : Head) : Json :=
  .object [("maxEdges", .number h.maxEdges), ("maxNodes", .number h.maxNodes)]

/-- What the checks found. -/
structure Parts where
  head : Head
  nodes : List (String × Node × Json)
  edges : List Edge
  application : Option Json
  networks : List Network
  attachments : List Attached

def Parts.typed (x : Parts) : List (String × Node) := x.nodes.map fun f => (f.1, f.2.1)

def Parts.sortedEdges (x : Parts) : List Edge := sortOn Edge.id x.edges

/-- What the canonical topology sets. -/
def updatesOf (x : Parts) : List (String × Json) :=
  [("limits", x.head.json), ("loopPolicy", .string x.head.loop.text),
    ("requiredFeatures", .array []), ("nodes", .object (x.nodes.map fun f => (f.1, f.2.2)))] ++
  (x.application.map fun app => ("application", app)).toList ++
  [("managementAttachments",
      .array ((sortOn Attached.endpoint x.attachments).map Attached.value)),
    ("edges", .array (x.sortedEdges.map Edge.json))]

/-- The canonical topology. -/
def canonicalOf (t : Json) (x : Parts) : Json := t.setAll (updatesOf x)

def outputOf (lib : Platform) (t lock : Json) (x : Parts) : ValidatedTopology where
  canonical := canonicalOf t x
  artifacts := lock
  nodes := x.typed
  edges := x.sortedEdges
  hash := lib.digest (canonicalOf t x)

/-- All checks of a topology, in their order. -/
def checkAll (lib : Platform) (t lock : Json) : Except Error Parts := do
  validateLock lib lock
  let head ← headOf lib t lock
  let nodes ← nodesOf lib t lock head
  let typed := nodes.map fun f => (f.1, f.2.1)
  let edges ← edgesOf t head typed
  let application ← applicationOf t typed edges
  loopCheck t head.loop typed edges
  let networks ← networksOf lib t
  let attachments ← attachmentsOf lib t typed edges networks
  return { head, nodes, edges, application, networks, attachments }

/-- `validate`. -/
def validate (lib : Platform) (t lock : Json) : Except Error ValidatedTopology := do
  let parts ← checkAll lib t lock
  return outputOf lib t lock parts

/-! ## A topology with all kinds of nodes -/

namespace Sample

def zeros : String := "sha256:" ++ String.ofList (List.replicate 64 '0')

/-- A library whose digests are all the same. -/
def platform : Platform where
  digest _ := zeros
  inetPton s := lookup s [("10.0.0.0", 0x0a000000), ("10.0.0.128", 0x0a000080),
    ("10.0.0.1", 0x0a000001), ("10.0.0.10", 0x0a00000a)]

def interface (role : String) (required : Bool) : Json :=
  .object [("medium", .string "ethernet"), ("mtuRange", .array [.number 1280, .number 9000]),
    ("required", .bool required), ("role", .string role)]

def contract (name kind : String) : Json :=
  .object [("apiVersion", .string "graphlab.workload/v2"), ("id", .string name),
    ("interfaces", .object [("data0", interface "data" true), ("mgmt0", interface "management" false)]),
    ("kind", .string kind),
    ("labSupport", .object [("language", .string "cpp23"), ("packageSha256", .string zeros),
      ("version", .string "1.0.0")]),
    ("lifecycle", .object [("gateUntilRelease", .bool true), ("quiesce", .string "supported")]),
    ("platforms", .array [.string "linux/arm64"]),
    ("resources", .object [("cpus", .number 1), ("memoryMiB", .number 256)])]

def lock : Json :=
  .object [("apiVersion", .string "graphlab.artifacts/v1"),
    ("workloads", .object
      [("app", .object [("contract", contract "app" "docker"), ("contractSha256", .string zeros),
        ("image", .string ("registry/app@" ++ zeros)), ("platform", .string "linux/arm64")]),
      ("guest", .object [("contract", contract "guest" "qemu"), ("contractSha256", .string zeros),
        ("diskSha256", .string zeros), ("platform", .string "linux/arm64"),
        ("vm", .object [("accelerator", .string "kvm"), ("firmwareSha256", .string zeros),
          ("machine", .string "virt-8.2")])])])]

def edge (key first second : String) : Json :=
  .object [("endpoints", .array [.string first, .string second]), ("id", .string key)]

def switchPort : Json :=
  .object [("role", .string "data"), ("vlan", .object [("trunk", .array [.number 200, .number 100])])]

def switchNode (rstp : Bool) (ports : List String) : Json :=
  .object [("kind", .string "ovs-switch"),
    ("policy", .object [("forwarding", .string "normal"), ("priority", .number 4096),
      ("rstp", .bool rstp)]),
    ("ports", .object (ports.map fun name => (name, switchPort)))]

def workloadNode (kind workload : String) (ports : List (String × String)) : Json :=
  .object [("kind", .string kind),
    ("ports", .object (ports.map fun f => (f.1, .object [("role", .string f.2)]))),
    ("workload", .string workload)]

/-- A topology with these edges between a container `a`, a guest `g` and a switch `s`. -/
def topology (edges : List Json) : Json :=
  .object [("apiVersion", .string "graphlab.topology/v2"), ("artifactLock", .string zeros),
    ("backend", .object [("kind", .string "linux-local"), ("switchIsolation", .string "shared-ovs")]),
    ("capture", .object [("format", .string "pcapng"), ("required", .bool true),
      ("scope", .string "all-data-edges")]),
    ("edges", .array edges), ("id", .string "sample"),
    ("management", .object [("networks", .object [("mgmt",
      .object [("dynamicPool", .string "10.0.0.128/25"), ("externalAccess", .bool false),
        ("gateway", .string "10.0.0.1"), ("subnet", .string "10.0.0.0/24")])])]),
    ("managementAttachments", .array [.object [("address", .string "10.0.0.10/24"),
      ("endpoint", .string "a:mgmt0"), ("network", .string "mgmt")]]),
    ("nodes", .object [("a", workloadNode "docker" "app" [("data0", "data"), ("mgmt0", "management")]),
      ("g", workloadNode "qemu" "guest" [("data0", "data")]),
      ("s", switchNode true ["p", "q"])])]

def edges : List Json := [edge "left" "a:data0" "s:p", edge "right" "s:q" "g:data0"]

theorem accepted : ∃ out, validate platform (topology edges) lock = .ok out := by
  have h : (validate platform (topology edges) lock).isOk = true := by decide +kernel
  exact exists_of_isOk h

end Sample

end Graphlab.Contracts
