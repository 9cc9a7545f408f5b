import Graphlab.Contracts.Accepted
import Graphlab.Lib.Blocks

/-!
# Switches and management networks

Two groups of checks in the terms of what they are for.  Loop protection is about the cycles
of the switches; the address checks are about the sets of addresses of networks and pools.
Both say exactly which topologies they accept, among those that pass the other checks.

## Main definitions

* `Check`, `Check.Passes` — the checks by name.
* `Cidr.addresses`, `Usable`, `Addressed` — networks as sets of addresses.

## Main results

* `loop_protection`, `management_addressed`.
-/

namespace Graphlab.Contracts

open Lib

variable {lib : Platform} {t lock : Json} {x x' : Parts}

/-! ## Checks by name -/

inductive Check
  | lock | head | nodes | edges | application | loop | networks | attachments
  deriving DecidableEq, Repr

/-- The check passes, with these parts of the topology. -/
def Check.Passes (lib : Platform) (t lock : Json) (x : Parts) : Check → Prop
  | .lock => validateLock lib lock = .ok ()
  | .head => headOf lib t lock = .ok x.head
  | .nodes => nodesOf lib t lock x.head = .ok x.nodes
  | .edges => edgesOf t x.head x.typed = .ok x.edges
  | .application => applicationOf t x.typed x.edges = .ok x.application
  | .loop => loopCheck t x.head.loop x.typed x.edges = .ok ()
  | .networks => networksOf lib t = .ok x.networks
  | .attachments => attachmentsOf lib t x.typed x.edges x.networks = .ok x.attachments

theorem checkAll_iff_passes : checkAll lib t lock = .ok x ↔ ∀ c, Check.Passes lib t lock x c := by
  rw [checkAll_eq_ok]
  constructor
  · rintro ⟨hlock, hhead, hnodes, hedges, happlication, hloop, hnetworks, hattachments⟩ c
    cases c with
    | lock => exact hlock
    | head => exact hhead
    | nodes => exact hnodes
    | edges => exact hedges
    | application => exact happlication
    | loop => exact hloop
    | networks => exact hnetworks
    | attachments => exact hattachments
  · intro h
    exact ⟨h .lock, h .head, h .nodes, h .edges, h .application, h .loop, h .networks,
      h .attachments⟩

theorem validate_of_passes (h : ∀ c, Check.Passes lib t lock x c) :
    ∃ out, validate lib t lock = .ok out :=
  ⟨_, validate_eq_ok.mpr ⟨x, checkAll_iff_passes.mpr h, rfl⟩⟩

/-! ## Loop protection -/

/-- The edges between the switches, as a multigraph. -/
def Parts.links (x : Parts) : List (String × String) := switchLinks x.typed x.edges

/-- Every switch in a component with a cycle enables RSTP. -/
def LoopFree (t : Json) (x : Parts) : Prop :=
  ∀ f ∈ x.typed, f.2.kind = .ovsSwitch →
    (∃ y w, Conn x.links f.1 y ∧ IsCycle x.links y w) → rstp t f.1 = true

/-- The checks give their results once. -/
theorem passes_unique (h : ∀ c ≠ .loop, Check.Passes lib t lock x c)
    (h' : ∀ c ≠ .loop, Check.Passes lib t lock x' c) :
    x'.head = x.head ∧ x'.nodes = x.nodes ∧ x'.edges = x.edges := by
  have hhead : x'.head = x.head :=
    Except.ok.inj ((h' .head (by decide)).symm.trans (h .head (by decide)))
  have hnodes : x'.nodes = x.nodes := by
    have := h' .nodes (by decide)
    rw [Check.Passes, hhead] at this
    exact Except.ok.inj (this.symm.trans (h .nodes (by decide)))
  have hedges : x'.edges = x.edges := by
    have := h' .edges (by decide)
    rw [Check.Passes, hhead, Parts.typed, hnodes] at this
    exact Except.ok.inj (this.symm.trans (h .edges (by decide)))
  exact ⟨hhead, hnodes, hedges⟩

/-- **Loop protection.**  A topology with the policy `rstp` that passes all other checks is
accepted if and only if every switch in a component with a cycle enables RSTP. -/
theorem loop_protection (hothers : ∀ c ≠ .loop, Check.Passes lib t lock x c)
    (hloop : x.head.loop = .rstp) : (∃ out, validate lib t lock = .ok out) ↔ LoopFree t x := by
  have hiff : loopCheck t x.head.loop x.typed x.edges = .ok () ↔ LoopFree t x := by
    rw [loopCheck_eq_ok]
    simp only [hloop, forall_const, LoopFree, onCycle_iff, Parts.links]
  rw [← hiff]
  constructor
  · rintro ⟨out, hout⟩
    obtain ⟨_, hx', -⟩ := validate_eq_ok.mp hout
    have hpasses := checkAll_iff_passes.mp hx'
    obtain ⟨hhead, hnodes, hedges⟩ := passes_unique hothers fun c _ => hpasses c
    have := hpasses .loop
    rwa [Check.Passes, hhead, hedges, Parts.typed, hnodes] at this
  · intro h
    refine validate_of_passes (x := x) fun c => ?_
    by_cases hc : c = .loop
    · rw [hc]
      exact h
    · exact hothers c hc

/-- The sample with two switches and two edges between them. -/
def Sample.parallel : Json :=
  ((topology [edge "one" "s:p" "u:p", edge "two" "s:q" "u:q"]).set "nodes"
    (.object [("s", switchNode true ["p", "q"]), ("u", switchNode true ["p", "q"])])).set
    "managementAttachments" (.array [])

theorem loop_protection_parallel :
    ∃ x, (∀ c ≠ .loop, Check.Passes Sample.platform Sample.parallel Sample.lock x c) ∧
      x.head.loop = .rstp ∧ x.links = [("s", "u"), ("s", "u")] ∧ LoopFree Sample.parallel x := by
  have h : (checkAll Sample.platform Sample.parallel Sample.lock).toOption.map
      (fun x => (x.head.loop, x.links)) = some (.rstp, [("s", "u"), ("s", "u")]) := by
    decide +kernel
  cases hx : checkAll Sample.platform Sample.parallel Sample.lock with
  | error =>
    rw [hx] at h
    cases h
  | ok x =>
    simp only [hx, Except.toOption, Option.map_some, Option.some.injEq, Prod.mk.injEq] at h
    have hpasses := checkAll_iff_passes.mp hx
    refine ⟨x, fun c _ => hpasses c, h.1, h.2, ?_⟩
    exact (loop_protection (fun c _ => hpasses c) h.1).mp (validate_of_passes hpasses)

/-! ## Addresses -/

/-- The addresses of a network: those that agree with it in the leading bits. -/
def Cidr.addresses (c : Cidr) : Set (BitVec 32) := block c.ip (32 - c.prefixLength)

/-- The mask is the one of the prefix. -/
structure Cidr.Valid (c : Cidr) : Prop where
  width : c.prefixLength ≤ 32
  mask : c.mask = highMask 32 (32 - c.prefixLength)

/-- The text denotes the network. -/
def Cidr.Written (lib : Platform) (text : String) (c : Cidr) : Prop :=
  ∀ p, cidr lib text p = .ok c

section Cidr

variable {c d : Cidr} {text p : String}

theorem maskOf_eq {n : ℕ} : maskOf n = highMask 32 (32 - n) := by
  rw [maskOf]
  split
  · rename_i h
    subst h
    decide
  · rfl

theorem cidr_written (h : cidr lib text p = .ok c) : c.Written lib text := by
  intro q
  simp only [cidr] at h ⊢
  split at h
  · cases h
  · split at h
    · split at h
      · rename_i hn
        rw [if_pos hn]
        exact h
      · cases h
    · cases h

theorem cidr_valid (h : cidr lib text p = .ok c) : c.Valid := by
  simp only [cidr] at h
  split at h
  · cases h
  · split at h
    · split at h
      · rename_i hn
        cases h
        exact ⟨by simp; omega, maskOf_eq⟩
      · cases h
    · cases h

theorem inside_iff (hd : d.Valid) : inside c d = true ↔ c.ip ∈ d.addresses := by
  rw [inside, beq_iff_eq, hd.mask, and_highMask_eq_iff]
  rfl

theorem canonical_iff (hc : c.Valid) : c.ip = c.ip &&& c.mask ↔ IsLeast c.addresses c.ip := by
  have hleast := isLeast_block c.ip (32 - c.prefixLength)
  rw [hc.mask]
  exact ⟨fun h => h ▸ hleast, fun h => isLeast_unique h hleast⟩

theorem isGreatest_broadcast (hc : c.Valid) : IsGreatest c.addresses (broadcast c) := by
  rw [broadcast, hc.mask]
  exact isGreatest_block c.ip _

end Cidr

/-- The network's own address is its first one, and its prefix is in range; so is that of its
pool. -/
structure Network.Canonical (n : Network) : Prop where
  width : 8 ≤ n.subnet.prefixLength ∧ n.subnet.prefixLength ≤ 30
  subnet : IsLeast n.subnet.addresses n.subnet.ip
  pool : IsLeast n.pool.addresses n.pool.ip

/-- An address that may be given to an interface: in the network, neither its first nor its last
address, and not in the pool. -/
structure Usable (n : Network) (a : BitVec 32) : Prop where
  inside : a ∈ n.subnet.addresses
  notFirst : ¬ IsLeast n.subnet.addresses a
  notLast : ¬ IsGreatest n.subnet.addresses a
  notPool : a ∉ n.pool.addresses

/-- The gateway and the attached addresses of a network. -/
def statics (n : Network) (xs : List Attached) : List (BitVec 32) :=
  n.gateway :: (xs.filter (·.network == n.name)).map Attached.ip

/-- What the addresses of a topology must satisfy. -/
structure Addressed (ns : List Network) (xs : List Attached) : Prop where
  disjoint : ns.Pairwise fun a b => Disjoint a.subnet.addresses b.subnet.addresses
  pool : ∀ n ∈ ns, n.pool.addresses ⊆ n.subnet.addresses
  distinct : ∀ n ∈ ns, (statics n xs).Nodup
  usable : ∀ n ∈ ns, ∀ a ∈ statics n xs, Usable n a

/-! ### Networks -/

/-- A network as it is written, apart from what its addresses must satisfy. -/
structure NetworkWritten (lib : Platform) (f : String × Json) (n : Network) : Prop where
  name : n.name = f.1
  key : identifier f.1 = true
  fields : HasFields f.2 ["subnet", "dynamicPool", "gateway", "externalAccess"]
  subnet : ∃ text, f.2.find? "subnet" = some (.string text) ∧ n.subnet.Written lib text
  pool : ∃ text, f.2.find? "dynamicPool" = some (.string text) ∧ n.pool.Written lib text
  gateway : ∃ text c, f.2.find? "gateway" = some (.string text) ∧
    Cidr.Written lib (text ++ "/" ++ toString n.subnet.prefixLength) c ∧ n.gateway = c.ip
  external : f.2.find? "externalAccess" = some (.bool false)

/-- What the addresses of one network must satisfy. -/
structure Network.Good (n : Network) : Prop where
  canonical : n.Canonical
  pool : n.pool.addresses ⊆ n.subnet.addresses
  gateway : Usable n n.gateway

section Networks

variable {f : String × Json} {n : Network}

theorem NetworkWritten.valid (h : NetworkWritten lib f n) : n.subnet.Valid ∧ n.pool.Valid := by
  obtain ⟨_, -, hsubnet⟩ := h.subnet
  obtain ⟨_, -, hpool⟩ := h.pool
  exact ⟨cidr_valid (hsubnet ""), cidr_valid (hpool "")⟩

/-- The test for an address that may be given to an interface. -/
theorem usable_iff (hs : n.subnet.Valid) (hp : n.pool.Valid)
    (hfirst : IsLeast n.subnet.addresses n.subnet.ip) {c : Cidr} :
    Usable n c.ip ↔ inside c n.subnet = true ∧ inside c n.pool = false ∧ c.ip ≠ n.subnet.ip ∧
      c.ip ≠ broadcast n.subnet := by
  have hlast := isGreatest_broadcast hs
  rw [inside_iff hs, ← Bool.not_eq_true, inside_iff hp]
  constructor
  · intro h
    exact ⟨h.inside, h.notPool, fun heq => h.notFirst (heq ▸ hfirst),
      fun heq => h.notLast (heq ▸ hlast)⟩
  · rintro ⟨hin, hpool, hneFirst, hneLast⟩
    exact ⟨hin, fun h => hneFirst (isLeast_unique h hfirst),
      fun h => hneLast (isGreatest_unique h hlast), hpool⟩

theorem pool_iff (hs : n.subnet.Valid) (hp : n.pool.Valid) :
    n.pool.addresses ⊆ n.subnet.addresses ↔
      n.subnet.prefixLength ≤ n.pool.prefixLength ∧ inside n.pool n.subnet = true := by
  rw [inside_iff hs, Cidr.addresses, Cidr.addresses, block_subset_iff (by omega)]
  have := hs.width
  have := hp.width
  constructor
  · exact fun h => ⟨by omega, h.2⟩
  · exact fun h => ⟨by omega, h.2⟩

theorem overlaps_iff {c d : Cidr} (hc : c.Valid) (hd : d.Valid) :
    overlaps c d = false ↔ Disjoint d.addresses c.addresses := by
  rw [overlaps, Bool.or_eq_false_iff, ← Bool.not_eq_true, ← Bool.not_eq_true, inside_iff hc,
    inside_iff hd, Cidr.addresses, Cidr.addresses, disjoint_block_iff, and_comm]

/-- A network passes if its addresses are good and it overlaps none before it. -/
theorem networkOf_eq_ok {done : List Network} :
    networkOf lib done f = .ok n ↔
      (NetworkWritten lib f n ∧ n.Good) ∧ ∀ d ∈ done, overlaps n.subnet d.subnet = false := by
  simp only [networkOf, bind_eq_ok, id_eq_ok, fields_eq_ok, getstr_eq_ok, need_eq_ok, boolean_eq_ok,
    ensure_eq_ok, each_eq_ok, overlapCheck, pure_eq_ok, Bool.and_eq_true, decide_eq_true_eq,
    beq_iff_eq, bne_iff_ne, Bool.not_eq_true']
  constructor
  · rintro ⟨_, hkey, _, hfields, _, hsubnetText, subnet, hsubnet, _, hpoolText, pool, hpool, _,
      ⟨hwidth, hfirst⟩, _, ⟨⟨hnarrow, hpoolFirst⟩, hin⟩, _, hapart, _, hgatewayText, gateway, hgateway,
      _, ⟨⟨⟨husable, hnotPool⟩, hnotFirst⟩, hnotLast⟩, _, hexternal, _, rfl, _, rfl, rfl⟩
    have hs := cidr_valid hsubnet
    have hp := cidr_valid hpool
    have hfirst := (canonical_iff hs).mp hfirst
    refine ⟨⟨?_, ?_⟩, hapart⟩
    · exact
        { name := rfl
          key := hkey
          fields := hfields
          subnet := ⟨_, hsubnetText, cidr_written hsubnet⟩
          pool := ⟨_, hpoolText, cidr_written hpool⟩
          gateway := ⟨_, gateway, hgatewayText, cidr_written hgateway, rfl⟩
          external := hexternal }
    · refine ⟨⟨hwidth, hfirst, (canonical_iff hp).mp hpoolFirst⟩, ?_, ?_⟩
      · exact (pool_iff (n := ⟨f.1, subnet, pool, gateway.ip⟩) hs hp).mpr ⟨hnarrow, hin⟩
      · exact (usable_iff (n := ⟨f.1, subnet, pool, gateway.ip⟩) hs hp hfirst).mpr
          ⟨husable, hnotPool, hnotFirst, hnotLast⟩
  · rintro ⟨⟨hwritten, hgood⟩, hapart⟩
    obtain ⟨hs, hp⟩ := hwritten.valid
    obtain ⟨_, hsubnetText, hsubnet⟩ := hwritten.subnet
    obtain ⟨_, hpoolText, hpool⟩ := hwritten.pool
    obtain ⟨_, gateway, hgatewayText, hgateway, hip⟩ := hwritten.gateway
    obtain ⟨hnarrow, hin⟩ := (pool_iff hs hp).mp hgood.pool
    have husable := hgood.gateway
    rw [hip, usable_iff hs hp hgood.canonical.subnet] at husable
    obtain ⟨husable, hnotPool, hnotFirst, hnotLast⟩ := husable
    obtain ⟨name, subnet, pool, _⟩ := n
    cases hwritten.name
    cases hip
    exact ⟨(), hwritten.key, (), hwritten.fields, _, hsubnetText, _, hsubnet _, _, hpoolText, _,
      hpool _, (), ⟨hgood.canonical.width, (canonical_iff hs).mpr hgood.canonical.subnet⟩, (),
      ⟨⟨hnarrow, (canonical_iff hp).mpr hgood.canonical.pool⟩, hin⟩, (), hapart, _, hgatewayText, _,
      hgateway _, (), ⟨⟨⟨husable, hnotPool⟩, hnotFirst⟩, hnotLast⟩, _, hwritten.external, false, rfl,
      (), rfl, rfl⟩

theorem networkOf_checks (lib : Platform) :
    Checks (networkOf lib) (fun f n => NetworkWritten lib f n ∧ n.Good)
      (fun d n => overlaps n.subnet d.subnet = false) :=
  fun _ _ _ => networkOf_eq_ok

end Networks

/-! ### Attachments -/

/-- An attachment as it is written, with the prefix of its network, apart from what its address
must satisfy. -/
structure AttachmentWritten (lib : Platform) (nodes : List (String × Node)) (used : List String)
    (networks : List Network) (a : Json) (x : Attached) : Prop where
  value : x.value = a
  fields : HasFields a ["endpoint", "network", "address"]
  key : a.find? "endpoint" = some (.string x.endpoint)
  port : ∃ node port, At nodes x.endpoint node port ∧ port.role = .management
  free : x.endpoint ∉ used
  name : a.find? "network" = some (.string x.network)
  address : ∃ net text c, networks.find? (·.name == x.network) = some net ∧
    a.find? "address" = some (.string text) ∧ Cidr.Written lib text c ∧ x.ip = c.ip ∧
    c.prefixLength = net.subnet.prefixLength

section Attachments

variable {nodes : List (String × Node)} {used : List String} {ns : List Network} {a : Json}
  {y : Attached}

theorem AttachmentWritten.network (h : AttachmentWritten lib nodes used ns a y) :
    ∃ n ∈ ns, ns.find? (·.name == y.network) = some n ∧ n.name = y.network := by
  obtain ⟨n, _, _, hn, -⟩ := h.address
  have hname := List.find?_some hn
  exact ⟨n, List.mem_of_find?_eq_some hn, hn, beq_iff_eq.mp hname⟩

theorem attachmentOk_iff (hvalid : ∀ n ∈ ns, n.subnet.Valid ∧ n.pool.Valid)
    (hfirst : ∀ n ∈ ns, IsLeast n.subnet.addresses n.subnet.ip) :
    AttachmentOk lib nodes used ns a y ↔ AttachmentWritten lib nodes used ns a y ∧
      ∃ n, ns.find? (·.name == y.network) = some n ∧ Usable n y.ip ∧ y.ip ≠ n.gateway := by
  constructor
  · intro h
    obtain ⟨n, text, c, hn, htext, hc, hip, hwidth, hin, hpool, hne, hlast, hgateway⟩ := h.address
    have hmem := List.mem_of_find?_eq_some hn
    have husable : Usable n c.ip :=
      (usable_iff (hvalid n hmem).1 (hvalid n hmem).2 (hfirst n hmem)).mpr ⟨hin, hpool, hne, hlast⟩
    refine ⟨⟨h.value, h.fields, h.key, h.port, h.free, h.name, ?_⟩, n, hn, ?_⟩
    · exact ⟨n, text, c, hn, htext, cidr_written hc, hip, hwidth⟩
    · rw [hip]
      exact ⟨husable, hgateway⟩
  · rintro ⟨h, n, hn, husable, hgateway⟩
    obtain ⟨_, text, c, hn', htext, hc, hip, hwidth⟩ := h.address
    cases hn.symm.trans hn'
    have hmem := List.mem_of_find?_eq_some hn
    rw [hip, usable_iff (hvalid n hmem).1 (hvalid n hmem).2 (hfirst n hmem)] at husable
    refine ⟨h.value, h.fields, h.key, h.port, h.free, h.name, ?_⟩
    exact ⟨n, text, c, hn, htext, hc _, hip, hwidth, husable.1, husable.2.1, husable.2.2.1,
      husable.2.2.2, hip ▸ hgateway⟩

end Attachments

/-! ### Topologies -/

/-- The management networks and the attachments of a topology as they are written. -/
structure Written (lib : Platform) (t : Json) (nodes : List (String × Node)) (edges : List Edge)
    (ns : List Network) (xs : List Attached) : Prop where
  networks : ∃ m fs, t.find? "management" = some m ∧ HasFields m ["networks"] ∧
    m.find? "networks" = some (.object fs) ∧ List.Forall₂ (NetworkWritten lib) fs ns
  attachments : ∃ l, (t.find? "managementAttachments").getD (.array []) = .array l ∧
    List.Forall₂ (AttachmentWritten lib nodes (edges.flatMap Edge.endpoints) ns) l xs
  endpoints : (xs.map Attached.endpoint).Nodup

section Topologies

variable {nodes : List (String × Node)} {edges : List Edge} {ns : List Network}
  {xs : List Attached}

theorem networksOf_eq_ok :
    networksOf lib t = .ok ns ↔ ∃ m fs, t.find? "management" = some m ∧ HasFields m ["networks"] ∧
      m.find? "networks" = some (.object fs) ∧
      List.Forall₂ (fun f n => NetworkWritten lib f n ∧ n.Good) fs ns ∧
      ns.Pairwise fun d n => overlaps n.subnet d.subnet = false := by
  simp only [networksOf, bind_eq_ok, need_eq_ok, object_eq_ok, fields_eq_ok,
    collect_eq_ok (networkOf_checks lib)]
  constructor
  · rintro ⟨m, hm, _, hfields, _, hv, fs, rfl, h⟩
    exact ⟨m, fs, hm, hfields, hv, h⟩
  · rintro ⟨m, fs, hm, hfields, hv, h⟩
    exact ⟨m, hm, (), hfields, _, hv, fs, rfl, h⟩

theorem attachmentsOf_eq_ok :
    attachmentsOf lib t nodes edges ns = .ok xs ↔
      ∃ l, (t.find? "managementAttachments").getD (.array []) = .array l ∧
        List.Forall₂ (AttachmentOk lib nodes (edges.flatMap Edge.endpoints) ns) l xs ∧
        xs.Pairwise Attached.Apart := by
  simp only [attachmentsOf, bind_eq_ok, array_eq_ok,
    collect_eq_ok (attachmentOf_checks lib nodes (edges.flatMap Edge.endpoints) ns)]

/-- The statics of a network, one after the other. -/
theorem statics_nodup {n : Network} :
    (statics n xs).Nodup ↔ (∀ y ∈ xs, y.network = n.name → y.ip ≠ n.gateway) ∧
      (xs.filter (·.network == n.name)).Pairwise fun d y => d.ip ≠ y.ip := by
  rw [statics, List.nodup_cons, List.Nodup, List.pairwise_map]
  simp only [List.mem_map, List.mem_filter, beq_iff_eq, not_exists, not_and, and_imp]

/-- Attachments to one network have different addresses. -/
theorem pairwise_apart_iff :
    xs.Pairwise Attached.Apart ↔ (xs.map Attached.endpoint).Nodup ∧
      ∀ name, (xs.filter (·.network == name)).Pairwise fun d y => d.ip ≠ y.ip := by
  rw [List.Nodup, List.pairwise_map]
  simp only [List.pairwise_filter, beq_iff_eq]
  constructor
  · intro h
    exact ⟨h.imp fun h => h.1, fun name => h.imp fun h hd hy => h.2 (hd.trans hy.symm)⟩
  · rintro ⟨hends, hips⟩
    induction xs with
    | nil => exact .nil
    | cons y xs ih =>
      refine .cons (fun z hz => ⟨List.rel_of_pairwise_cons hends hz, fun heq => ?_⟩)
        (ih hends.of_cons fun name => (hips name).of_cons)
      exact List.rel_of_pairwise_cons (hips y.network) hz rfl heq.symm

theorem Written.valid (h : Written lib t nodes edges ns xs) {n : Network} (hn : n ∈ ns) :
    n.subnet.Valid ∧ n.pool.Valid := by
  obtain ⟨_, _, -, -, -, hall⟩ := h.networks
  obtain ⟨_, -, hf⟩ := exists_of_mem_right hall hn
  exact hf.valid

theorem Written.edges_perm {edges' : List Edge} (hperm : edges.Perm edges')
    (h : Written lib t nodes edges ns xs) : Written lib t nodes edges' ns xs := by
  obtain ⟨l, hl, hall⟩ := h.attachments
  refine ⟨h.networks, ⟨l, hl, hall.imp fun a y hy => ?_⟩, h.endpoints⟩
  refine { hy with free := fun hin => hy.free ?_ }
  exact (hperm.flatMap_right Edge.endpoints).symm.subset hin

/-- The names of networks in a document are different. -/
theorem Written.names {t : Document} (h : Written lib t.value nodes edges ns xs) :
    (ns.map Network.name).Nodup := by
  obtain ⟨_, fs, hm, -, hfs, hall⟩ := h.networks
  have hsame : ns.map Network.name = fs.map Prod.fst := by
    clear hfs h
    induction hall with
    | nil => rfl
    | cons hf _ ih => rw [List.map_cons, List.map_cons, hf.name, ih]
  rw [hsame]
  exact ((t.ordered.find? hm).find? hfs).nodup

/-- What passes is written as it must be. -/
theorem written_of_ok (hns : networksOf lib t = .ok ns)
    (hxs : attachmentsOf lib t nodes edges ns = .ok xs) : Written lib t nodes edges ns xs := by
  obtain ⟨m, fs, hm, hfields, hfs, hall, -⟩ := networksOf_eq_ok.mp hns
  obtain ⟨l, hl, hattached, hapart⟩ := attachmentsOf_eq_ok.mp hxs
  refine ⟨⟨m, fs, hm, hfields, hfs, hall.imp fun _ _ h => h.1⟩, ⟨l, hl, ?_⟩,
    (pairwise_apart_iff.mp hapart).1⟩
  have hgood : ∀ n ∈ ns, (n.subnet.Valid ∧ n.pool.Valid) ∧ n.Good := by
    intro n hn
    obtain ⟨_, -, hf⟩ := exists_of_mem_right hall hn
    exact ⟨hf.1.valid, hf.2⟩
  exact hattached.imp fun a y hy => ((attachmentOk_iff (fun n hn => (hgood n hn).1)
    fun n hn => (hgood n hn).2.canonical.subnet).mp hy).1

/-- The networks pass if and only if their own addresses do. -/
theorem networks_iff (hwritten : Written lib t nodes edges ns xs) :
    networksOf lib t = .ok ns ↔ (∀ n ∈ ns, n.Good) ∧
      ns.Pairwise fun a b => Disjoint a.subnet.addresses b.subnet.addresses := by
  have hoverlap : (ns.Pairwise fun d n => overlaps n.subnet d.subnet = false) ↔
      ns.Pairwise fun a b => Disjoint a.subnet.addresses b.subnet.addresses :=
    List.Pairwise.iff_of_mem fun hd hn => overlaps_iff (hwritten.valid hn).1 (hwritten.valid hd).1
  rw [networksOf_eq_ok]
  constructor
  · rintro ⟨m, fs, -, -, -, hall, hpair⟩
    refine ⟨fun n hn => ?_, hoverlap.mp hpair⟩
    obtain ⟨_, -, hf⟩ := exists_of_mem_right hall hn
    exact hf.2
  · rintro ⟨hgood, hpair⟩
    obtain ⟨m, fs, hm, hfields, hfs, hall⟩ := hwritten.networks
    refine ⟨m, fs, hm, hfields, hfs, ?_, hoverlap.mpr hpair⟩
    exact forall₂_imp_of_mem hall fun _ n hn h => ⟨h, hgood n hn⟩

/-- The attachments pass if and only if their addresses do. -/
theorem attachments_iff (hnames : (ns.map Network.name).Nodup)
    (hwritten : Written lib t nodes edges ns xs) (hgood : ∀ n ∈ ns, n.Good) :
    attachmentsOf lib t nodes edges ns = .ok xs ↔
      ∀ n ∈ ns, (statics n xs).Nodup ∧ ∀ a ∈ statics n xs, Usable n a := by
  have hvalid : ∀ n ∈ ns, n.subnet.Valid ∧ n.pool.Valid := fun n hn => hwritten.valid hn
  have hfirst : ∀ n ∈ ns, IsLeast n.subnet.addresses n.subnet.ip :=
    fun n hn => (hgood n hn).canonical.subnet
  rw [attachmentsOf_eq_ok]
  constructor
  · rintro ⟨l, -, hall, hapart⟩ n hn
    have hattached : ∀ y ∈ xs, y.network = n.name → Usable n y.ip ∧ y.ip ≠ n.gateway := by
      intro y hy hname
      obtain ⟨a, -, ha⟩ := exists_of_mem_right hall hy
      obtain ⟨-, n', hn', hok⟩ := (attachmentOk_iff hvalid hfirst).mp ha
      have hsame : n' = n := by
        refine List.inj_on_of_nodup_map hnames (List.mem_of_find?_eq_some hn') hn ?_
        have := List.find?_some hn'
        exact (beq_iff_eq.mp this).trans hname
      rwa [hsame] at hok
    refine ⟨statics_nodup.mpr ⟨fun y hy hname => (hattached y hy hname).2,
      (pairwise_apart_iff.mp hapart).2 n.name⟩, fun a ha => ?_⟩
    rcases List.mem_cons.mp ha with rfl | ha
    · exact (hgood n hn).gateway
    · obtain ⟨y, hy, rfl⟩ := List.mem_map.mp ha
      rw [List.mem_filter, beq_iff_eq] at hy
      exact (hattached y hy.1 hy.2).1
  · intro h
    obtain ⟨l, hl, hall⟩ := hwritten.attachments
    refine ⟨l, hl, forall₂_imp_of_mem hall fun a y hy ha => ?_,
      pairwise_apart_iff.mpr ⟨hwritten.endpoints, fun name => ?_⟩⟩
    · obtain ⟨n, hn, hfind, hname⟩ := ha.network
      have hin : y.ip ∈ (xs.filter (·.network == n.name)).map Attached.ip :=
        List.mem_map_of_mem (List.mem_filter.mpr ⟨hy, beq_iff_eq.mpr hname.symm⟩)
      refine (attachmentOk_iff hvalid hfirst).mpr ⟨ha, n, hfind,
        (h n hn).2 _ (List.mem_cons_of_mem _ hin), ?_⟩
      exact (statics_nodup.mp (h n hn).1).1 y hy hname.symm
    · -- a name that no network has is that of no attachment
      by_cases hname : ∃ n ∈ ns, n.name = name
      · obtain ⟨n, hn, rfl⟩ := hname
        exact (statics_nodup.mp (h n hn).1).2
      · have hnone : xs.filter (·.network == name) = [] := by
          refine List.filter_eq_nil_iff.mpr fun y hy heq => hname ?_
          obtain ⟨_, -, ha⟩ := exists_of_mem_right hall hy
          obtain ⟨n, hn, -, hsame⟩ := ha.network
          exact ⟨n, hn, hsame.trans (beq_iff_eq.mp heq)⟩
        rw [hnone]
        exact .nil

/-- **Addresses.**  In an accepted topology the management networks are disjoint, each pool lies
in its network, and the gateway and the attached addresses of a network are different and may
be given to interfaces.  Conversely, networks and attachments that satisfy this pass. -/
theorem management_addressed (lib : Platform) (t : Document) (lock : Json) :
    (∀ out, validate lib t.value lock = .ok out → ∃ ns xs,
      Written lib t.value out.nodes out.edges ns xs ∧ (∀ n ∈ ns, n.Canonical) ∧
        Addressed ns xs) ∧
    ∀ x, (∀ c, c ≠ .networks → c ≠ .attachments → Check.Passes lib t.value lock x c) →
      Written lib t.value x.typed x.edges x.networks x.attachments →
      (∀ n ∈ x.networks, n.Canonical) → Addressed x.networks x.attachments →
      ∃ out, validate lib t.value lock = .ok out := by
  constructor
  · intro out hout
    obtain ⟨x, hx, rfl⟩ := validate_eq_ok.mp hout
    have hpasses := checkAll_iff_passes.mp hx
    have hwritten := written_of_ok (hpasses .networks) (hpasses .attachments)
    obtain ⟨hgood, hdisjoint⟩ := (networks_iff hwritten).mp (hpasses .networks)
    have hstatics := (attachments_iff hwritten.names hwritten hgood).mp (hpasses .attachments)
    refine ⟨x.networks, x.attachments, hwritten.edges_perm (sortOn_perm Edge.id x.edges).symm,
      fun n hn => (hgood n hn).canonical, ?_⟩
    exact ⟨hdisjoint, fun n hn => (hgood n hn).pool, fun n hn => (hstatics n hn).1,
      fun n hn => (hstatics n hn).2⟩
  · intro x hothers hwritten hcanonical haddressed
    have hgood : ∀ n ∈ x.networks, n.Good := fun n hn =>
      ⟨hcanonical n hn, haddressed.pool n hn, haddressed.usable n hn _ (List.mem_cons_self ..)⟩
    refine validate_of_passes (x := x) fun c => ?_
    by_cases hc : c = .networks
    · rw [hc]
      exact (networks_iff hwritten).mpr ⟨hgood, haddressed.disjoint⟩
    by_cases hc' : c = .attachments
    · rw [hc']
      exact (attachments_iff hwritten.names hwritten hgood).mpr fun n hn =>
        ⟨haddressed.distinct n hn, haddressed.usable n hn⟩
    · exact hothers c hc hc'

theorem management_addressed_sample :
    ∃ t : Document, ∃ out ns xs, t.value = Sample.topology Sample.edges ∧
      validate Sample.platform t.value Sample.lock = .ok out ∧
      Written Sample.platform t.value out.nodes out.edges ns xs ∧ Addressed ns xs := by
  obtain ⟨out, hout⟩ := Sample.accepted
  obtain ⟨ns, xs, hwritten, -, haddressed⟩ := (management_addressed Sample.platform
    ⟨Sample.topology Sample.edges, by decide⟩ Sample.lock).1 out hout
  exact ⟨_, out, ns, xs, rfl, hout, hwritten, haddressed⟩

end Topologies

end Graphlab.Contracts
