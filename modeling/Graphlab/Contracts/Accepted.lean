import Graphlab.Contracts.Validate

/-!
# What validation accepts

For each loop of `validate` the conditions under which an element passes and those that two
elements must meet, and for loop protection the condition on the components with a cycle.

## Main definitions

* `At` — a declared endpoint.
* `EdgeOk`, `FlowOk`, `AttachmentOk` — an element by itself; `Edge.Apart` and the like — two
  elements.
* `checkAll_eq_ok` — all checks.
-/

namespace Graphlab.Contracts

open Lib

/-! ## Endpoints -/

/-- The endpoint names a port of a declared node. -/
structure At (nodes : List (String × Node)) (e : String) (node : Node) (port : Port) : Prop where
  colon : e.toList.count ':' = 1
  ofNode : lookup (nodeName e) nodes = some node
  ofPort : lookup (portName e) node.ports = some port

theorem endpoint_eq_ok {nodes : List (String × Node)} {e p : String} {node : Node} {port : Port} :
    endpoint nodes e p = .ok (node, port) ↔ At nodes e node port := by
  rw [endpoint]
  split
  · rename_i h
    simp only [fail_eq_ok, false_iff]
    exact fun h' => h h'.colon
  · rename_i h
    have h : e.toList.count ':' = 1 := not_not.mp h
    split
    · rename_i hnone
      simp only [fail_eq_ok, false_iff]
      intro h'
      rw [h'.ofNode] at hnone
      cases hnone
    · rename_i n hn
      split
      · rename_i hnone
        simp only [fail_eq_ok, false_iff]
        intro h'
        cases hn.symm.trans h'.ofNode
        rw [h'.ofPort] at hnone
        cases hnone
      · rename_i q hq
        simp only [Except.ok.injEq, Prod.mk.injEq]
        constructor
        · rintro ⟨rfl, rfl⟩
          exact ⟨h, hn, hq⟩
        · intro h'
          cases hn.symm.trans h'.ofNode
          cases hq.symm.trans h'.ofPort
          exact ⟨rfl, rfl⟩

/-! ## Edges -/

theorem pairOf_eq_ok {v : Json} {p first second : String} :
    pairOf v p = .ok (first, second) ↔ v = .array [.string first, .string second] := by
  simp only [pairOf, bind_eq_ok, array_eq_ok]
  constructor
  · rintro ⟨eps, rfl, h⟩
    split at h
    · obtain ⟨_, ha, h⟩ := bind_eq_ok.mp h
      obtain ⟨_, hb, h⟩ := bind_eq_ok.mp h
      cases h
      rw [str_eq_ok.mp ha, str_eq_ok.mp hb]
    · cases h
  · rintro rfl
    exact ⟨_, rfl, rfl⟩

/-- An edge that passes by itself. -/
structure EdgeOk (nodes : List (String × Node)) (loop : LoopPolicy) (e : Json) (x : Edge) :
    Prop where
  fields : HasFields e ["id", "endpoints"]
  key : e.find? "id" = some (.string x.id)
  name : identifier x.id = true
  pair : e.find? "endpoints" = some (.array [.string x.first, .string x.second])
  ends : ∃ a ap b bp, At nodes x.first a ap ∧ At nodes x.second b bp ∧
    (ap.role == .data && bp.role == .data && ap.medium == bp.medium && ap.mtu == bp.mtu) = true ∧
    (!(nodeName x.first == nodeName x.second &&
      (a.kind != .ovsSwitch || loop != .unprotected))) = true
  distinct : x.first ≠ x.second

/-- Two edges have different names and no endpoint in common. -/
def Edge.Apart (d x : Edge) : Prop := d.id ≠ x.id ∧ ∀ ep ∈ d.endpoints, ep ∉ x.endpoints

theorem Edge.Apart.symm {d x : Edge} (h : d.Apart x) : x.Apart d :=
  ⟨h.1.symm, fun ep hx hd => h.2 ep hd hx⟩

/-- The check for keys that are used already. -/
theorem new_iff {α : Type} {done : List α} {name : α → String} {key : String} :
    (!(done.map name).contains key) = true ↔ ∀ d ∈ done, name d ≠ key := by
  simp only [Bool.not_eq_true', List.contains_eq_mem, decide_eq_false_iff_not, List.mem_map,
    not_exists, not_and]

/-- The check for endpoints that are used already. -/
theorem unused_iff {done : List Edge} {first second : String} :
    (!(done.flatMap Edge.endpoints).contains first &&
        !(first :: done.flatMap Edge.endpoints).contains second) = true ↔
      first ≠ second ∧ ∀ d ∈ done, ∀ ep ∈ d.endpoints, ep ∉ [first, second] := by
  simp only [Bool.and_eq_true, Bool.not_eq_true', List.contains_eq_mem, decide_eq_false_iff_not,
    List.mem_cons, List.mem_flatMap, not_or, not_exists, not_and, List.not_mem_nil, or_false]
  constructor
  · rintro ⟨hfirst, hne, hsecond⟩
    refine ⟨fun heq => hne heq.symm, fun d hd ep hep => ⟨?_, ?_⟩⟩
    · rintro rfl
      exact hfirst d hd hep
    · rintro rfl
      exact hsecond d hd hep
  · rintro ⟨hne, hall⟩
    exact ⟨fun d hd h => (hall d hd _ h).1 rfl, fun heq => hne heq.symm,
      fun d hd h => (hall d hd _ h).2 rfl⟩

theorem edgeOf_checks (nodes : List (String × Node)) (loop : LoopPolicy) :
    Checks (edgeOf nodes loop) (EdgeOk nodes loop) Edge.Apart := by
  intro done e x
  simp only [edgeOf, bind_eq_ok, fields_eq_ok, getstr_eq_ok, id_eq_ok, need_eq_ok, Prod.exists,
    pairOf_eq_ok, endpoint_eq_ok, ensure_eq_ok, new_iff, unused_iff, pure_eq_ok]
  constructor
  · rintro ⟨_, hfields, key, hkey, _, hname, _, hnew, _, hpair, first, second, rfl, a, ap, ha, b,
      bp, hb, _, ⟨hne, hunused⟩, _, hfit, _, hself, rfl⟩
    refine ⟨?_, fun d hd => ⟨hnew d hd, hunused d hd⟩⟩
    exact
      { fields := hfields
        key := hkey
        name := hname
        pair := hpair
        ends := ⟨a, ap, b, bp, ha, hb, hfit, hself⟩
        distinct := hne }
  · rintro ⟨hx, hapart⟩
    obtain ⟨a, ap, b, bp, ha, hb, hfit, hself⟩ := hx.ends
    exact ⟨(), hx.fields, _, hx.key, (), hx.name, (), fun d hd => (hapart d hd).1, _, hx.pair, _, _,
      rfl, a, ap, ha, b, bp, hb, (), ⟨hx.distinct, fun d hd => (hapart d hd).2⟩, (), hfit, (), hself,
      rfl⟩

/-! ## Flows -/

theorem linkOf_checks (edges : List Edge) (p : String) :
    Checks (linkOf edges p) (fun ref link => ref = .string link ∧ link ∈ edges.map Edge.id)
      (· ≠ ·) := by
  intro done ref link
  simp only [linkOf, bind_eq_ok, str_eq_ok, ensure_eq_ok, pure_eq_ok, Bool.and_eq_true,
    Bool.not_eq_true', List.contains_eq_mem, decide_eq_true_eq, decide_eq_false_iff_not]
  constructor
  · rintro ⟨s, rfl, _, ⟨hmem, hnew⟩, rfl⟩
    exact ⟨⟨rfl, hmem⟩, fun d hd heq => hnew (heq ▸ hd)⟩
  · rintro ⟨⟨rfl, hmem⟩, hnew⟩
    exact ⟨link, rfl, (), ⟨hmem, fun hd => hnew link hd rfl⟩, rfl⟩

/-- The canonical form of a list of data edges. -/
def linksJson (links : List String) : Json := .array ((sortOn (fun s => s) links).map .string)

/-- A flow that passes by itself. -/
structure FlowOk (nodes : List (String × Node)) (edges : List Edge) (flow : Json)
    (x : String × Json) : Prop where
  fields : HasFields flow ["id", "source", "target", "networkEdges", "protocol"]
  key : flow.find? "id" = some (.string x.1)
  name : identifier x.1 = true
  ends : each (fun field => flowNode nodes flow field ("application.edges." ++ x.1))
    ["source", "target"] = .ok ()
  protocol : protocolCheck flow ("application.edges." ++ x.1) = .ok ()
  links : ∃ refs links, flow.find? "networkEdges" = some (.array refs) ∧ refs.length ≤ 256 ∧
    collect (linkOf edges ("application.edges." ++ x.1)) refs [] = .ok links ∧
    x.2 = flow.set "networkEdges" (linksJson links)

theorem flowOf_checks (nodes : List (String × Node)) (edges : List Edge) :
    Checks (flowOf nodes edges) (FlowOk nodes edges) (fun d x => d.1 ≠ x.1) := by
  intro done flow x
  simp only [flowOf, bind_eq_ok, fields_eq_ok, getstr_eq_ok, id_eq_ok, need_eq_ok, array_eq_ok,
    ensure_eq_ok, new_iff, decide_eq_true_eq, pure_eq_ok]
  constructor
  · rintro ⟨_, hfields, key, hkey, _, hname, _, hnew, _, hends, _, hprotocol, _, hrefs, refs, rfl, _,
      hfew, links, hlinks, rfl⟩
    refine ⟨?_, hnew⟩
    exact
      { fields := hfields
        key := hkey
        name := hname
        ends := hends
        protocol := hprotocol
        links := ⟨refs, links, hrefs, hfew, hlinks, rfl⟩ }
  · rintro ⟨hx, hnew⟩
    obtain ⟨key, _⟩ := x
    obtain ⟨refs, links, hrefs, hfew, hlinks, rfl⟩ := hx.links
    exact ⟨(), hx.fields, _, hx.key, (), hx.name, (), hnew, (), hx.ends, (), hx.protocol, _, hrefs,
      refs, rfl, (), hfew, links, hlinks, rfl⟩

/-! ## Networks -/

variable {lib : Platform}

theorem networkOf_name {done : List Network} {f : String × Json} :
    ∀ n, networkOf lib done f = .ok n → n.name = f.1 := by
  unfold networkOf
  iterate 15 refine bind_imp fun _ => ?_
  intro n hn
  rw [← pure_eq_ok.mp hn]

/-! ## Attachments -/

/-- An attachment that passes by itself. -/
structure AttachmentOk (lib : Platform) (nodes : List (String × Node)) (used : List String)
    (networks : List Network) (a : Json) (x : Attached) : Prop where
  value : x.value = a
  fields : HasFields a ["endpoint", "network", "address"]
  key : a.find? "endpoint" = some (.string x.endpoint)
  port : ∃ node port, At nodes x.endpoint node port ∧ port.role = .management
  free : x.endpoint ∉ used
  name : a.find? "network" = some (.string x.network)
  address : ∃ net text c, networks.find? (·.name == x.network) = some net ∧
    a.find? "address" = some (.string text) ∧ cidr lib text "attachment.address" = .ok c ∧
    x.ip = c.ip ∧ c.prefixLength = net.subnet.prefixLength ∧ inside c net.subnet = true ∧
    inside c net.pool = false ∧ c.ip ≠ net.subnet.ip ∧ c.ip ≠ broadcast net.subnet ∧
    c.ip ≠ net.gateway

/-- Two attachments have different endpoints, and different addresses in one network. -/
def Attached.Apart (d x : Attached) : Prop :=
  d.endpoint ≠ x.endpoint ∧ (d.network = x.network → d.ip ≠ x.ip)

theorem Attached.Apart.symm {d x : Attached} (h : d.Apart x) : x.Apart d :=
  ⟨h.1.symm, fun heq hip => h.2 heq.symm hip.symm⟩

theorem attachmentOf_checks (lib : Platform) (nodes : List (String × Node)) (used : List String)
    (networks : List Network) :
    Checks (attachmentOf lib nodes used networks) (AttachmentOk lib nodes used networks)
      Attached.Apart := by
  intro done a x
  simp only [attachmentOf, bind_eq_ok, fields_eq_ok, getstr_eq_ok, Prod.exists, endpoint_eq_ok,
    ensure_eq_ok]
  constructor
  · rintro ⟨_, hfields, ep, hep, node, port, hport, _, hfree, name, hname, h⟩
    split at h
    · cases h
    · rename_i net hnet
      simp only [bind_eq_ok, getstr_eq_ok, ensure_eq_ok, pure_eq_ok] at h
      obtain ⟨text, htext, c, hc, _, hgood, rfl⟩ := h
      simp only [Bool.and_eq_true, Bool.not_eq_true', List.contains_eq_mem,
        decide_eq_false_iff_not, beq_iff_eq, bne_iff_ne, List.mem_map, List.mem_cons,
        List.mem_filter, not_or, not_exists, not_and] at hfree hgood
      obtain ⟨⟨hrole, hunused⟩, honce⟩ := hfree
      obtain ⟨⟨⟨⟨⟨hwidth, hin⟩, hpool⟩, hfirst⟩, hlast⟩, hgateway, hnew⟩ := hgood
      refine ⟨?_, fun d hd => ⟨honce d hd, fun heq => hnew d ⟨hd, heq⟩⟩⟩
      exact
        { value := rfl
          fields := hfields
          key := hep
          port := ⟨node, port, hport, hrole⟩
          free := hunused
          name := hname
          address := ⟨net, text, c, hnet, htext, hc, rfl, hwidth, hin, hpool, hfirst, hlast,
            hgateway⟩ }
  · rintro ⟨hx, hapart⟩
    obtain ⟨ep, network, _, value⟩ := x
    obtain ⟨node, port, hport, hrole⟩ := hx.port
    obtain ⟨_, text, c, hnet, htext, hc, hip, hwidth, hin, hpool, hfirst, hlast, hgateway⟩ :=
      hx.address
    cases hx.value
    cases hip
    refine ⟨(), hx.fields, ep, hx.key, node, port, hport, (), ?_, network, hx.name, ?_⟩
    · rw [Bool.and_eq_true, new_iff]
      simp only [Bool.and_eq_true, Bool.not_eq_true', List.contains_eq_mem, beq_iff_eq,
        decide_eq_false_iff_not]
      exact ⟨⟨hrole, hx.free⟩, fun d hd => (hapart d hd).1⟩
    simp only [hnet, bind_eq_ok, getstr_eq_ok, ensure_eq_ok]
    refine ⟨text, htext, c, hc, (), ?_, rfl⟩
    simp only [Bool.and_eq_true, Bool.not_eq_true', List.contains_eq_mem,
      decide_eq_false_iff_not, beq_iff_eq, bne_iff_ne, List.mem_map, List.mem_cons,
      List.mem_filter, not_or, not_exists, not_and]
    exact ⟨⟨⟨⟨⟨hwidth, hin⟩, hpool⟩, hfirst⟩, hlast⟩, hgateway,
      fun d hd => (hapart d hd.1).2 hd.2⟩

/-! ## Trunks -/

theorem vlanId_checks (q : String) :
    Checks (vlanId q) (fun v n => v = .number n ∧ 1 ≤ n ∧ n ≤ 4094) (· ≠ ·) := by
  intro done v n
  simp only [vlanId, bind_eq_ok, number_eq_ok, ensure_eq_ok, pure_eq_ok, Bool.not_eq_true',
    List.contains_eq_mem, decide_eq_false_iff_not]
  constructor
  · rintro ⟨m, hm, _, hnew, rfl⟩
    exact ⟨hm, fun d hd heq => hnew (heq ▸ hd)⟩
  · rintro ⟨hn, hnew⟩
    exact ⟨n, hn, (), fun hd => hnew n hd rfl, rfl⟩

/-! ## Loop protection -/

theorem loopCheck_eq_ok {t : Json} {loop : LoopPolicy} {nodes : List (String × Node)}
    {edges : List Edge} {u : Unit} :
    loopCheck t loop nodes edges = .ok u ↔
      (loop = .rstp → ∀ f ∈ nodes, f.2.kind = .ovsSwitch →
        OnCycle (switchLinks nodes edges) f.1 → rstp t f.1 = true) := by
  cases loop with
  | unprotected => simp [loopCheck]
  | rstp =>
    rw [loopCheck, each_eq_ok]
    simp only [forall_const]
    refine forall₂_congr fun f _ => ?_
    rw [rstpCheck, ensure_eq_ok, ← Unions.cyclic_iff]
    simp only [Bool.not_eq_true', Bool.and_eq_false_iff, beq_eq_false_iff_ne, List.any_eq_false,
      Bool.and_eq_true, beq_iff_eq, Bool.not_eq_true', not_and, Bool.not_eq_false]
    constructor
    · rintro (h | h) hkind ⟨c, hc, hroot⟩
      · exact absurd hkind h
      · exact h c hc hroot
    · intro h
      by_cases hkind : f.2.kind = .ovsSwitch
      · exact .inr fun c hc hroot => h hkind ⟨c, hc, hroot⟩
      · exact .inl hkind

/-! ## All checks -/

theorem edgesOf_eq_ok {t : Json} {head : Head} {nodes : List (String × Node)} {es : List Edge} :
    edgesOf t head nodes = .ok es ↔ ∃ l, t.find? "edges" = some (.array l) ∧
      (l.length : ℤ) ≤ head.maxEdges ∧ collect (edgeOf nodes head.loop) l [] = .ok es := by
  simp only [edgesOf, bind_eq_ok, need_eq_ok, array_eq_ok, ensure_eq_ok, decide_eq_true_eq]
  constructor
  · rintro ⟨_, hl, l, rfl, _, hfew, hes⟩
    exact ⟨l, hl, hfew, hes⟩
  · rintro ⟨l, hl, hfew, hes⟩
    exact ⟨_, hl, l, rfl, (), hfew, hes⟩

theorem applicationOf_eq_ok {t app : Json} {nodes : List (String × Node)} {edges : List Edge}
    {o : Option Json} (happ : t.find? "application" = some app) :
    applicationOf t nodes edges = .ok o ↔ HasFields app ["apiVersion", "edges"] ∧
      app.find? "apiVersion" = some (.string "graphlab.application-dataflow/v1") ∧
      ∃ l fs, app.find? "edges" = some (.array l) ∧ l.length ≤ 1024 ∧
        collect (flowOf nodes edges) l [] = .ok fs ∧
        o = some (app.set "edges" (.array ((sortOn Prod.fst fs).map Prod.snd))) := by
  simp only [applicationOf, happ, bind_eq_ok, fields_eq_ok, getstr_eq_ok, need_eq_ok, array_eq_ok,
    ensure_eq_ok, beq_iff_eq, decide_eq_true_eq, pure_eq_ok]
  constructor
  · rintro ⟨_, hfields, _, hversion, _, rfl, _, hl, l, rfl, _, hfew, fs, hfs, rfl⟩
    exact ⟨hfields, hversion, l, fs, hl, hfew, hfs, rfl⟩
  · rintro ⟨hfields, hversion, l, fs, hl, hfew, hfs, rfl⟩
    exact ⟨(), hfields, _, hversion, (), rfl, _, hl, l, rfl, (), hfew, fs, hfs, rfl⟩

theorem checkAll_eq_ok {t lock : Json} {x : Parts} :
    checkAll lib t lock = .ok x ↔
      validateLock lib lock = .ok () ∧ headOf lib t lock = .ok x.head ∧
      nodesOf lib t lock x.head = .ok x.nodes ∧ edgesOf t x.head x.typed = .ok x.edges ∧
      applicationOf t x.typed x.edges = .ok x.application ∧
      loopCheck t x.head.loop x.typed x.edges = .ok () ∧ networksOf lib t = .ok x.networks ∧
      attachmentsOf lib t x.typed x.edges x.networks = .ok x.attachments := by
  simp only [checkAll, bind_eq_ok]
  constructor
  · rintro ⟨_, hlock, head, hhead, nodes, hnodes, edges, hedges, application, happlication, _,
      hloop, networks, hnetworks, attachments, hattachments, h⟩
    cases h
    exact ⟨hlock, hhead, hnodes, hedges, happlication, hloop, hnetworks, hattachments⟩
  · rintro ⟨hlock, hhead, hnodes, hedges, happlication, hloop, hnetworks, hattachments⟩
    exact ⟨(), hlock, x.head, hhead, x.nodes, hnodes, x.edges, hedges, x.application, happlication,
      (), hloop, x.networks, hnetworks, x.attachments, hattachments, rfl⟩

theorem validate_eq_ok {t lock : Json} {out : ValidatedTopology} :
    validate lib t lock = .ok out ↔
      ∃ x, checkAll lib t lock = .ok x ∧ outputOf lib t lock x = out := by
  simp only [validate, bind_eq_ok, pure_eq_ok]

end Graphlab.Contracts
