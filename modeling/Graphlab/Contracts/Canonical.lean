import Graphlab.Contracts.Variants

/-!
# The canonical topology

The canonical topology of an accepted topology is accepted again, with the same nodes, the
same edges and itself as canonical topology: every default that it writes out passes the
check of its field, every list that it sorts stays sorted.

## Main results

* `portOf_canonical`, `nodeOf_canonical`, `FlowOk.canonical` — one element of each loop.
* `validate_canonical` — the whole topology.
-/

namespace Graphlab.Contracts

open Lib

/-! ## Ports -/

section Ports

variable {lock v : Json} {kind : Kind} {workload p : String}

/-- A policy with sorted trunk passes as it is. -/
theorem vlanPolicy_canonical {vlan vlan' : Json} {q : String}
    (h : vlanPolicy vlan q = .ok vlan') : vlanPolicy vlan' q = .ok vlan' := by
  have hpolicy := h
  obtain ⟨_, _, h⟩ := bind_eq_ok.mp h
  obtain ⟨_, _, h⟩ := bind_eq_ok.mp h
  obtain ⟨_, _, h⟩ := bind_eq_ok.mp h
  split at h
  · -- an access port is left as it is
    obtain ⟨_, _, h⟩ := bind_eq_ok.mp h
    cases h
    exact hpolicy
  · obtain ⟨trunk, htrunk, h⟩ := bind_eq_ok.mp h
    have htrunk : vlan.find? "trunk" = some (.array trunk) := by
      have := array_eq_ok.mp htrunk
      cases hfind : vlan.find? "trunk" with
      | none => simp [hfind] at this
      | some =>
        rw [hfind] at this
        exact congrArg some this
    obtain ⟨rfl, ids, hids, hne, rfl⟩ := (vlanPolicy_trunk htrunk).mp hpolicy
    have hperm := sortOn_perm (fun n : ℤ => n) ids
    have hdistinct : (ids.map fun n => n).Nodup := by
      rw [List.map_id']
      exact ((collect_eq_ok (vlanId_checks q)).mp hids).2
    refine (vlanPolicy_trunk rfl).mpr ⟨rfl, sortOn (fun n => n) ids, ?_, ?_, ?_⟩
    · exact collect_again (vlanId_checks q) (fun _ _ hne heq => hne heq.symm)
        (fun _ _ hn => ⟨rfl, hn.2⟩) hperm.symm hids
    · intro hnil
      exact hne (List.perm_nil.mp (hnil ▸ hperm.symm))
    · rw [sortOn_idem hdistinct]

theorem mtuOf_range {q : String} {n : ℤ} (h : mtuOf v q = .ok n) : 576 ≤ n ∧ n ≤ 9216 := by
  rw [mtuOf] at h
  split at h
  · cases h
    decide
  · exact (number_eq_ok.mp h).2

theorem canonicalPort_find (port : Port) (hv : v.IsObject) :
    (canonicalPort v port).find? "medium" = some (.string port.medium) ∧
      (canonicalPort v port).find? "mtu" = some (.number port.mtu) ∧
      (canonicalPort v port).find? "role" = v.find? "role" ∧
      (canonicalPort v port).find? "vlan" = (port.vlan <|> v.find? "vlan") := by
  have hmedium : (v.set "medium" (.string port.medium)).IsObject := hv.set
  have hmtu : ((v.set "medium" (.string port.medium)).set "mtu" (.number port.mtu)).IsObject :=
    hmedium.set
  rw [canonicalPort]
  cases port.vlan with
  | none =>
    refine ⟨?_, Json.find?_set_self hmedium, ?_, ?_⟩
    · rw [Json.find?_set_ne (by decide), Json.find?_set_self hv]
    · rw [Json.find?_set_ne (by decide), Json.find?_set_ne (by decide)]
    · rw [Json.find?_set_ne (by decide), Json.find?_set_ne (by decide)]
      rfl
  | some =>
    refine ⟨?_, ?_, ?_, ?_⟩
    · rw [Json.find?_set_ne (by decide), Json.find?_set_ne (by decide), Json.find?_set_self hv]
    · rw [Json.find?_set_ne (by decide), Json.find?_set_self hmedium]
    · rw [Json.find?_set_ne (by decide), Json.find?_set_ne (by decide),
        Json.find?_set_ne (by decide)]
    · rw [Json.find?_set_self hmtu]
      rfl

theorem canonicalPort_fields {port : Port} (hv : v.IsObject) :
    HasFields (canonicalPort v port) ["role", "medium", "mtu", "vlan"] ↔
      HasFields v ["role", "medium", "mtu", "vlan"] := by
  rw [canonicalPort]
  cases port.vlan with
  | none => rw [HasFields.set hv.set (by decide), HasFields.set hv (by decide)]
  | some =>
    rw [HasFields.set hv.set.set (by decide), HasFields.set hv.set (by decide),
      HasFields.set hv (by decide)]

/-- A canonical port passes, with itself as canonical port. -/
theorem portOf_canonical {name : String} {y : String × Port}
    (h : portOf lock kind workload p (name, v) = .ok y) :
    y.1 = name ∧ portOf lock kind workload p (name, canonicalPort v y.2) = .ok y ∧
      canonicalPort (canonicalPort v y.2) y.2 = canonicalPort v y.2 := by
  obtain ⟨hname, hv, hmedium, hmtu, hvlan⟩ := portOf_ok h
  obtain ⟨hmedium', hmtu', hrole', hvlan'⟩ := canonicalPort_find y.2 hv
  have hsame : vlanOf kind (canonicalPort v y.2) (p ++ ".ports." ++ name) = .ok y.2.vlan := by
    simp only [vlanOf, hvlan'] at hvlan ⊢
    split at hvlan
    · obtain ⟨_, hkind, hvlan⟩ := bind_eq_ok.mp hvlan
      obtain ⟨policy, hpolicy, hvlan⟩ := bind_eq_ok.mp hvlan
      rw [← pure_eq_ok.mp hvlan]
      exact bind_eq_ok.mpr ⟨(), hkind, bind_eq_ok.mpr ⟨policy, vlanPolicy_canonical hpolicy, rfl⟩⟩
    · rename_i hnone
      obtain ⟨_, hkind, hvlan⟩ := bind_eq_ok.mp hvlan
      rw [← pure_eq_ok.mp hvlan, hnone]
      exact bind_eq_ok.mpr ⟨(), hkind, rfl⟩
  refine ⟨hname, (portOf_congr (canonicalPort_fields hv) hrole' ?_ ?_ ?_).mpr h, ?_⟩
  · rw [hmedium, mediumOf, hmedium']
    rfl
  · rw [hmtu, mtuOf, hmtu']
    exact number_eq_ok.mpr ⟨rfl, mtuOf_range hmtu⟩
  · intro o
    rw [hsame, hvlan]
  · -- all that the canonical form sets is set already
    have hset : ∀ {w : Json} {k : String} {x : Json}, w.find? k = some x → w.set k x = w :=
      Json.set_same
    rw [canonicalPort, hset hmedium', hset hmtu']
    cases h : y.2.vlan with
    | none => rfl
    | some =>
      rw [h] at hvlan'
      exact hset hvlan'

end Ports

/-! ## Nodes -/

section Nodes

variable {lib : Platform} {lock : Json}

/-- Canonical ports pass, with themselves as canonical ports. -/
theorem ports_canonical {kind : Kind} {workload p : String} {raw : List (String × Json)}
    {ports : List (String × Port)}
    (h : List.Forall₂ (fun f y => portOf lock kind workload p f = .ok y) raw ports) :
    let canonical := List.zipWith (fun f g => (f.1, canonicalPort f.2 g.2)) raw ports
    List.Forall₂ (fun f y => portOf lock kind workload p f = .ok y) canonical ports ∧
      List.zipWith (fun f g => (f.1, canonicalPort f.2 g.2)) canonical ports = canonical := by
  induction h with
  | nil => exact ⟨.nil, rfl⟩
  | cons hy _ ih =>
    obtain ⟨-, hpass, hsame⟩ := portOf_canonical hy
    exact ⟨.cons hpass ih.1, by rw [List.zipWith_cons_cons, List.zipWith_cons_cons, hsame, ih.2]⟩

/-- A canonical node passes, with itself as canonical node. -/
theorem nodeOf_canonical {f : String × Json} {z : String × Node × Json}
    (h : nodeOf lib lock f = .ok z) :
    z.1 = f.1 ∧ nodeOf lib lock (z.1, z.2.2) = .ok z ∧
      z.2.2.find? "policy" = f.2.find? "policy" := by
  obtain ⟨_, _⟩ := f
  obtain ⟨_, _, hkey, hcanonical, hpass, hothers⟩ := nodeOf_setPorts h
  obtain ⟨hpass', hsame⟩ := ports_canonical hpass
  rw [hkey, hcanonical]
  exact ⟨rfl, hothers _ hpass' hsame, Json.find?_set_ne (by decide)⟩

end Nodes

/-! ## Edges, flows and attachments -/

section Elements

variable {nodes : List (String × Node)}

theorem EdgeOk.canonical {loop : LoopPolicy} {e : Json} {x : Edge} (h : EdgeOk nodes loop e x) :
    EdgeOk nodes loop x.json x :=
  { h with fields := ⟨_, rfl, by simp⟩, key := rfl, pair := rfl }

theorem FlowOk.canonical {edges : List Edge} {flow : Json} {x : String × Json}
    (h : FlowOk nodes edges flow x) : FlowOk nodes edges x.2 x := by
  obtain ⟨refs, links, hrefs, -, hlinks, hcanonical⟩ := h.links
  obtain ⟨hall, -⟩ := (collect_eq_ok (linkOf_checks _ _)).mp hlinks
  -- the data edges that it had, in another order
  have hrefs' : refs = links.map .string := by
    clear hlinks hrefs hcanonical
    induction hall with
    | nil => rfl
    | cons hlink _ ih => rw [hlink.1, ih, List.map_cons]
  have hperm : refs.Perm ((sortOn (fun s => s) links).map .string) := by
    rw [hrefs']
    exact (sortOn_perm _ links).symm.map _
  have hsame := h.perm hrefs hperm
  rwa [← linksJson, ← hcanonical] at hsame

theorem AttachmentOk.canonical {lib : Platform} {used : List String} {networks : List Network}
    {a : Json} {x : Attached} (h : AttachmentOk lib nodes used networks a x) :
    AttachmentOk lib nodes used networks x.value x := by
  rw [h.value]
  exact h

end Elements

/-! ## The whole topology -/

section Topology

variable {lib : Platform} {t lock : Json} {x : Parts}

/-- What was checked is an object. -/
theorem isObject_of_checkAll (hx : checkAll lib t lock = .ok x) : t.IsObject := by
  obtain ⟨-, hhead, -⟩ := checkAll_eq_ok.mp hx
  obtain ⟨_, hfields, -⟩ := bind_eq_ok.mp hhead
  obtain ⟨fs, rfl, -⟩ := fields_eq_ok.mp hfields
  exact ⟨fs, rfl⟩

theorem updatesOf_nodup (x : Parts) : ((updatesOf x).map Prod.fst).Nodup := by
  cases h : x.application <;> simp [updatesOf, h]

theorem updatesOf_sub (x : Parts) :
    (updatesOf x).map Prod.fst ⊆ ["limits", "loopPolicy", "requiredFeatures", "nodes",
      "application", "managementAttachments", "edges"] := by
  cases h : x.application <;> simp [updatesOf, h]

/-- A key that the canonical topology sets. -/
theorem canonicalOf_find (hx : checkAll lib t lock = .ok x) {k : String} {v : Json}
    (h : (k, v) ∈ updatesOf x) : (canonicalOf t x).find? k = some v :=
  Json.find?_setAll_of_mem (isObject_of_checkAll hx) (updatesOf_nodup x) h

theorem canonicalOf_application (hx : checkAll lib t lock = .ok x) :
    (canonicalOf t x).find? "application" = x.application := by
  cases h : x.application with
  | some => exact canonicalOf_find hx (by simp [updatesOf, h])
  | none =>
    rw [canonicalOf, Json.find?_setAll_of_not_mem (by simp [updatesOf, h])]
    by_contra hsome
    have hcovers := (covers_updatesOf hx).2 (Option.isSome_iff_ne_none.mpr hsome)
    simp [updatesOf, h] at hcovers

theorem HasFields.setAll {p : Json} {allowed : List String} (hp : p.IsObject)
    {us : List (String × Json)} (hus : us.map Prod.fst ⊆ allowed) :
    HasFields (p.setAll us) allowed ↔ HasFields p allowed := by
  induction us generalizing p with
  | nil => exact Iff.rfl
  | cons u us ih =>
    rw [List.map_cons, List.cons_subset] at hus
    rw [Json.setAll_cons, ih hp.set hus.2, HasFields.set hp hus.1]

/-- The limits that were found pass again. -/
theorem limitsOf_canonical {p : Json} {head : Head} (hp : p.find? "limits" = some head.json)
    (h : limitsOf t = .ok (head.maxNodes, head.maxEdges)) : limitsOf p = limitsOf t := by
  have hrange : (1 ≤ head.maxNodes ∧ head.maxNodes ≤ 10000) ∧
      (0 ≤ head.maxEdges ∧ head.maxEdges ≤ 100000) := by
    rw [limitsOf] at h
    split at h
    · simp only [Except.ok.injEq, Prod.mk.injEq] at h
      rw [← h.1, ← h.2]
      decide
    · simp only [bind_eq_ok, number_eq_ok, pure_eq_ok, Prod.mk.injEq] at h
      obtain ⟨_, _, _, _, _, ⟨_, hnodes⟩, _, _, _, ⟨_, hedges⟩, rfl, rfl⟩ := h
      exact ⟨hnodes, hedges⟩
  rw [h, limitsOf, hp]
  simp only [bind_eq_ok, fields_eq_ok, need_eq_ok, number_eq_ok]
  exact ⟨(), ⟨_, rfl, by simp⟩, _, rfl, _, ⟨rfl, hrange.1⟩, _, rfl, _, ⟨rfl, hrange.2⟩, rfl⟩

theorem loopOf_eq_some {s : String} {loop : LoopPolicy} : loopOf s = some loop → s = loop.text := by
  rw [loopOf]
  split
  · rintro ⟨⟩
    assumption
  · split
    · rintro ⟨⟩
      assumption
    · rintro ⟨⟩

theorem oneOf_eq_ok {α : Type} {parse : String → Option α} {s path message code : String} {a : α} :
    oneOf parse s path message code = .ok a ↔ parse s = some a := by
  rw [oneOf]
  cases parse s <;> simp

/-- The canonical topology has the head and the networks that were found. -/
theorem alike_canonical (hx : checkAll lib t lock = .ok x) : Alike t (canonicalOf t x) := by
  obtain ⟨-, hhead, -⟩ := checkAll_eq_ok.mp hx
  have ht := isObject_of_checkAll hx
  simp only [headOf, bind_eq_ok] at hhead
  obtain ⟨_, -, _, hsettings, ⟨maxNodes, maxEdges⟩, hlimits, text, htext, loop, hloop, h⟩ := hhead
  have hfound : x.head = { maxNodes, maxEdges, loop } := (pure_eq_ok.mp h).symm
  have hapart : ∀ k ∈ ["apiVersion", "id", "artifactLock", "backend", "capture", "management"],
      k ∉ ["limits", "loopPolicy", "requiredFeatures", "nodes", "application",
        "managementAttachments", "edges"] := by
    decide
  have hsub : (updatesOf x).map Prod.fst ⊆ topologyFields :=
    List.Subset.trans (updatesOf_sub x) (by decide)
  refine ⟨HasFields.setAll ht hsub,
    fun k hk => Json.find?_setAll_of_not_mem fun hin => hapart k hk (updatesOf_sub x hin),
    ?_, ?_, ?_⟩
  · -- no feature is required, before and after
    simp only [settings, bind_eq_ok] at hsettings
    obtain ⟨_, _, _, _, _, _, _, _, _, hfeatures, -⟩ := hsettings
    have hnone : (canonicalOf t x).find? "requiredFeatures" = some (.array []) :=
      canonicalOf_find hx (by simp [updatesOf])
    rw [hfeatures, features, hnone]
    rfl
  · have hset : (canonicalOf t x).find? "limits" = some x.head.json :=
      canonicalOf_find hx (by simp [updatesOf])
    refine limitsOf_canonical hset ?_
    rw [hfound]
    exact hlimits
  · have htextOf : text = x.head.loop.text := by
      rw [hfound]
      exact loopOf_eq_some (oneOf_eq_ok.mp hloop)
    have hset : (canonicalOf t x).find? "loopPolicy" = some (.string x.head.loop.text) :=
      canonicalOf_find hx (by simp [updatesOf])
    rw [htext, htextOf, loopPolicyText, hset]
    rfl

theorem canonicalOf_nodes (hx : checkAll lib t lock = .ok x) :
    (canonicalOf t x).find? "nodes" = some (.object (x.nodes.map fun f => (f.1, f.2.2))) :=
  canonicalOf_find hx (by simp [updatesOf])

/-- The nodes of a topology, one by one. -/
theorem nodesOf_eq_ok {head : Head} {ns : List (String × Node × Json)} :
    nodesOf lib t lock head = .ok ns ↔ ∃ fs, t.find? "nodes" = some (.object fs) ∧
      (fs.length : ℤ) ≤ head.maxNodes ∧ List.Forall₂ (fun f z => nodeOf lib lock f = .ok z) fs ns := by
  simp only [nodesOf, bind_eq_ok, need_eq_ok, object_eq_ok, ensure_eq_ok, decide_eq_true_eq,
    collect_eq_ok nodeOf_checks, List.pairwise_of_forall fun _ _ => trivial, and_true]
  constructor
  · rintro ⟨v, hv, fs, rfl, _, hfew, hall⟩
    exact ⟨fs, hv, hfew, hall⟩
  · rintro ⟨fs, hfs, hfew, hall⟩
    exact ⟨_, hfs, fs, rfl, (), hfew, hall⟩

theorem nodesOf_canonical (hx : checkAll lib t lock = .ok x) :
    nodesOf lib (canonicalOf t x) lock x.head = .ok x.nodes := by
  obtain ⟨-, -, hnodes, -⟩ := checkAll_eq_ok.mp hx
  obtain ⟨_, -, _, hall⟩ := nodesOf_eq_ok.mp hnodes
  refine nodesOf_eq_ok.mpr ⟨_, canonicalOf_nodes hx, ?_, ?_⟩
  · rwa [List.length_map, ← hall.length_eq]
  · rw [List.forall₂_map_left_iff, List.forall₂_same]
    intro z hz
    obtain ⟨_, -, hf⟩ := exists_of_mem_right hall hz
    exact (nodeOf_canonical hf).2.1

/-- A switch keeps its policy. -/
theorem rstp_canonical (hx : checkAll lib t lock = .ok x) (key : String) :
    rstp (canonicalOf t x) key = rstp t key := by
  obtain ⟨-, -, hnodes, -⟩ := checkAll_eq_ok.mp hx
  obtain ⟨fs, hfs, -, hall⟩ := nodesOf_eq_ok.mp hnodes
  have hpolicy : (lookup key (x.nodes.map fun f => (f.1, f.2.2))).bind (·.find? "policy") =
      (lookup key fs).bind (·.find? "policy") := by
    clear hnodes hfs hx
    generalize x.nodes = ns at hall
    induction hall with
    | nil => rfl
    | @cons f z fs ns hz _ ih =>
      obtain ⟨hkey, -, hsame⟩ := nodeOf_canonical hz
      rw [List.map_cons, lookup_cons, lookup_cons, hkey]
      split
      · exact hsame
      · exact ih
  simp only [rstp, canonicalOf_nodes hx, hfs, Option.bind_some,
    Json.find?_object, hpolicy]

theorem edgesOf_canonical (hx : checkAll lib t lock = .ok x) :
    edgesOf (canonicalOf t x) x.head x.typed = .ok x.sortedEdges := by
  obtain ⟨-, -, -, hedges, -⟩ := checkAll_eq_ok.mp hx
  obtain ⟨es, -, _, hcollect⟩ := edgesOf_eq_ok.mp hedges
  have hperm : x.edges.Perm x.sortedEdges := (sortOn_perm Edge.id x.edges).symm
  have hlength : es.length = x.edges.length :=
    ((collect_eq_ok (edgeOf_checks _ _)).mp hcollect).1.length_eq
  refine edgesOf_eq_ok.mpr ⟨_, canonicalOf_find hx (by simp [updatesOf]; rfl), ?_, ?_⟩
  · rwa [List.length_map, ← hperm.length_eq, ← hlength]
  · exact collect_again (edgeOf_checks _ _) (fun _ _ => Edge.Apart.symm)
      (fun _ _ h => h.canonical) hperm hcollect

theorem attachmentsOf_canonical (hx : checkAll lib t lock = .ok x) :
    attachmentsOf lib (canonicalOf t x) x.typed x.edges x.networks =
      .ok (sortOn Attached.endpoint x.attachments) := by
  obtain ⟨-, -, -, -, -, -, -, hattachments⟩ := checkAll_eq_ok.mp hx
  obtain ⟨_, _, hcollect⟩ := bind_eq_ok.mp hattachments
  have hset : (canonicalOf t x).find? "managementAttachments" =
      some (.array ((sortOn Attached.endpoint x.attachments).map Attached.value)) :=
    canonicalOf_find hx (by simp [updatesOf])
  rw [attachmentsOf, hset]
  refine bind_eq_ok.mpr ⟨_, array_eq_ok.mpr rfl, ?_⟩
  exact collect_again (attachmentOf_checks _ _ _ _) (fun _ _ => Attached.Apart.symm)
    (fun _ _ h => h.canonical) (sortOn_perm _ _).symm hcollect

theorem applicationOf_canonical (hx : checkAll lib t lock = .ok x) :
    applicationOf (canonicalOf t x) x.typed x.edges = .ok x.application := by
  obtain ⟨-, -, -, -, happlication, -⟩ := checkAll_eq_ok.mp hx
  cases happ : t.find? "application" with
  | none =>
    rw [applicationOf, happ] at happlication
    rw [applicationOf, canonicalOf_application hx, ← Except.ok.inj happlication]
  | some =>
    obtain ⟨hfields, _, flows, fs, hflows, _, hcollect, hset⟩ :=
      (applicationOf_eq_ok happ).mp happlication
    have hobject := Json.IsObject.of_find? hflows
    have hperm := (sortOn_perm Prod.fst fs).symm
    have hlength : flows.length = fs.length :=
      ((collect_eq_ok (flowOf_checks _ _)).mp hcollect).1.length_eq
    have hdistinct : (fs.map Prod.fst).Nodup :=
      List.pairwise_map.mpr ((collect_eq_ok (flowOf_checks _ _)).mp hcollect).2
    rw [applicationOf_eq_ok ((canonicalOf_application hx).trans hset), hset]
    refine ⟨(HasFields.set hobject (by decide) _).mpr hfields, ?_, _, sortOn Prod.fst fs,
      Json.find?_set_self hobject, ?_, ?_, ?_⟩
    · rwa [Json.find?_set_ne (by decide)]
    · rwa [List.length_map, ← hperm.length_eq, ← hlength]
    · exact collect_again (flowOf_checks _ _) (fun _ _ hne heq => hne heq.symm)
        (fun _ _ h => h.canonical) hperm hcollect
    · rw [Json.set_set, sortOn_idem hdistinct]

/-- **Canonical topologies.**  A canonical topology is accepted, with the result of the topology
that it was made of: itself, the same hash, the same nodes and the same edges. -/
theorem validate_canonical {out : ValidatedTopology} (h : validate lib t lock = .ok out) :
    validate lib out.canonical lock = .ok out := by
  obtain ⟨x, hx, rfl⟩ := validate_eq_ok.mp h
  obtain ⟨-, -, -, hedges, -, -, -, hattachments⟩ := checkAll_eq_ok.mp hx
  let x' : Parts := { x with
    edges := x.sortedEdges, attachments := sortOn Attached.endpoint x.attachments }
  have hx' : checkAll lib (canonicalOf t x) lock = .ok x' :=
    checkAll_transfer (alike_canonical hx) hx rfl rfl rfl (sortOn_perm _ _).symm
      (rstp_canonical hx) (nodesOf_canonical hx) (edgesOf_canonical hx)
      (applicationOf_canonical hx) (attachmentsOf_canonical hx)
  have hsorted : x'.sortedEdges = x.sortedEdges := sortOn_idem (edges_nodup hedges)
  have hupdates : updatesOf x' = updatesOf x := by
    simp only [updatesOf, hsorted, x', sortOn_idem (attachments_nodup hattachments)]
  have hcanonical : canonicalOf (canonicalOf t x) x' = canonicalOf t x := by
    rw [canonicalOf, hupdates]
    exact Json.setAll_setAll (List.Subset.refl _)
  refine validate_eq_ok.mpr ⟨x', hx', ?_⟩
  simp only [outputOf, hcanonical, hsorted]
  rfl

/-- The canonical form of the sample. -/
theorem validate_canonical_sample :
    ∃ out, validate Sample.platform (Sample.topology Sample.edges) Sample.lock = .ok out ∧
      validate Sample.platform out.canonical Sample.lock = .ok out := by
  obtain ⟨out, hout⟩ := Sample.accepted
  exact ⟨out, hout, validate_canonical hout⟩

end Topology

end Graphlab.Contracts
