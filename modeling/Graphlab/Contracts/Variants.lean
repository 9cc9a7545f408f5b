import Graphlab.Contracts.Accepted

/-!
# Topologies that validation does not tell apart

The order of edges, attachments, trunks, flows and the data edges of a flow does not matter
to `validate`, and neither does whether a default is written out.  Each such change is a
`Step`; a topology and one that is reached by steps in both directions are accepted with
the same result.

## Main definitions

* `Step` — one change.
* `validate_variants` — the same result.
-/

namespace Graphlab.Contracts

open Lib

/-! ## Changes -/

/-- A port of a topology. -/
structure PortAt (t nodes : Json) (key : String) (n ports : Json) (name : String) (v : Json) :
    Prop where
  ofNodes : t.find? "nodes" = some nodes
  ofNode : nodes.find? key = some n
  ofPorts : n.find? "ports" = some ports
  ofPort : ports.find? name = some v

/-- The topology with another value of a port. -/
def setPort (t nodes : Json) (key : String) (n ports : Json) (name : String) (v : Json) : Json :=
  t.set "nodes" (nodes.set key (n.set "ports" (ports.set name v)))

/-- One change of a topology that says the same: a list in another order, or a default
written out. -/
inductive Step (t : Json) : Json → Prop
  | edges {l l' : List Json} (h : t.find? "edges" = some (.array l)) (hperm : l.Perm l') :
      Step t (t.set "edges" (.array l'))
  | attachments {l l' : List Json} (h : t.find? "managementAttachments" = some (.array l))
      (hperm : l.Perm l') : Step t (t.set "managementAttachments" (.array l'))
  | flows {app : Json} {l l' : List Json} (happ : t.find? "application" = some app)
      (h : app.find? "edges" = some (.array l)) (hperm : l.Perm l') :
      Step t (t.set "application" (app.set "edges" (.array l')))
  | links {app flow : Json} {pre post r r' : List Json}
      (happ : t.find? "application" = some app)
      (hflow : app.find? "edges" = some (.array (pre ++ flow :: post)))
      (h : flow.find? "networkEdges" = some (.array r)) (hperm : r.Perm r') :
      Step t (t.set "application" (app.set "edges"
        (.array (pre ++ flow.set "networkEdges" (.array r') :: post))))
  | trunk {nodes n ports v vlan : Json} {key name : String} {r r' : List Json}
      (hport : PortAt t nodes key n ports name v) (hvlan : v.find? "vlan" = some vlan)
      (h : vlan.find? "trunk" = some (.array r)) (hperm : r.Perm r') :
      Step t (setPort t nodes key n ports name (v.set "vlan" (vlan.set "trunk" (.array r'))))
  | medium {nodes n ports v : Json} {key name : String} (hv : v.IsObject)
      (hport : PortAt t nodes key n ports name v) (h : v.find? "medium" = none) :
      Step t (setPort t nodes key n ports name (v.set "medium" (.string "ethernet")))
  | mtu {nodes n ports v : Json} {key name : String} (hv : v.IsObject)
      (hport : PortAt t nodes key n ports name v) (h : v.find? "mtu" = none) :
      Step t (setPort t nodes key n ports name (v.set "mtu" (.number 1500)))
  | loopPolicy (ht : t.IsObject) (h : t.find? "loopPolicy" = none) :
      Step t (t.set "loopPolicy" (.string "rstp"))
  | limits (ht : t.IsObject) (h : t.find? "limits" = none) :
      Step t (t.set "limits" (.object [("maxEdges", .number 8192), ("maxNodes", .number 1024)]))
  | requiredFeatures (ht : t.IsObject) (h : t.find? "requiredFeatures" = none) :
      Step t (t.set "requiredFeatures" (.array []))
  | managementAttachments (ht : t.IsObject) (h : t.find? "managementAttachments" = none) :
      Step t (t.set "managementAttachments" (.array []))

/-! ## Keys -/

theorem HasFields.set {p : Json} {allowed : List String} (hp : p.IsObject) {k : String}
    (hk : k ∈ allowed) (v : Json) : HasFields (p.set k v) allowed ↔ HasFields p allowed := by
  obtain ⟨fs, rfl⟩ := hp
  constructor
  · rintro ⟨gs, heq, hall⟩
    cases heq
    exact ⟨fs, rfl, fun j hj => hall j (Json.mem_keys_setField.mpr (.inr hj))⟩
  · rintro ⟨gs, heq, hall⟩
    cases heq
    refine ⟨_, rfl, fun j hj => ?_⟩
    rcases Json.mem_keys_setField.mp hj with rfl | hj
    · exact hk
    · exact hall j hj

/-! ## Parts of a topology that stay -/

/-- Two topologies with the same head and the same networks. -/
structure Alike (t t' : Json) : Prop where
  fields : HasFields t' topologyFields ↔ HasFields t topologyFields
  find : ∀ k ∈ ["apiVersion", "id", "artifactLock", "backend", "capture", "management"],
    t'.find? k = t.find? k
  features : features t' "topology" = features t "topology"
  limits : limitsOf t' = limitsOf t
  loop : loopPolicyText t' = loopPolicyText t

/-- A change of one key leaves head and networks if it leaves what is read of that key. -/
theorem Alike.of_set {t : Json} (ht : t.IsObject) {k : String} (v : Json)
    (hk : k ∈ topologyFields)
    (hapart : k ∉ ["apiVersion", "id", "artifactLock", "backend", "capture", "management"])
    (hfeatures : k = "requiredFeatures" →
      Contracts.features (t.set k v) "topology" = Contracts.features t "topology")
    (hlimits : k = "limits" → limitsOf (t.set k v) = limitsOf t)
    (hloop : k = "loopPolicy" → loopPolicyText (t.set k v) = loopPolicyText t) :
    Alike t (t.set k v) := by
  refine ⟨HasFields.set ht hk v,
    fun j hj => Json.find?_set_ne fun heq => hapart (heq ▸ hj), ?_, ?_, ?_⟩
  · by_cases h : k = "requiredFeatures"
    · exact hfeatures h
    · rw [Contracts.features, Contracts.features, Json.find?_set_ne (Ne.symm h)]
  · by_cases h : k = "limits"
    · exact hlimits h
    · rw [limitsOf, limitsOf, Json.find?_set_ne (Ne.symm h)]
  · by_cases h : k = "loopPolicy"
    · exact hloop h
    · rw [loopPolicyText, loopPolicyText, Json.find?_set_ne (Ne.symm h)]

/-- A change of one key of the others leaves head and networks. -/
theorem Alike.set {t : Json} (ht : t.IsObject) {k : String} (v : Json)
    (hk : k ∈ ["nodes", "edges", "managementAttachments", "application"]) :
    Alike t (t.set k v) := by
  have hkeys : ∀ k ∈ ["nodes", "edges", "managementAttachments", "application"],
      k ∈ topologyFields ∧
        k ∉ ["apiVersion", "id", "artifactLock", "backend", "capture", "management"] ∧
        k ∉ ["requiredFeatures", "limits", "loopPolicy"] := by
    decide
  obtain ⟨hin, hapart, hother⟩ := hkeys k hk
  refine .of_set ht v hin hapart ?_ ?_ ?_
  all_goals
    rintro rfl
    exact absurd hother (by decide)

variable {networks : List Network} {r : List Json}

section Transfer

variable {lib : Platform} {t t' lock : Json}

theorem Alike.headOf (h : Alike t t') {head : Head} :
    headOf lib t' lock = .ok head ↔ headOf lib t lock = .ok head := by
  have hsettings : settings lib t' lock = settings lib t lock := by
    simp only [settings, getstr, need, h.features, h.find "apiVersion" (by decide),
      h.find "id" (by decide), h.find "artifactLock" (by decide), h.find "backend" (by decide),
      h.find "capture" (by decide)]
  simp only [Contracts.headOf, bind_eq_ok, fields_eq_ok, hsettings, h.fields, h.limits, h.loop]

theorem Alike.networksOf (h : Alike t t') : networksOf lib t' = networksOf lib t := by
  simp only [Contracts.networksOf, need, h.find "management" (by decide)]

/-! ## The order of the edges -/

section Perm

variable {nodes : List (String × Node)} {edges edges' : List Edge} (hperm : edges.Perm edges')

include hperm

theorem linkOf_perm (p : String) : linkOf edges p = linkOf edges' p := by
  funext links ref
  have hmem : ∀ link, (edges.map Edge.id).contains link = (edges'.map Edge.id).contains link := by
    intro link
    simp only [List.contains_eq_mem, (hperm.map Edge.id).mem_iff]
  simp only [linkOf, hmem]

theorem applicationOf_perm : applicationOf t nodes edges = applicationOf t nodes edges' := by
  have hflow : flowOf nodes edges = flowOf nodes edges' := by
    funext done flow
    simp only [flowOf, linkOf_perm hperm]
  simp only [applicationOf, hflow]

theorem attachmentsOf_perm :
    attachmentsOf lib t nodes edges networks = attachmentsOf lib t nodes edges' networks := by
  have hused : ∀ ep, (edges.flatMap Edge.endpoints).contains ep =
      (edges'.flatMap Edge.endpoints).contains ep := by
    intro ep
    simp only [List.contains_eq_mem, (hperm.flatMap_right Edge.endpoints).mem_iff]
  have hone : attachmentOf lib nodes (edges.flatMap Edge.endpoints) networks =
      attachmentOf lib nodes (edges'.flatMap Edge.endpoints) networks := by
    funext done a
    simp only [attachmentOf, hused]
  simp only [attachmentsOf, hone]

theorem switchLinks_perm : (switchLinks nodes edges).Perm (switchLinks nodes edges') :=
  (hperm.map _).filter _

end Perm

/-! ## All checks of a changed topology -/

/-- If the parts of a changed topology pass, with the edges in any order, all checks do. -/
theorem checkAll_transfer (h : Alike t t') {x x' : Parts} (hx : checkAll lib t lock = .ok x)
    (hhead : x'.head = x.head) (htyped : x'.typed = x.typed) (hnetworks : x'.networks = x.networks)
    (hperm : x.edges.Perm x'.edges) (hrstp : ∀ key, rstp t' key = rstp t key)
    (hnodes : nodesOf lib t' lock x.head = .ok x'.nodes)
    (hedges : edgesOf t' x.head x.typed = .ok x'.edges)
    (happlication : applicationOf t' x.typed x.edges = .ok x'.application)
    (hattachments : attachmentsOf lib t' x.typed x.edges x.networks = .ok x'.attachments) :
    checkAll lib t' lock = .ok x' := by
  obtain ⟨hlock, hhead₀, -, -, -, hloop, hnetworks₀, -⟩ := checkAll_eq_ok.mp hx
  refine checkAll_eq_ok.mpr ⟨hlock, ?_, ?_, ?_, ?_, ?_, ?_, ?_⟩
  · rw [hhead]
    exact h.headOf.mpr hhead₀
  · rwa [hhead]
  · rwa [hhead, htyped]
  · rwa [htyped, ← applicationOf_perm hperm]
  · rw [loopCheck_eq_ok] at hloop ⊢
    rw [hhead, htyped]
    intro hpolicy f hf hkind hcycle
    rw [hrstp]
    exact hloop hpolicy f hf hkind (hcycle.perm (switchLinks_perm hperm).symm)
  · rw [hnetworks, h.networksOf]
    exact hnetworks₀
  · rwa [htyped, hnetworks, ← attachmentsOf_perm hperm]

end Transfer

/-! ## Topologies that agree -/

/-- The keys that the canonical topology sets. -/
def Covers (t : Json) (us : List (String × Json)) : Prop :=
  ["limits", "loopPolicy", "requiredFeatures", "nodes", "managementAttachments", "edges"] ⊆
      us.map Prod.fst ∧
    ((t.find? "application").isSome → "application" ∈ us.map Prod.fst)

/-- What passes in the first topology passes in the second, with edges and attachments in
some order, and the canonical topology is the same. -/
structure Agree (lib : Platform) (lock t t' : Json) : Prop where
  alike : Alike t t'
  rstp : ∀ key, rstp t' key = rstp t key
  nodes : ∀ head ns, nodesOf lib t lock head = .ok ns → nodesOf lib t' lock head = .ok ns
  edges : ∀ head nodes es, edgesOf t head nodes = .ok es →
    ∃ es', es.Perm es' ∧ edgesOf t' head nodes = .ok es'
  application : ∀ nodes edges app, applicationOf t nodes edges = .ok app →
    applicationOf t' nodes edges = .ok app
  attachments : ∀ nodes edges networks as, attachmentsOf lib t nodes edges networks = .ok as →
    ∃ as', as.Perm as' ∧ attachmentsOf lib t' nodes edges networks = .ok as'
  output : ∀ us, Covers t us → t'.setAll us = t.setAll us

section Agree

variable {lib : Platform} {t t' lock : Json}

theorem covers_updatesOf {x : Parts} (hx : checkAll lib t lock = .ok x) :
    Covers t (updatesOf x) := by
  obtain ⟨-, -, -, -, happlication, -⟩ := checkAll_eq_ok.mp hx
  refine ⟨by intro k hk; simp [updatesOf] at hk ⊢; tauto, fun hsome => ?_⟩
  obtain ⟨_, happ⟩ := Option.isSome_iff_exists.mp hsome
  obtain ⟨-, -, _, _, -, -, -, hset⟩ := (applicationOf_eq_ok happ).mp happlication
  simp [updatesOf, hset]

/-- The edges of an accepted topology have different names. -/
theorem edges_nodup {head : Head} {nodes : List (String × Node)} {es : List Edge}
    (h : edgesOf t head nodes = .ok es) : (es.map Edge.id).Nodup := by
  obtain ⟨_, -, -, h⟩ := edgesOf_eq_ok.mp h
  exact List.pairwise_map.mpr (((collect_eq_ok (edgeOf_checks _ _)).mp h).2.imp And.left)

theorem attachments_nodup {nodes : List (String × Node)} {edges : List Edge} {as : List Attached}
    (h : attachmentsOf lib t nodes edges networks = .ok as) : (as.map Attached.endpoint).Nodup := by
  obtain ⟨_, _, h⟩ := bind_eq_ok.mp h
  exact List.pairwise_map.mpr (((collect_eq_ok (attachmentOf_checks _ _ _ _)).mp h).2.imp And.left)

/-- Topologies that agree have one result. -/
theorem Agree.validate (h : Agree lib lock t t') {out : ValidatedTopology}
    (hout : validate lib t lock = .ok out) : validate lib t' lock = .ok out := by
  obtain ⟨x, hx, rfl⟩ := validate_eq_ok.mp hout
  obtain ⟨-, -, hnodes, hedges, happlication, -, -, hattachments⟩ := checkAll_eq_ok.mp hx
  obtain ⟨es, hes, hedges'⟩ := h.edges _ _ _ hedges
  obtain ⟨as, has, hattachments'⟩ := h.attachments _ _ _ _ hattachments
  let x' : Parts := { x with edges := es, attachments := as }
  have hx' : checkAll lib t' lock = .ok x' :=
    checkAll_transfer h.alike hx rfl rfl rfl hes h.rstp (h.nodes _ _ hnodes) hedges'
      (h.application _ _ _ happlication) hattachments'
  have hsorted : x'.sortedEdges = x.sortedEdges :=
    (sortOn_eq_of_perm hes (edges_nodup hedges)).symm
  have hupdates : updatesOf x' = updatesOf x := by
    have hattached : sortOn Attached.endpoint as = sortOn Attached.endpoint x.attachments :=
      (sortOn_eq_of_perm has (attachments_nodup hattachments)).symm
    simp only [updatesOf, hsorted, x', hattached]
  refine validate_eq_ok.mpr ⟨x', hx', ?_⟩
  have hcanonical : canonicalOf t' x' = canonicalOf t x := by
    rw [canonicalOf, hupdates]
    exact h.output _ (covers_updatesOf hx)
  simp only [outputOf, hcanonical, hsorted]
  rfl

end Agree

/-! ## Defaults of the head -/

section Defaults

variable {lib : Platform} {t t' lock : Json}

theorem Alike.symm (h : Alike t t') : Alike t' t :=
  ⟨h.fields.symm, fun k hk => (h.find k hk).symm, h.features.symm, h.limits.symm, h.loop.symm⟩

/-- Two topologies with the same nodes, edges, flows and attachments. -/
theorem Agree.of_find (halike : Alike t t')
    (hfind : ∀ k ∈ ["nodes", "edges", "application"], t'.find? k = t.find? k)
    (hattachments : (t'.find? "managementAttachments").getD (.array []) =
      (t.find? "managementAttachments").getD (.array []))
    (houtput : ∀ us, Covers t us → t'.setAll us = t.setAll us) : Agree lib lock t t' where
  alike := halike
  rstp key := by simp only [Contracts.rstp, hfind "nodes" (by decide)]
  nodes head ns := by
    simp only [nodesOf, need, hfind "nodes" (by decide)]
    exact fun h => h
  edges head nodes es h := by
    refine ⟨es, .refl _, ?_⟩
    simpa only [edgesOf, need, hfind "edges" (by decide)] using h
  application nodes edges app := by
    simp only [applicationOf, hfind "application" (by decide)]
    exact fun h => h
  attachments nodes edges networks as h := by
    refine ⟨as, .refl _, ?_⟩
    simpa only [attachmentsOf, hattachments] using h
  output := houtput

/-- A key of the head that is written out. -/
theorem agree_default {k : String} {v : Json}
    (hk : k ∈ ["limits", "loopPolicy", "requiredFeatures", "managementAttachments"])
    (halike : Alike t (t.set k v))
    (hattachments : ((t.set k v).find? "managementAttachments").getD (.array []) =
      (t.find? "managementAttachments").getD (.array [])) :
    Agree lib lock t (t.set k v) ∧ Agree lib lock (t.set k v) t := by
  have hapart : ∀ j ∈ ["nodes", "edges", "application"],
      j ∉ ["limits", "loopPolicy", "requiredFeatures", "managementAttachments"] := by
    decide
  have hsub : ["limits", "loopPolicy", "requiredFeatures", "managementAttachments"] ⊆
      ["limits", "loopPolicy", "requiredFeatures", "nodes", "managementAttachments", "edges"] := by
    decide
  have hfind : ∀ j ∈ ["nodes", "edges", "application"], (t.set k v).find? j = t.find? j :=
    fun j hj => Json.find?_set_ne fun heq => hapart j hj (heq ▸ hk)
  have houtput : ∀ us, k ∈ us.map Prod.fst → (t.set k v).setAll us = t.setAll us :=
    fun us => Json.setAll_set
  constructor
  · exact .of_find halike hfind hattachments fun us hus => houtput us (hus.1 (hsub hk))
  · exact .of_find halike.symm (fun j hj => (hfind j hj).symm) hattachments.symm
      fun us hus => (houtput us (hus.1 (hsub hk))).symm

theorem alike_loopPolicy (ht : t.IsObject) (h : t.find? "loopPolicy" = none) :
    Alike t (t.set "loopPolicy" (.string "rstp")) := by
  refine .of_set ht _ (by decide) (by decide) (by simp) (by simp) fun _ => ?_
  simp only [loopPolicyText, Json.find?_set_self ht, h, str]

theorem alike_limits (ht : t.IsObject) (h : t.find? "limits" = none) :
    Alike t (t.set "limits"
      (.object [("maxEdges", .number 8192), ("maxNodes", .number 1024)])) := by
  refine .of_set ht _ (by decide) (by decide) (by simp) (fun _ => ?_) (by simp)
  simp only [limitsOf, Json.find?_set_self ht, h]
  decide

theorem alike_requiredFeatures (ht : t.IsObject) (h : t.find? "requiredFeatures" = none) :
    Alike t (t.set "requiredFeatures" (.array [])) := by
  refine .of_set ht _ (by decide) (by decide) (fun _ => ?_) (by simp) (by simp)
  simp only [features, Json.find?_set_self ht, h]
  decide

end Defaults

/-! ## Lists in another order -/

section Lists

variable (lib : Platform) (lock : Json) {t : Json}

/-- A change of one list leaves what the other checks read. -/
theorem Agree.of_set {k : String} {v : Json} (ht : t.IsObject)
    (hk : k ∈ ["edges", "managementAttachments", "application"])
    (hkept : k = "application" → (t.find? "application").isSome)
    (hedges : ∀ head nodes es, edgesOf t head nodes = .ok es →
      ∃ es', es.Perm es' ∧ edgesOf (t.set k v) head nodes = .ok es')
    (happlication : ∀ nodes edges app, applicationOf t nodes edges = .ok app →
      applicationOf (t.set k v) nodes edges = .ok app)
    (hattachments : ∀ nodes edges networks as, attachmentsOf lib t nodes edges networks = .ok as →
      ∃ as', as.Perm as' ∧ attachmentsOf lib (t.set k v) nodes edges networks = .ok as') :
    Agree lib lock t (t.set k v) := by
  have hnodes : "nodes" ≠ k := by
    rintro rfl
    exact absurd hk (by decide)
  refine ⟨.set ht v (List.mem_cons_of_mem _ (by simpa [or_left_comm] using hk)), fun key => ?_,
    fun head ns => ?_, hedges, happlication, hattachments, fun us hus => Json.setAll_set ?_⟩
  · simp only [Contracts.rstp, Json.find?_set_ne hnodes]
  · simp only [nodesOf, need, Json.find?_set_ne hnodes]
    exact fun h => h
  · simp only [List.mem_cons, List.not_mem_nil, or_false] at hk
    rcases hk with rfl | rfl | rfl
    · exact hus.1 (by decide)
    · exact hus.1 (by decide)
    · exact hus.2 (hkept rfl)

section Same

variable {k : String} {v : Json}

theorem edgesOf_set (h : "edges" ≠ k) {head : Head} {nodes : List (String × Node)} :
    edgesOf (t.set k v) head nodes = edgesOf t head nodes := by
  simp only [edgesOf, need, Json.find?_set_ne h]

theorem applicationOf_set (h : "application" ≠ k) {nodes : List (String × Node)}
    {edges : List Edge} :
    applicationOf (t.set k v) nodes edges = applicationOf t nodes edges := by
  simp only [applicationOf, Json.find?_set_ne h]

theorem attachmentsOf_set {lib : Platform} (h : "managementAttachments" ≠ k)
    {nodes : List (String × Node)} {edges : List Edge} :
    attachmentsOf lib (t.set k v) nodes edges networks =
      attachmentsOf lib t nodes edges networks := by
  simp only [attachmentsOf, Json.find?_set_ne h]

end Same

theorem agree_edges {l l' : List Json} (h : t.find? "edges" = some (.array l))
    (hperm : l.Perm l') : Agree lib lock t (t.set "edges" (.array l')) := by
  have ht := Json.IsObject.of_find? h
  refine .of_set lib lock ht (by decide) (fun heq => absurd heq (by decide)) ?_ ?_ ?_
  · intro head nodes es hes
    obtain ⟨_, hl₀, _, hes⟩ := edgesOf_eq_ok.mp hes
    cases h.symm.trans hl₀
    obtain ⟨es', hes', hcollect⟩ :=
      collect_perm (edgeOf_checks _ _) (fun _ _ => Edge.Apart.symm) hperm hes
    exact ⟨es', hes', edgesOf_eq_ok.mpr
      ⟨l', Json.find?_set_self ht, by rwa [← hperm.length_eq], hcollect⟩⟩
  · intro nodes edges app happ
    rwa [applicationOf_set (by decide)]
  · intro nodes edges networks as has
    exact ⟨as, .refl _, by rwa [attachmentsOf_set (by decide)]⟩

theorem agree_attachments {l l' : List Json}
    (h : t.find? "managementAttachments" = some (.array l)) (hperm : l.Perm l') :
    Agree lib lock t (t.set "managementAttachments" (.array l')) := by
  have ht := Json.IsObject.of_find? h
  refine .of_set lib lock ht (by decide) (fun heq => absurd heq (by decide)) ?_ ?_ ?_
  · intro head nodes es hes
    exact ⟨es, .refl _, by rwa [edgesOf_set (by decide)]⟩
  · intro nodes edges app happ
    rwa [applicationOf_set (by decide)]
  · intro nodes edges networks as has
    simp only [attachmentsOf, h, Json.find?_set_self ht, Option.getD_some, array, ok_bind] at has ⊢
    obtain ⟨as', has', hcollect⟩ :=
      collect_perm (attachmentOf_checks _ _ _ _) (fun _ _ => Attached.Apart.symm) hperm has
    exact ⟨as', has', hcollect⟩

/-- A change within the flows that gives the same canonical flows. -/
theorem agree_application {app : Json} {l l' : List Json}
    (happ : t.find? "application" = some app) (h : app.find? "edges" = some (.array l))
    (hlength : l.length = l'.length)
    (hflows : ∀ nodes edges fs, collect (flowOf nodes edges) l [] = .ok fs →
      ∃ fs', fs.Perm fs' ∧ collect (flowOf nodes edges) l' [] = .ok fs') :
    Agree lib lock t (t.set "application" (app.set "edges" (.array l'))) := by
  have ht := Json.IsObject.of_find? happ
  have happ' := Json.IsObject.of_find? h
  refine .of_set lib lock ht (by decide) (fun _ => by rw [happ]; rfl) ?_ ?_ ?_
  · intro head nodes es hes
    exact ⟨es, .refl _, by rwa [edgesOf_set (by decide)]⟩
  · intro nodes edges out hout
    obtain ⟨hfields, _, _, fs, hl, _, hfs, rfl⟩ := (applicationOf_eq_ok happ).mp hout
    cases h.symm.trans hl
    obtain ⟨fs', hfs', hcollect⟩ := hflows nodes edges fs hfs
    have hdistinct : (fs.map Prod.fst).Nodup :=
      List.pairwise_map.mpr ((collect_eq_ok (flowOf_checks _ _)).mp hfs).2
    refine (applicationOf_eq_ok (Json.find?_set_self ht)).mpr
      ⟨(HasFields.set happ' (by decide) _).mpr hfields, ?_, l', fs', Json.find?_set_self happ', ?_,
        hcollect, ?_⟩
    · rwa [Json.find?_set_ne (by decide)]
    · rwa [← hlength]
    · rw [Json.set_set, ← sortOn_eq_of_perm hfs' hdistinct]
  · intro nodes edges networks as has
    exact ⟨as, .refl _, by rwa [attachmentsOf_set (by decide)]⟩

theorem agree_flows {app : Json} {l l' : List Json} (happ : t.find? "application" = some app)
    (h : app.find? "edges" = some (.array l)) (hperm : l.Perm l') :
    Agree lib lock t (t.set "application" (app.set "edges" (.array l'))) :=
  agree_application lib lock happ h hperm.length_eq fun _ _ _ hfs =>
    collect_perm (flowOf_checks _ _) (fun _ _ hne heq => hne heq.symm) hperm hfs

/-- The data edges of a flow in another order. -/
theorem FlowOk.perm {nodes : List (String × Node)} {edges : List Edge} {flow : Json}
    {x : String × Json} {r' : List Json} (hx : FlowOk nodes edges flow x)
    (h : flow.find? "networkEdges" = some (.array r)) (hperm : r.Perm r') :
    FlowOk nodes edges (flow.set "networkEdges" (.array r')) x := by
  have hflow := Json.IsObject.of_find? h
  have hne : ∀ {k}, k ≠ "networkEdges" →
      (flow.set "networkEdges" (.array r')).find? k = flow.find? k :=
    fun hk => Json.find?_set_ne hk
  obtain ⟨_, links, hrefs, hfew, hlinks, hcanonical⟩ := hx.links
  cases hrefs.symm.trans h
  obtain ⟨links', hlinks', hcollect⟩ :=
    collect_perm (linkOf_checks _ _) (fun _ _ hne heq => hne heq.symm) hperm hlinks
  have hdistinct : (links.map fun s => s).Nodup := by
    rw [List.map_id']
    exact ((collect_eq_ok (linkOf_checks _ _)).mp hlinks).2
  refine ⟨(HasFields.set hflow (by decide) _).mpr hx.fields, ?_, hx.name, ?_, ?_, ?_⟩
  · rw [hne (by decide)]
    exact hx.key
  · have := hx.ends
    simp only [each, flowNode, getstr, need, hne (show "source" ≠ "networkEdges" by decide),
      hne (show "target" ≠ "networkEdges" by decide)] at this ⊢
    exact this
  · have := hx.protocol
    simp only [protocolCheck, hne (show "protocol" ≠ "networkEdges" by decide)] at this ⊢
    exact this
  · refine ⟨r', links', Json.find?_set_self hflow, hperm.length_eq ▸ hfew, hcollect, ?_⟩
    rw [hcanonical, Json.set_set, linksJson, linksJson, sortOn_eq_of_perm hlinks' hdistinct]

theorem agree_links {app flow : Json} {pre post r' : List Json}
    (happ : t.find? "application" = some app)
    (hflow : app.find? "edges" = some (.array (pre ++ flow :: post)))
    (h : flow.find? "networkEdges" = some (.array r)) (hperm : r.Perm r') :
    Agree lib lock t (t.set "application" (app.set "edges"
      (.array (pre ++ flow.set "networkEdges" (.array r') :: post)))) := by
  refine agree_application lib lock happ hflow (by simp) fun nodes edges fs hfs => ⟨fs, .refl _, ?_⟩
  refine (collect_replace (fun done b => ?_) pre post).mp hfs
  rw [flowOf_checks nodes edges done, flowOf_checks nodes edges done]
  refine and_congr_left fun _ => ⟨fun hb => hb.perm h hperm, fun hb => ?_⟩
  have hobject := Json.IsObject.of_find? h
  have hback := hb.perm (Json.find?_set_self hobject) hperm.symm
  rwa [Json.set_set, Json.set_same h] at hback

end Lists

/-! ## Ports -/

/-- Where the first port passes, the second does, with one result and one canonical form. -/
def PortAlike (v v' : Json) : Prop :=
  ∀ lock kind workload p name y, portOf lock kind workload p (name, v) = .ok y →
    portOf lock kind workload p (name, v') = .ok y ∧ canonicalPort v' y.2 = canonicalPort v y.2

section Ports

variable {lib : Platform} {lock : Json}

/-- The ports pass, and the canonical ports do not change, when one port is replaced by one that is
alike. -/
theorem ports_replace {name : String} {v v' : Json} {kind : Kind} {workload p : String}
    (h : PortAlike v v') {pre post : List (String × Json)} {ports : List (String × Port)}
    (hports : List.Forall₂ (fun f y => portOf lock kind workload p f = .ok y)
      (pre ++ (name, v) :: post) ports) :
    List.Forall₂ (fun f y => portOf lock kind workload p f = .ok y)
        (pre ++ (name, v') :: post) ports ∧
      List.zipWith (fun f g => (f.1, canonicalPort f.2 g.2)) (pre ++ (name, v') :: post) ports =
        List.zipWith (fun f g => (f.1, canonicalPort f.2 g.2)) (pre ++ (name, v) :: post) ports := by
  induction pre generalizing ports with
  | nil =>
    cases hports with
    | cons hy hrest =>
      obtain ⟨hy', hsame⟩ := h _ _ _ _ _ _ hy
      exact ⟨.cons hy' hrest, by simp [hsame]⟩
  | cons f pre ih =>
    cases hports with
    | cons hy hrest => exact ⟨.cons hy (ih hrest).1, by simp [(ih hrest).2]⟩

theorem portOf_checks (kind : Kind) (workload p : String) :
    Checks (fun _ => portOf lock kind workload p)
      (fun f y => portOf lock kind workload p f = .ok y) (fun _ _ => True) := by
  intro done f y
  simp

/-- A key of an object, and the object with another value there. -/
theorem set_split {ports v : Json} {name : String} (h : ports.find? name = some v) (v' : Json) :
    ∃ pre post, ports = .object (pre ++ (name, v) :: post) ∧
      ports.set name v' = .object (pre ++ (name, v') :: post) := by
  obtain ⟨_, rfl⟩ := Json.IsObject.of_find? h
  rw [Json.find?_object] at h
  obtain ⟨pre, post, rfl, hpre⟩ := lookup_eq_some.mp h
  refine ⟨pre, post, rfl, ?_⟩
  rw [Json.set, Json.setField_of_mem (by simp), Json.replaceField_split hpre]

/-- What a node must have by its kind is not among its ports. -/
theorem kindCheck_setPorts (kind : Kind) (n ports : Json) (p : String) :
    kindCheck lock kind (n.set "ports" ports) p = kindCheck lock kind n p := by
  have hne : ∀ {k}, k ≠ "ports" → (n.set "ports" ports).find? k = n.find? k :=
    fun hk => Json.find?_set_ne hk
  cases kind <;>
    simp only [kindCheck, switchPolicy, workloadOf, getstr, need,
      hne (show "workload" ≠ "ports" by decide), hne (show "addresses" ≠ "ports" by decide),
      hne (show "policy" ≠ "ports" by decide)]

/-- The ports of a node that passes, and what the node is with others that pass with one result. -/
theorem nodeOf_setPorts {key : String} {n : Json} {z : String × Node × Json}
    (h : nodeOf lib lock (key, n) = .ok z) :
    ∃ raw, n.find? "ports" = some (.object raw) ∧ z.1 = key ∧
      z.2.2 = canonicalNode n raw z.2.1.ports ∧
      let passes := List.Forall₂ fun f y =>
        portOf lock z.2.1.kind z.2.1.workload ("nodes." ++ key) f = .ok y
      passes raw z.2.1.ports ∧ ∀ raw', passes raw' z.2.1.ports →
        List.zipWith (fun f g => (f.1, canonicalPort f.2 g.2)) raw' z.2.1.ports =
          List.zipWith (fun f g => (f.1, canonicalPort f.2 g.2)) raw z.2.1.ports →
        nodeOf lib lock (key, n.set "ports" (.object raw')) = .ok z := by
  simp only [nodeOf, bind_eq_ok, fields_eq_ok, getstr_eq_ok, need_eq_ok, object_eq_ok,
    collect_eq_ok (portOf_checks _ _ _), List.pairwise_of_forall fun _ _ => trivial, and_true] at h ⊢
  obtain ⟨_, hname, _, hfields, text, htext, kind, hkind, workload, hworkload, _, hraw, raw, rfl,
    ports, hports, h⟩ := h
  have hz : z = (key, { kind, workload, ports }, canonicalNode n raw ports) := by
    split at h
    · obtain ⟨_, _, h⟩ := bind_eq_ok.mp h
      obtain ⟨_, _, h⟩ := bind_eq_ok.mp h
      exact (pure_eq_ok.mp h).symm
    · obtain ⟨_, _, h⟩ := bind_eq_ok.mp h
      exact (pure_eq_ok.mp h).symm
  subst hz
  have hn := Json.IsObject.of_find? hraw
  refine ⟨raw, hraw, rfl, rfl, hports, fun raw' hports' hsame => ?_⟩
  have hne : ∀ {k}, k ≠ "ports" → (n.set "ports" (.object raw')).find? k = n.find? k :=
    fun hk => Json.find?_set_ne hk
  refine ⟨(), hname, (), (HasFields.set hn (by decide) _).mpr hfields, text,
    by rwa [hne (by decide)], kind, hkind, workload, (kindCheck_setPorts kind n _ _).trans hworkload,
    _, Json.find?_set_self hn, raw', rfl, ports, hports', ?_⟩
  -- required interfaces and addresses are checked against the same ports
  simp only [addressesCheck, hne (show "addresses" ≠ "ports" by decide), canonicalNode,
    Json.set_set, hsame] at h ⊢
  exact h

/-- A node with one port replaced. -/
theorem nodeOf_setPort {key name : String} {n ports v v' : Json} (hports : n.find? "ports" = some ports)
    (hv : ports.find? name = some v) (h : PortAlike v v')
    {z : String × Node × Json} (hz : nodeOf lib lock (key, n) = .ok z) :
    nodeOf lib lock (key, n.set "ports" (ports.set name v')) = .ok z := by
  obtain ⟨_, hraw, -, -, hpass, hothers⟩ := nodeOf_setPorts hz
  obtain ⟨_, _, hsplit, hset⟩ := set_split hv v'
  cases hports.symm.trans hraw
  cases hsplit
  rw [hset]
  exact hothers _ (ports_replace h hpass).1 (ports_replace h hpass).2

theorem nodeOf_checks :
    Checks (fun _ => nodeOf lib lock) (fun f y => nodeOf lib lock f = .ok y) (fun _ _ => True) := by
  intro done f y
  simp

variable {t nodes n ports v v' : Json} {key name : String}

/-- The port of a changed topology. -/
theorem PortAt.set (h : PortAt t nodes key n ports name v) (v' : Json) :
    PortAt (setPort t nodes key n ports name v') (nodes.set key (n.set "ports" (ports.set name v')))
      key (n.set "ports" (ports.set name v')) (ports.set name v') name v' where
  ofNodes := Json.find?_set_self (.of_find? h.ofNodes)
  ofNode := Json.find?_set_self (.of_find? h.ofNode)
  ofPorts := Json.find?_set_self (.of_find? h.ofPorts)
  ofPort := Json.find?_set_self (.of_find? h.ofPort)

/-- Setting a port back. -/
theorem PortAt.setPort_back (h : PortAt t nodes key n ports name v) (v' : Json) :
    setPort (setPort t nodes key n ports name v')
      (nodes.set key (n.set "ports" (ports.set name v')))
      key (n.set "ports" (ports.set name v')) (ports.set name v') name v = t := by
  rw [setPort, setPort, Json.set_set, Json.set_set, Json.set_set, Json.set_set,
    Json.set_same h.ofPort, Json.set_same h.ofPorts, Json.set_same h.ofNode,
    Json.set_same h.ofNodes]

theorem agree_setPort (lib : Platform) (lock : Json) (hport : PortAt t nodes key n ports name v) (h : PortAlike v v')
    (h' : PortAlike v' v) : Agree lib lock t (setPort t nodes key n ports name v') := by
  have ht := Json.IsObject.of_find? hport.ofNodes
  have hnode := Json.IsObject.of_find? hport.ofNode
  refine ⟨.set ht _ (by decide), fun k => ?_, fun head ns hns => ?_, fun head ns es hes => ?_,
    fun ns es app happ => ?_, fun ns es networks as has => ?_,
    fun us hus => Json.setAll_set (hus.1 (by decide))⟩
  · rw [Contracts.rstp, Contracts.rstp, setPort, Json.find?_set_self ht, hport.ofNodes,
      Option.bind_some, Option.bind_some]
    by_cases hk : k = key
    · rw [hk, Json.find?_set_self hnode, hport.ofNode, Option.bind_some, Option.bind_some,
        Json.find?_set_ne (by decide)]
    · rw [Json.find?_set_ne hk]
  · obtain ⟨pre, post, hraw, hraw'⟩ := set_split hport.ofNode (n.set "ports" (ports.set name v'))
    simp only [nodesOf, need, setPort, Json.find?_set_self ht, hport.ofNodes, hraw', ok_bind,
      object, bind_eq_ok, ensure_eq_ok] at hns ⊢
    rw [hraw] at hns
    simp only [Except.ok.injEq, exists_eq_left'] at hns ⊢
    obtain ⟨_, hfew, hns⟩ := hns
    refine ⟨(), ?_, ?_⟩
    · simpa using hfew
    · refine (collect_replace (fun done z => ⟨fun hz => ?_, fun hz => ?_⟩) pre post).mp hns
      · exact nodeOf_setPort hport.ofPorts hport.ofPort h hz
      · have hback := nodeOf_setPort (hport.set v').ofPorts (hport.set v').ofPort h' hz
        rwa [Json.set_set, Json.set_set, Json.set_same hport.ofPort, Json.set_same hport.ofPorts]
          at hback
  · exact ⟨es, .refl _, by rwa [setPort, edgesOf_set (by decide)]⟩
  · rwa [setPort, applicationOf_set (by decide)]
  · exact ⟨as, .refl _, by rwa [setPort, attachmentsOf_set (by decide)]⟩

end Ports

/-! ## Defaults and trunks of a port -/

section PortSteps

variable {lock v v' : Json} {kind : Kind} {workload p name : String} {y : String × Port}

/-- A port passes by what its checks read. -/
theorem portOf_congr
    (hfields : HasFields v' ["role", "medium", "mtu", "vlan"] ↔
      HasFields v ["role", "medium", "mtu", "vlan"])
    (hrole : v'.find? "role" = v.find? "role")
    (hmedium : mediumOf v' (p ++ ".ports." ++ name) = mediumOf v (p ++ ".ports." ++ name))
    (hmtu : mtuOf v' (p ++ ".ports." ++ name) = mtuOf v (p ++ ".ports." ++ name))
    (hvlan : ∀ o, vlanOf kind v' (p ++ ".ports." ++ name) = .ok o ↔
      vlanOf kind v (p ++ ".ports." ++ name) = .ok o) :
    portOf lock kind workload p (name, v') = .ok y ↔
      portOf lock kind workload p (name, v) = .ok y := by
  simp only [portOf, bind_eq_ok, fields_eq_ok, getstr_eq_ok, hfields, hrole, hmedium, hmtu, hvlan]

/-- What is read of a port that passes. -/
theorem portOf_ok (h : portOf lock kind workload p (name, v) = .ok y) :
    y.1 = name ∧ v.IsObject ∧ mediumOf v (p ++ ".ports." ++ name) = .ok y.2.medium ∧
      mtuOf v (p ++ ".ports." ++ name) = .ok y.2.mtu ∧
      vlanOf kind v (p ++ ".ports." ++ name) = .ok y.2.vlan := by
  simp only [portOf, bind_eq_ok, fields_eq_ok, pure_eq_ok] at h
  obtain ⟨_, _, _, ⟨fs, hfs, -⟩, _, _, _, _, _, _, _, hmedium, _, _, _, hmtu, _, hvlan, _, _, rfl⟩ := h
  exact ⟨rfl, ⟨fs, hfs⟩, hmedium, hmtu, hvlan⟩

/-- Two ports of which the checks read the same are alike. -/
theorem portAlike_of_congr
    (hfields : HasFields v' ["role", "medium", "mtu", "vlan"] ↔
      HasFields v ["role", "medium", "mtu", "vlan"])
    (hrole : v'.find? "role" = v.find? "role") (hmedium : ∀ q, mediumOf v' q = mediumOf v q)
    (hmtu : ∀ q, mtuOf v' q = mtuOf v q)
    (hvlan : ∀ kind q o, vlanOf kind v' q = .ok o ↔ vlanOf kind v q = .ok o)
    (hcanonical : ∀ kind q (port : Port), vlanOf kind v q = .ok port.vlan →
      canonicalPort v' port = canonicalPort v port) :
    PortAlike v v' ∧ PortAlike v' v := by
  have hiff : ∀ {lock kind workload p name y}, portOf lock kind workload p (name, v') = .ok y ↔
      portOf lock kind workload p (name, v) = .ok y :=
    portOf_congr hfields hrole (hmedium _) (hmtu _) (hvlan _ _)
  have hsame : ∀ {lock kind workload p name y}, portOf lock kind workload p (name, v) = .ok y →
      canonicalPort v' y.2 = canonicalPort v y.2 := by
    intro lock kind workload p name y hy
    obtain ⟨-, -, -, -, hy⟩ := portOf_ok hy
    exact hcanonical _ _ _ hy
  exact ⟨fun _ _ _ _ _ y hy => ⟨hiff.mpr hy, hsame hy⟩,
    fun _ _ _ _ _ y hy => ⟨hiff.mp hy, (hsame (hiff.mp hy)).symm⟩⟩

theorem canonicalPort_set_medium (w : Json) (y : Port) :
    canonicalPort (v.set "medium" w) y = canonicalPort v y := by
  simp only [canonicalPort, Json.set_set]

theorem canonicalPort_set_mtu (w : Json) (y : Port) :
    canonicalPort (v.set "mtu" w) y = canonicalPort v y := by
  simp only [canonicalPort, Json.set_comm (show "medium" ≠ "mtu" by decide), Json.set_set]

theorem canonicalPort_set_vlan (w : Json) {y : Port} (hy : y.vlan ≠ none) :
    canonicalPort (v.set "vlan" w) y = canonicalPort v y := by
  obtain ⟨vlan, hvlan⟩ := Option.ne_none_iff_exists'.mp hy
  simp only [canonicalPort, hvlan]
  rw [Json.set_comm (show "medium" ≠ "vlan" by decide), Json.set_comm (show "mtu" ≠ "vlan" by decide),
    Json.set_set]

theorem portAlike_medium (hv : v.IsObject) (h : v.find? "medium" = none) :
    PortAlike v (v.set "medium" (.string "ethernet")) ∧
      PortAlike (v.set "medium" (.string "ethernet")) v := by
  refine portAlike_of_congr (HasFields.set hv (by decide) _) (Json.find?_set_ne (by decide)) ?_ ?_ ?_
    fun _ _ _ _ => canonicalPort_set_medium _ _
  · intro q
    simp only [mediumOf, Json.find?_set_self hv, h, str]
  · intro q
    simp only [mtuOf, Json.find?_set_ne (show "mtu" ≠ "medium" by decide)]
  · intro kind q o
    simp only [vlanOf, Json.find?_set_ne (show "vlan" ≠ "medium" by decide)]

theorem portAlike_mtu (hv : v.IsObject) (h : v.find? "mtu" = none) :
    PortAlike v (v.set "mtu" (.number 1500)) ∧ PortAlike (v.set "mtu" (.number 1500)) v := by
  refine portAlike_of_congr (HasFields.set hv (by decide) _) (Json.find?_set_ne (by decide)) ?_ ?_ ?_
    fun _ _ _ _ => canonicalPort_set_mtu _ _
  · intro q
    simp only [mediumOf, Json.find?_set_ne (show "medium" ≠ "mtu" by decide)]
  · intro q
    simp only [mtuOf, Json.find?_set_self hv, h]
    rfl
  · intro kind q o
    simp only [vlanOf, Json.find?_set_ne (show "vlan" ≠ "mtu" by decide)]

/-- A policy that passes and has a trunk has nothing else. -/
theorem vlanPolicy_trunk {vlan o : Json} {q : String} (h : vlan.find? "trunk" = some (.array r)) :
    vlanPolicy vlan q = .ok o ↔ vlan = .object [("trunk", .array r)] ∧
      ∃ ids, collect (vlanId q) r [] = .ok ids ∧ ids ≠ [] ∧
        o = .object [("trunk", .array ((sortOn (fun n => n) ids).map .number))] := by
  constructor
  · intro hpolicy
    simp only [vlanPolicy, bind_eq_ok, object_eq_ok, ensure_eq_ok, beq_iff_eq] at hpolicy
    obtain ⟨_, _, _, rfl, _, hone, hpolicy⟩ := hpolicy
    obtain ⟨f, rfl⟩ := List.length_eq_one_iff.mp hone
    obtain ⟨pre, post, heq, -⟩ := lookup_eq_some.mp h
    obtain ⟨rfl, rfl, rfl⟩ : pre = [] ∧ f = ("trunk", .array r) ∧ post = [] := by
      cases pre with
      | nil => simpa using heq
      | cons => simp at heq
    refine ⟨rfl, ?_⟩
    obtain ⟨_, htrunk, hpolicy⟩ := bind_eq_ok.mp hpolicy
    cases array_eq_ok.mp htrunk
    obtain ⟨ids, hids, hrest⟩ := bind_eq_ok.mp hpolicy
    obtain ⟨_, hne, hresult⟩ := bind_eq_ok.mp hrest
    refine ⟨ids, hids, by simpa using hne, ?_⟩
    rw [← pure_eq_ok.mp hresult]
    rfl
  · rintro ⟨rfl, ids, hids, hne, rfl⟩
    rw [vlanPolicy]
    refine bind_eq_ok.mpr ⟨(), fields_eq_ok.mpr ⟨_, rfl, by simp⟩, ?_⟩
    refine bind_eq_ok.mpr ⟨_, rfl, ?_⟩
    refine bind_eq_ok.mpr ⟨(), rfl, ?_⟩
    refine bind_eq_ok.mpr ⟨r, rfl, ?_⟩
    refine bind_eq_ok.mpr ⟨ids, hids, ?_⟩
    refine bind_eq_ok.mpr ⟨(), ensure_eq_ok.mpr (by simpa using hne), rfl⟩

theorem vlanPolicy_perm {vlan o : Json} {r' : List Json} {q : String}
    (h : vlan.find? "trunk" = some (.array r)) (hperm : r.Perm r')
    (hpolicy : vlanPolicy vlan q = .ok o) :
    vlanPolicy (vlan.set "trunk" (.array r')) q = .ok o := by
  obtain ⟨rfl, ids, hids, hne, rfl⟩ := (vlanPolicy_trunk h).mp hpolicy
  obtain ⟨ids', hids', hcollect⟩ :=
    collect_perm (vlanId_checks q) (fun _ _ hne heq => hne heq.symm) hperm hids
  have hdistinct : (ids.map fun n => n).Nodup := by
    rw [List.map_id']
    exact ((collect_eq_ok (vlanId_checks q)).mp hids).2
  refine (vlanPolicy_trunk rfl).mpr ⟨rfl, ids', hcollect, ?_, ?_⟩
  · rintro rfl
    exact hne (List.perm_nil.mp hids')
  · rw [sortOn_eq_of_perm hids' hdistinct]

theorem portAlike_trunk {vlan : Json} {r' : List Json} (hvlan : v.find? "vlan" = some vlan)
    (h : vlan.find? "trunk" = some (.array r)) (hperm : r.Perm r') :
    PortAlike v (v.set "vlan" (vlan.set "trunk" (.array r'))) ∧
      PortAlike (v.set "vlan" (vlan.set "trunk" (.array r'))) v := by
  have hv := Json.IsObject.of_find? hvlan
  have hobject := Json.IsObject.of_find? h
  have hpolicy : ∀ q o, vlanPolicy (vlan.set "trunk" (.array r')) q = .ok o ↔
      vlanPolicy vlan q = .ok o := by
    refine fun q o => ⟨fun ho => ?_, vlanPolicy_perm h hperm⟩
    have hback := vlanPolicy_perm (Json.find?_set_self hobject) hperm.symm ho
    rwa [Json.set_set, Json.set_same h] at hback
  refine portAlike_of_congr (HasFields.set hv (by decide) _) (Json.find?_set_ne (by decide)) ?_ ?_ ?_ ?_
  · intro q
    simp only [mediumOf, Json.find?_set_ne (show "medium" ≠ "vlan" by decide)]
  · intro q
    simp only [mtuOf, Json.find?_set_ne (show "mtu" ≠ "vlan" by decide)]
  · intro kind q o
    simp only [vlanOf, Json.find?_set_self hv, hvlan, bind_eq_ok, hpolicy]
  · intro kind q port hq
    refine canonicalPort_set_vlan _ fun hnone => ?_
    simp only [vlanOf, hvlan, hnone, bind_eq_ok, pure_eq_ok] at hq
    obtain ⟨_, _, _, _, hq⟩ := hq
    cases hq

end PortSteps

/-! ## All changes -/

section Steps

variable {lib : Platform} {lock t t' : Json}

/-- A port is changed, or changed back. -/
theorem agree_port {nodes n ports v v' : Json} {key name : String}
    (hport : PortAt t nodes key n ports name v) (h : PortAlike v v' ∧ PortAlike v' v) :
    Agree lib lock t (setPort t nodes key n ports name v') ∧
      Agree lib lock (setPort t nodes key n ports name v') t := by
  refine ⟨agree_setPort lib lock hport h.1 h.2, ?_⟩
  have hback := agree_setPort lib lock (hport.set v') h.2 h.1
  rwa [hport.setPort_back] at hback

/-- One change leaves what passes, and so does taking it back. -/
theorem Step.agree (h : Step t t') : Agree lib lock t t' ∧ Agree lib lock t' t := by
  cases h with
  | edges h hperm =>
    refine ⟨agree_edges lib lock h hperm, ?_⟩
    have hback := agree_edges lib lock (Json.find?_set_self (.of_find? h)) hperm.symm
    rwa [Json.set_set, Json.set_same h] at hback
  | attachments h hperm =>
    refine ⟨agree_attachments lib lock h hperm, ?_⟩
    have hback := agree_attachments lib lock (Json.find?_set_self (.of_find? h)) hperm.symm
    rwa [Json.set_set, Json.set_same h] at hback
  | flows happ h hperm =>
    refine ⟨agree_flows lib lock happ h hperm, ?_⟩
    have hback := agree_flows lib lock (Json.find?_set_self (.of_find? happ))
      (Json.find?_set_self (.of_find? h)) hperm.symm
    rwa [Json.set_set, Json.set_set, Json.set_same h, Json.set_same happ] at hback
  | @links app flow pre post r r' happ hflow h hperm =>
    refine ⟨agree_links lib lock happ hflow h hperm, ?_⟩
    have hedges : (app.set "edges" (.array (pre ++ flow.set "networkEdges" (.array r') ::
        post))).find? "edges" = some (.array (pre ++ flow.set "networkEdges" (.array r') :: post)) :=
      Json.find?_set_self (.of_find? hflow)
    have hback := agree_links lib lock (Json.find?_set_self (.of_find? happ)) hedges
      (Json.find?_set_self (.of_find? h)) hperm.symm
    rwa [Json.set_set, Json.set_set, Json.set_set, Json.set_same h, Json.set_same hflow,
      Json.set_same happ] at hback
  | trunk hport hvlan h hperm => exact agree_port hport (portAlike_trunk hvlan h hperm)
  | medium hv hport h => exact agree_port hport (portAlike_medium hv h)
  | mtu hv hport h => exact agree_port hport (portAlike_mtu hv h)
  | loopPolicy ht h =>
    exact agree_default (by decide) (alike_loopPolicy ht h)
      (by rw [Json.find?_set_ne (by decide)])
  | limits ht h =>
    exact agree_default (by decide) (alike_limits ht h) (by rw [Json.find?_set_ne (by decide)])
  | requiredFeatures ht h =>
    exact agree_default (by decide) (alike_requiredFeatures ht h)
      (by rw [Json.find?_set_ne (by decide)])
  | managementAttachments ht h =>
    exact agree_default (by decide) (.set ht _ (by decide))
      (by rw [Json.find?_set_self ht, h]; rfl)

/-- Topologies that differ in changes and changes taken back have one result. -/
theorem validate_variants (h : Relation.EqvGen Step t t') (out : ValidatedTopology) :
    validate lib t lock = .ok out ↔ validate lib t' lock = .ok out := by
  induction h with
  | rel t t' h => exact ⟨h.agree.1.validate, h.agree.2.validate⟩
  | refl => exact Iff.rfl
  | symm t t' _ ih => exact ih.symm
  | trans t t' t'' _ _ ih ih' => exact ih.trans ih'

end Steps

end Graphlab.Contracts
