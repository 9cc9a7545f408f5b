import Graphlab.Planner.Plan
import Graphlab.Contracts.Canonical

/-!
# The order of a plan

The source adds its steps in an order that has every dependency before the step, and gives
them different keys.  So Kahn's algorithm returns all of them, and what a plan must put
before what follows from the dependencies.

## Main results

* `Key`, `Key.text_injective` — the keys of steps.
* `Complete` — what the planner needs of a topology; `complete_of_validate`.
* `planOf_ok` — the plan of such a topology.
-/

namespace Graphlab.Planner

open Lib
open Contracts (Platform ValidatedTopology Node Kind Edge Error validate nodeName)
open Std (TreeMap)

/-! ## Keys -/

/-- What a step is about. -/
inductive Key
  | preflight | management (name : String) | node (name : String) | edge (name : String) | policy
  | guest (name : String) | capture (name : String) | barrier | enableData | converge
  | release (name : String) | health (name : String) | ready

def Key.text : Key → String
  | .preflight => "preflight"
  | .management name => "management/" ++ name
  | .node name => "node/" ++ name
  | .edge name => "edge/" ++ name
  | .policy => "policy"
  | .guest name => "guest/" ++ name ++ "/paused"
  | .capture name => "capture/" ++ name
  | .barrier => "capture-barrier"
  | .enableData => "enable-data"
  | .converge => "converge"
  | .release name => "release/" ++ name
  | .health name => "health/" ++ name
  | .ready => "ready"

/-- No two steps share a key, whatever the names are. -/
theorem Key.text_injective : Function.Injective Key.text := by
  intro a b h
  have h := congrArg String.toList h
  cases a <;> cases b <;> simp [Key.text, String.toList_append] at h ⊢ <;>
    exact String.toList_injective h

/-! ## Topologies with a plan -/

/-- What the planner needs of a topology: different names, and no name that is not declared. -/
structure Complete (t : ValidatedTopology) : Prop where
  networkNames : ((networks t).map Prod.fst).Nodup
  nodeNames : (t.nodes.map Prod.fst).Nodup
  edgeNames : (t.edges.map Edge.id).Nodup
  ends : ∀ e ∈ t.edges,
    nodeName e.first ∈ t.nodes.map Prod.fst ∧ nodeName e.second ∈ t.nodes.map Prod.fst
  attached : ∀ a ∈ (member t.canonical "managementAttachments").elements,
    textOf a "network" ∈ (networks t).map Prod.fst

/-- The keys in the order in which the source adds them, those of one kind together. -/
def keyBlocks (t : ValidatedTopology) : List (List Key) :=
  [[.preflight], (networks t).map fun f => .management f.1, t.nodes.map fun f => .node f.1,
    t.edges.map fun e => .edge e.id, [.policy], (guests t).map fun f => .guest f.1,
    t.edges.map fun e => .capture e.id, [.barrier], [.enableData], [.converge],
    (workloads t).flatMap fun f => [.release f.1, .health f.1], [.ready]]

/-- The block that a key stands in. -/
def Key.block : Key → ℕ
  | .preflight => 0
  | .management _ => 1
  | .node _ => 2
  | .edge _ => 3
  | .policy => 4
  | .guest _ => 5
  | .capture _ => 6
  | .barrier => 7
  | .enableData => 8
  | .converge => 9
  | .release _ => 10
  | .health _ => 10
  | .ready => 11

variable {β : Type}

section Raw

variable {t : ValidatedTopology}

theorem rawSteps_id (t : ValidatedTopology) :
    (rawSteps t).map Step.id = (keyBlocks t).flatten.map Key.text := by
  simp [rawSteps, keyBlocks, preparation, armed, preflight, policyStep, barrierStep, enableStep,
    convergeStep, readyStep, managementStep, nodeStep, edgeStep, guestStep, captureStep,
    releaseStep, healthStep, step, Key.text, List.map_flatMap, Function.comp_def]

theorem keyBlocks_block (t : ValidatedTopology) :
    List.Forall₂ (fun b n => ∀ k ∈ b, Key.block k = n) (keyBlocks t) (List.range 12) := by
  have hreleases : ∀ k ∈ (workloads t).flatMap fun f => [Key.release f.1, .health f.1],
      k.block = 10 := by
    intro k hk
    obtain ⟨_, -, hk⟩ := List.mem_flatMap.mp hk
    rcases List.mem_pair.mp hk with rfl | rfl <;> rfl
  rw [keyBlocks, show List.range 12 = [0, 1, 2, 3, 4, 5, 6, 7, 8, 9, 10, 11] from rfl]
  have hone : ∀ {k : Key} {n : ℕ}, k.block = n → ∀ j ∈ [k], j.block = n :=
    fun h j hj => List.mem_singleton.mp hj ▸ h
  have hmap : ∀ {β : Type} {l : List β} {key : β → Key} {n : ℕ}, (∀ x, (key x).block = n) →
      ∀ k ∈ l.map key, k.block = n :=
    fun h => List.forall_mem_map.mpr fun x _ => h x
  exact .cons (hone rfl) <| .cons (hmap fun _ => rfl) <| .cons (hmap fun _ => rfl) <|
    .cons (hmap fun _ => rfl) <| .cons (hone rfl) <| .cons (hmap fun _ => rfl) <|
    .cons (hmap fun _ => rfl) <| .cons (hone rfl) <| .cons (hone rfl) <| .cons (hone rfl) <|
    .cons hreleases <| .cons (hone rfl) .nil

theorem disjoint_of_block {bs : List (List Key)} {ns : List ℕ}
    (h : List.Forall₂ (fun b n => ∀ k ∈ b, Key.block k = n) bs ns) (hns : ns.Nodup) :
    bs.Pairwise List.Disjoint := by
  induction h with
  | nil => exact .nil
  | @cons b n bs ns hb hbs ih =>
    rw [List.nodup_cons] at hns
    refine .cons (fun b' hb' k hk hk' => hns.1 ?_) (ih hns.2)
    obtain ⟨_, _, hblock⟩ := exists_of_mem_left hbs hb'
    rwa [← hb k hk, hblock k hk']

/-- Keys of one kind for different names. -/
theorem nodup_map_key {l : List β} {name : β → String} (h : (l.map name).Nodup) {key : String → Key}
    (hkey : Function.Injective key) : (l.map fun x => key (name x)).Nodup := by
  have := h.map hkey
  rwa [List.map_map] at this

theorem rawSteps_nodup (h : Complete t) : ((rawSteps t).map Step.id).Nodup := by
  rw [rawSteps_id]
  refine List.Nodup.map Key.text_injective ?_
  refine List.nodup_flatten.mpr ⟨?_, disjoint_of_block (keyBlocks_block t) List.nodup_range⟩
  have hsub : ∀ p : String × Node → Bool, ((t.nodes.filter p).map Prod.fst).Nodup :=
    fun p => h.nodeNames.sublist (List.filter_sublist.map _)
  have hguests : ((guests t).map fun f => Key.guest f.1).Nodup :=
    nodup_map_key (hsub _) fun a b h => by injection h
  have hnetworks : ((networks t).map fun f => Key.management f.1).Nodup :=
    nodup_map_key h.networkNames fun a b h => by injection h
  have hnodes : (t.nodes.map fun f => Key.node f.1).Nodup :=
    nodup_map_key h.nodeNames fun a b h => by injection h
  have hedges : (t.edges.map fun e => Key.edge e.id).Nodup :=
    nodup_map_key h.edgeNames fun a b h => by injection h
  have hcaptures : (t.edges.map fun e => Key.capture e.id).Nodup :=
    nodup_map_key h.edgeNames fun a b h => by injection h
  have hreleases : ((workloads t).flatMap fun f => [Key.release f.1, .health f.1]).Nodup := by
    refine List.nodup_flatMap.mpr ⟨by simp, ?_⟩
    have hpair : (workloads t).Pairwise fun f g => f.1 ≠ g.1 := List.pairwise_map.mp (hsub _)
    exact hpair.imp fun hne => by simpa [Function.onFun] using Ne.symm hne
  simp only [keyBlocks, List.forall_mem_cons, List.nodup_singleton, hnetworks, hnodes, hedges,
    hguests, hcaptures, hreleases, true_and, List.not_mem_nil, false_implies, implies_true]

/-! ## The map of steps -/

theorem foldl_insert_getElem? {raw : List Step} (h : (raw.map Step.id).Nodup)
    (m : TreeMap String Step) (k : String) :
    (raw.foldl (fun m s => m.insert s.id s) m)[k]? = (raw.find? (·.id == k)).or m[k]? := by
  induction raw generalizing m with
  | nil => rfl
  | cons s raw ih =>
    rw [List.map_cons, List.nodup_cons] at h
    rw [List.foldl_cons, ih h.2, List.find?_cons]
    by_cases hk : s.id = k
    · subst hk
      have hnone : raw.find? (·.id == s.id) = none := by
        rw [List.find?_eq_none]
        intro x hx heq
        exact h.1 (by simpa using ⟨x, hx, by simpa using heq⟩)
      simp [hnone]
    · have hfalse : (s.id == k) = false := beq_eq_false_iff_ne.mpr hk
      simp [hfalse, hk, TreeMap.getElem?_insert, Std.LawfulEqCmp.compare_eq_iff_eq]

variable {s : Step}

theorem stepMap_getElem? {raw : List Step} (h : (raw.map Step.id).Nodup)
    (hs : s ∈ raw) : (stepMap raw)[s.id]? = some s := by
  rw [stepMap, foldl_insert_getElem? h]
  obtain ⟨x, hx⟩ : ∃ x, raw.find? (·.id == s.id) = some x := by
    rw [← Option.isSome_iff_exists, List.find?_isSome]
    exact ⟨s, hs, by simp⟩
  have hid : x.id = s.id := by simpa using List.find?_some hx
  rw [hx, List.inj_on_of_nodup_map h (List.mem_of_find?_eq_some hx) hs hid]
  rfl

theorem mem_of_stepMap {raw : List Step} (h : (raw.map Step.id).Nodup) {k : String}
    (hs : (stepMap raw)[k]? = some s) : s ∈ raw ∧ s.id = k := by
  rw [stepMap, foldl_insert_getElem? h] at hs
  have hs : raw.find? (·.id == k) = some s := by simpa using hs
  exact ⟨List.mem_of_find?_eq_some hs, by simpa using List.find?_some hs⟩

section Graph

variable {raw : List Step}

theorem graphOf_nodup (raw : List Step) : (graphOf (stepMap raw)).keys.Nodup := by
  rw [Graph.keys, graphOf, List.map_map]
  exact List.pairwise_map.mpr ((TreeMap.distinct_keys_toList (t := stepMap raw)).imp
    fun h => by simpa [Std.LawfulEqCmp.compare_eq_iff_eq] using h)

theorem mem_graphOf (h : (raw.map Step.id).Nodup) (hs : s ∈ raw) :
    (s.id, s.dependsOn) ∈ graphOf (stepMap raw) := by
  refine List.mem_map.mpr ⟨(s.id, s), ?_, rfl⟩
  exact TreeMap.mem_toList_iff_getElem?_eq_some.mpr (stepMap_getElem? h hs)

theorem graphOf_deps (h : (raw.map Step.id).Nodup) (hs : s ∈ raw) :
    (graphOf (stepMap raw)).deps s.id = s.dependsOn :=
  Graph.deps_of_mem (s := (s.id, s.dependsOn)) (graphOf_nodup raw) (mem_graphOf h hs)

theorem graphOf_perm (h : (raw.map Step.id).Nodup) :
    (raw.map Step.id).Perm (graphOf (stepMap raw)).keys := by
  refine (List.perm_ext_iff_of_nodup h (graphOf_nodup raw)).mpr fun k => ?_
  constructor
  · intro hk
    obtain ⟨s, hs, rfl⟩ := List.mem_map.mp hk
    exact List.mem_map_of_mem (mem_graphOf h hs)
  · intro hk
    obtain ⟨_, hin, rfl⟩ := List.mem_map.mp hk
    obtain ⟨⟨_, _⟩, hmap, rfl⟩ := List.mem_map.mp hin
    obtain ⟨hs, rfl⟩ := mem_of_stepMap h (TreeMap.mem_toList_iff_getElem?_eq_some.mp hmap)
    exact List.mem_map_of_mem hs

/-- Steps that were added in a legal order are all put in order. -/
theorem ordered_ok (h : (raw.map Step.id).Nodup)
    (hlegal : Legal (graphOf (stepMap raw)).deps (raw.map Step.id)) :
    ∃ steps, ordered (stepMap raw) = .ok steps ∧ steps.Perm raw ∧
      Legal (graphOf (stepMap raw)).deps (steps.map Step.id) := by
  have hmap : ∀ s ∈ raw, (stepMap raw)[s.id]? = some s := fun s hs => stepMap_getElem? h hs
  have horder := Graph.order_perm (graphOf_nodup raw) (graphOf_perm h) hlegal
  have hraw : (graphOf (stepMap raw)).order.Perm (raw.map Step.id) :=
    horder.trans (graphOf_perm h).symm
  let steps := (graphOf (stepMap raw)).order.filterMap ((stepMap raw)[·]?)
  have hsteps : steps.Perm raw := by
    have hsome : (raw.map Step.id).filterMap ((stepMap raw)[·]?) = raw := by
      rw [List.filterMap_map]
      exact (List.filterMap_congr hmap).trans List.filterMap_some
    have := hraw.filterMap ((stepMap raw)[·]?)
    rwa [hsome] at this
  have hids : steps.map Step.id = (graphOf (stepMap raw)).order := by
    have hsome : ∀ k ∈ (graphOf (stepMap raw)).order,
        ((stepMap raw)[k]?).map Step.id = some k := by
      intro k hk
      obtain ⟨s, hs, rfl⟩ := List.mem_map.mp (hraw.subset hk)
      rw [hmap s hs]
      rfl
    rw [List.map_filterMap, List.filterMap_congr (g := some) hsome, List.filterMap_some]
  have hsize : steps.length = (stepMap raw).size := by
    rw [← List.length_map (f := Step.id), hids, horder.length_eq, Graph.keys, List.length_map,
      graphOf, List.length_map, TreeMap.length_toList]
  refine ⟨steps, ?_, hsteps, ?_⟩
  · rw [ordered, Graph.missing_eq_none (graphOf_nodup raw) (graphOf_perm h) hlegal]
    exact if_neg (not_not.mpr hsize)
  · rw [hids]
    exact Graph.order_legal (graphOf_nodup raw) (graphOf_perm h) hlegal

end Graph

/-! ## The raw order is legal -/

/-- The steps as tasks. -/
abbrev tasks (t : ValidatedTopology) : Graph String := graphOf (stepMap (rawSteps t))

@[simp] theorem mem_dependsOn {d key : String} {operation : Operation} {deps : List String}
    {resource : Json} : d ∈ (step key operation deps resource).dependsOn ↔ d ∈ deps := by
  rw [step, mem_unique]
  exact (sortOn_perm _ deps).mem_iff

theorem mem_orElse {keys : List String} {other k : String} (h : k ∈ keys) :
    k ∈ orElse keys other := by
  cases keys with
  | nil => cases h
  | cons => exact h

theorem of_mem_orElse {keys : List String} {other k : String} (h : k ∈ orElse keys other) :
    k ∈ keys ∨ k = other := by
  cases keys with
  | nil => exact .inr (List.mem_singleton.mp h)
  | cons => exact .inl h

/-- The steps by their kinds. -/
theorem mem_rawSteps :
    s ∈ rawSteps t ↔ s = preflight ∨ s ∈ preparation t ∨ s = policyStep t ∨ s ∈ armed t ∨
      s ∈ [barrierStep t, enableStep, convergeStep t] ∨
      (∃ f ∈ workloads t, s ∈ [releaseStep f, healthStep f]) ∨ s = readyStep t := by
  simp only [rawSteps, List.mem_append, List.mem_cons, List.mem_flatMap, List.not_mem_nil,
    or_false, or_assoc]

/-- The keys of some steps. -/
def ids (ss : List Step) : List String := ss.map Step.id

theorem mem_ids_map {l : List β} {x : β} (f : β → Step) (hx : x ∈ l) :
    (f x).id ∈ ids (l.map f) :=
  List.mem_map_of_mem (List.mem_map_of_mem hx)

/-! ### What steps depend on -/

variable {d : String}

theorem dependsOn_node (h : Complete t) {f : String × Node}
    (hd : d ∈ (nodeStep t f).dependsOn) :
    d = "preflight" ∨ d ∈ ids ((networks t).map managementStep) := by
  rw [nodeStep, mem_dependsOn] at hd
  rcases List.mem_cons.mp hd with rfl | hd
  · exact .inl rfl
  · obtain ⟨a, ha, rfl⟩ := List.mem_map.mp hd
    obtain ⟨_, hg, heq⟩ := List.mem_map.mp (h.attached a (List.mem_filter.mp ha).1)
    rw [← heq]
    exact .inr (mem_ids_map managementStep hg)

theorem dependsOn_edge (h : Complete t) {e : Edge} (he : e ∈ t.edges)
    (hd : d ∈ (edgeStep t e).dependsOn) : d ∈ ids (t.nodes.map (nodeStep t)) := by
  obtain ⟨hfirst, hsecond⟩ := h.ends e he
  rw [edgeStep, mem_dependsOn] at hd
  rcases List.mem_pair.mp hd with rfl | rfl
  · obtain ⟨f, hf, heq⟩ := List.mem_map.mp hfirst
    rw [← heq]
    exact mem_ids_map (nodeStep t) hf
  · obtain ⟨_, hf, heq⟩ := List.mem_map.mp hsecond
    rw [← heq]
    exact mem_ids_map (nodeStep t) hf

theorem mem_ids_preparation {l : List β} {f : β → Step} (hl : ∀ s ∈ l.map f, s ∈ preparation t)
    {x : β} (hx : x ∈ l) :
    (f x).id ∈ ids (preparation t) :=
  List.mem_map_of_mem (hl _ (List.mem_map_of_mem hx))

theorem dependsOn_armed (hs : s ∈ armed t) (hd : d ∈ s.dependsOn) :
    d = "policy" ∨ d ∈ ids (preparation t) := by
  rcases List.mem_append.mp hs with hs | hs
  · obtain ⟨f, hf, rfl⟩ := List.mem_map.mp hs
    rw [guestStep, mem_dependsOn] at hd
    refine (List.mem_pair.mp hd).imp_right ?_
    rintro rfl
    refine mem_ids_preparation (f := nodeStep t) (fun s hs => ?_) (List.mem_filter.mp hf).1
    exact List.mem_append_left _ (List.mem_append_right _ hs)
  · obtain ⟨_, he, rfl⟩ := List.mem_map.mp hs
    rw [captureStep, mem_dependsOn] at hd
    refine (List.mem_pair.mp hd).imp_right ?_
    rintro rfl
    exact mem_ids_preparation (f := edgeStep t) (fun s hs => List.mem_append_right _ hs) he

theorem dependsOn_release {f : String × Node} (hf : f ∈ workloads t)
    (hd : d ∈ (releaseStep f).dependsOn) :
    d = "converge" ∨ d ∈ ids (preparation t) ∨ d ∈ ids (armed t) := by
  have hnode : f ∈ t.nodes := (List.mem_filter.mp hf).1
  rw [releaseStep, mem_dependsOn] at hd
  rcases List.mem_append.mp hd with hd | hd
  · refine (List.mem_pair.mp hd).imp_right ?_
    rintro rfl
    refine .inl (mem_ids_preparation (f := nodeStep t) (fun s hs => ?_) hnode)
    exact List.mem_append_left _ (List.mem_append_right _ hs)
  · split at hd
    · rename_i hqemu
      rw [List.mem_singleton.mp hd]
      have hguest : f ∈ guests t := List.mem_filter.mpr ⟨hnode, hqemu⟩
      exact .inr (.inr (List.mem_map_of_mem (List.mem_append_left _
        (List.mem_map_of_mem (f := guestStep) hguest))))
    · cases hd

/-! ### The order -/

/-- Steps whose dependencies are all there may follow. -/
theorem legal_append (h : Complete t) {l : List String} (ss : List Step)
    (hl : Legal (tasks t).deps l) (hss : ∀ s ∈ ss, s ∈ rawSteps t)
    (hdeps : ∀ s ∈ ss, ∀ d ∈ s.dependsOn, d ∈ l) : Legal (tasks t).deps (l ++ ids ss) := by
  refine hl.append fun k hk d hd => ?_
  obtain ⟨s, hs, rfl⟩ := List.mem_map.mp hk
  rw [graphOf_deps (rawSteps_nodup h) (hss s hs)] at hd
  exact hdeps s hs d hd

/-- Releases and health checks may follow when the rest is there. -/
theorem legal_releases (h : Complete t) {fs : List (String × Node)}
    (hfs : ∀ f ∈ fs, f ∈ workloads t) {l : List String} (hl : Legal (tasks t).deps l)
    (hconverge : "converge" ∈ l) (hpreparation : ids (preparation t) ⊆ l)
    (harmed : ids (armed t) ⊆ l) :
    Legal (tasks t).deps (l ++ ids (fs.flatMap fun f => [releaseStep f, healthStep f])) := by
  induction fs generalizing l with
  | nil => simpa [ids] using hl
  | cons f fs ih =>
    have hf := hfs f (List.mem_cons_self ..)
    have hraw : ∀ s ∈ [releaseStep f, healthStep f], s ∈ rawSteps t := fun s hs =>
      mem_rawSteps.mpr (.inr (.inr (.inr (.inr (.inr (.inl ⟨f, hf, hs⟩))))))
    have hrelease : Legal (tasks t).deps (l ++ ids [releaseStep f]) := by
      refine legal_append h _ hl (fun s hs => hraw s ?_) fun s hs d hd => ?_
      · exact List.mem_cons.mpr (.inl (List.mem_singleton.mp hs))
      · rw [List.mem_singleton.mp hs] at hd
        rcases dependsOn_release hf hd with rfl | hd | hd
        · exact hconverge
        · exact hpreparation hd
        · exact harmed hd
    have hhealth : Legal (tasks t).deps (l ++ ids [releaseStep f] ++ ids [healthStep f]) := by
      refine legal_append h _ hrelease (fun s hs => hraw s (List.mem_cons_of_mem _ hs))
        fun s hs d hd => ?_
      rw [List.mem_singleton.mp hs, healthStep, mem_dependsOn] at hd
      exact List.mem_append_right _ hd
    have hsub : l ⊆ l ++ ids [releaseStep f] ++ ids [healthStep f] := by
      rw [List.append_assoc]
      exact List.subset_append_left _ _
    have hrest := ih (fun g hg => hfs g (List.mem_cons_of_mem _ hg)) hhealth (hsub hconverge)
      (List.Subset.trans hpreparation hsub) (List.Subset.trans harmed hsub)
    rw [List.append_assoc, List.append_assoc] at hrest
    exact hrest

theorem rawSteps_legal (h : Complete t) : Legal (tasks t).deps (ids (rawSteps t)) := by
  have hpreflight : Legal (tasks t).deps (ids [preflight]) := by
    refine legal_append h [preflight] legal_nil
      (fun s hs => mem_rawSteps.mpr (.inl (List.mem_singleton.mp hs))) fun s hs d hd => ?_
    rw [List.mem_singleton.mp hs, preflight, mem_dependsOn] at hd
    exact hd
  have hmanagement := legal_append h ((networks t).map managementStep) hpreflight
    (fun s hs => mem_rawSteps.mpr (.inr (.inl (List.mem_append_left _ (List.mem_append_left _ hs)))))
    fun s hs d hd => by
      obtain ⟨f, -, rfl⟩ := List.mem_map.mp hs
      rw [managementStep, mem_dependsOn] at hd
      exact hd
  have hnodes := legal_append h (t.nodes.map (nodeStep t)) hmanagement
    (fun s hs => mem_rawSteps.mpr (.inr (.inl (List.mem_append_left _ (List.mem_append_right _ hs)))))
    fun s hs d hd => by
      obtain ⟨f, -, rfl⟩ := List.mem_map.mp hs
      rcases dependsOn_node h hd with rfl | hd
      · exact List.mem_append_left _ (List.mem_singleton_self _)
      · exact List.mem_append_right _ hd
  have hedges := legal_append h (t.edges.map (edgeStep t)) hnodes
    (fun s hs => mem_rawSteps.mpr (.inr (.inl (List.mem_append_right _ hs))))
    fun s hs d hd => by
      obtain ⟨_, he, rfl⟩ := List.mem_map.mp hs
      exact List.mem_append_right _ (dependsOn_edge h he hd)
  have hpreparation : Legal (tasks t).deps (ids [preflight] ++ ids (preparation t)) := by
    rw [List.append_assoc, List.append_assoc] at hedges
    simpa [ids, preparation] using hedges
  have hpolicy := legal_append h [policyStep t] hpreparation
    (fun s hs => mem_rawSteps.mpr (.inr (.inr (.inl (List.mem_singleton.mp hs)))))
    fun s hs d hd => by
      rw [List.mem_singleton.mp hs, policyStep, mem_dependsOn] at hd
      rcases of_mem_orElse hd with hd | rfl
      · exact List.mem_append_right _ hd
      · exact List.mem_append_left _ (List.mem_singleton_self _)
  have harmed := legal_append h (armed t) hpolicy
    (fun s hs => mem_rawSteps.mpr (.inr (.inr (.inr (.inl hs)))))
    fun s hs d hd => by
      rcases dependsOn_armed hs hd with rfl | hd
      · exact List.mem_append_right _ (List.mem_singleton_self _)
      · exact List.mem_append_left _ (List.mem_append_right _ hd)
  -- each of the next three depends on the step before it
  have hlater : ∀ s ∈ [barrierStep t, enableStep, convergeStep t], s ∈ rawSteps t := fun s hs =>
    mem_rawSteps.mpr (.inr (.inr (.inr (.inr (.inl hs)))))
  have hbarrier := legal_append h [barrierStep t] harmed
    (fun s hs => hlater s (List.mem_cons.mpr (.inl (List.mem_singleton.mp hs))))
    fun s hs d hd => by
      rw [List.mem_singleton.mp hs, barrierStep, mem_dependsOn] at hd
      rcases of_mem_orElse hd with hd | rfl
      · exact List.mem_append_right _ hd
      · exact List.mem_append_left _ (List.mem_append_right _ (List.mem_singleton_self _))
  have henable := legal_append h [enableStep] hbarrier
    (fun s hs => hlater s (List.mem_cons_of_mem _
      (List.mem_cons.mpr (.inl (List.mem_singleton.mp hs)))))
    fun s hs d hd => by
      rw [List.mem_singleton.mp hs, enableStep, mem_dependsOn] at hd
      exact List.mem_append_right _ hd
  have hconverge := legal_append h [convergeStep t] henable
    (fun s hs => hlater s (List.mem_cons_of_mem _ (List.mem_cons_of_mem _ hs)))
    fun s hs d hd => by
      rw [List.mem_singleton.mp hs, convergeStep, mem_dependsOn] at hd
      exact List.mem_append_right _ hd
  have hreleases := legal_releases h (fun f hf => hf) hconverge
    (List.mem_append_right _ (List.mem_singleton_self _))
    (fun d hd => by simp only [List.mem_append]; tauto)
    (fun d hd => by simp only [List.mem_append]; tauto)
  have hready := legal_append h [readyStep t] hreleases
    (fun s hs => mem_rawSteps.mpr
      (.inr (.inr (.inr (.inr (.inr (.inr (List.mem_singleton.mp hs))))))))
    fun s hs d hd => by
      rw [List.mem_singleton.mp hs, readyStep, mem_dependsOn] at hd
      rcases of_mem_orElse hd with hd | rfl
      · obtain ⟨f, hf, rfl⟩ := List.mem_map.mp hd
        have hhealth : healthStep f ∈ (workloads t).flatMap fun f => [releaseStep f, healthStep f] :=
          List.mem_flatMap.mpr ⟨f, hf, by simp⟩
        exact List.mem_append_right _ (List.mem_map_of_mem (f := Step.id) hhealth)
      · exact List.mem_append_left _ (List.mem_append_right _ (List.mem_singleton_self _))
  simpa [ids, rawSteps] using hready

end Raw

/-! ## Accepted topologies are complete -/

section Accepted

open Contracts

variable {lib : Platform} {t lock : Json} {x : Parts}

/-- The management networks that the planner reads are those that were checked. -/
theorem networks_outputOf (hx : checkAll lib t lock = .ok x) :
    ∃ m fs, t.find? "management" = some m ∧ m.find? "networks" = some (.object fs) ∧
      networks (outputOf lib t lock x) = fs ∧ x.networks.map Network.name = fs.map Prod.fst := by
  obtain ⟨-, -, -, -, -, -, hnetworks, -⟩ := checkAll_eq_ok.mp hx
  simp only [networksOf, bind_eq_ok] at hnetworks
  obtain ⟨m, hm, _, -, _, hv, fs, hfs, h⟩ := hnetworks
  have hm : t.find? "management" = some m := need_eq_ok.mp hm
  have hv : m.find? "networks" = some (.object fs) := by
    rw [need_eq_ok.mp hv, object_eq_ok.mp hfs]
  have hsame : (canonicalOf t x).find? "management" = some m := by
    rw [← hm]
    exact (alike_canonical hx).find "management" (by decide)
  refine ⟨m, fs, hm, hv, ?_, ?_⟩
  · simp only [Planner.networks, outputOf, member, hsame, Option.getD_some, hv, items]
  · obtain ⟨_, hnew, hall⟩ := collect_made h
    rw [List.nil_append] at hnew
    rw [hnew]
    clear hnew hv hfs h
    induction hall with
    | nil => rfl
    | cons hn _ ih =>
      obtain ⟨_, hn⟩ := hn
      rw [List.map_cons, List.map_cons, networkOf_name _ hn, ih]

/-- The nodes that the planner reads have the names of those in the topology. -/
theorem nodes_outputOf (hx : checkAll lib t lock = .ok x) :
    ∃ fs, t.find? "nodes" = some (.object fs) ∧
      (outputOf lib t lock x).nodes.map Prod.fst = fs.map Prod.fst := by
  obtain ⟨-, -, hnodes, -⟩ := checkAll_eq_ok.mp hx
  obtain ⟨fs, hfs, -, hall⟩ := nodesOf_eq_ok.mp hnodes
  refine ⟨fs, hfs, ?_⟩
  show (x.nodes.map fun f => (f.1, f.2.1)).map Prod.fst = fs.map Prod.fst
  rw [List.map_map]
  clear hx hnodes hfs
  generalize x.nodes = ns at hall
  induction hall with
  | nil => rfl
  | cons hz _ ih => rw [List.map_cons, List.map_cons, ih, Function.comp_apply, (nodeOf_canonical hz).1]

theorem edgesOf_ok {head : Head} {nodes : List (String × Node)} {es : List Edge}
    (h : edgesOf t head nodes = .ok es) {e : Edge} (he : e ∈ es) :
    ∃ v, EdgeOk nodes head.loop v e := by
  obtain ⟨_, -, -, h⟩ := edgesOf_eq_ok.mp h
  obtain ⟨v, -, hv⟩ := exists_of_mem_right ((collect_eq_ok (edgeOf_checks _ _)).mp h).1 he
  exact ⟨v, hv⟩

theorem attachmentsOf_ok {nodes : List (String × Node)} {edges : List Edge}
    {networks : List Network} {as : List Attached}
    (h : attachmentsOf lib t nodes edges networks = .ok as) {a : Attached} (ha : a ∈ as) :
    AttachmentOk lib nodes (edges.flatMap Edge.endpoints) networks a.value a := by
  obtain ⟨_, _, h⟩ := bind_eq_ok.mp h
  obtain ⟨_, -, hv⟩ := exists_of_mem_right ((collect_eq_ok (attachmentOf_checks _ _ _ _)).mp h).1 ha
  exact hv.canonical

theorem mem_keys_of_lookup {k : String} {v : β} {fs : List (String × β)}
    (h : lookup k fs = some v) : k ∈ fs.map Prod.fst :=
  List.mem_map_of_mem (f := Prod.fst) (mem_of_lookup h)

/-- The attachments that the planner reads are those that were checked. -/
theorem attachments_outputOf (hx : checkAll lib t lock = .ok x) {a : Json}
    (ha : a ∈ (member (outputOf lib t lock x).canonical "managementAttachments").elements) :
    ∃ y, AttachmentOk lib (x.nodes.map fun f => (f.1, f.2.1)) (x.edges.flatMap Edge.endpoints)
      x.networks a y := by
  obtain ⟨-, -, -, -, -, -, -, hattachments⟩ := checkAll_eq_ok.mp hx
  have hset : (canonicalOf t x).find? "managementAttachments" =
      some (.array ((sortOn Attached.endpoint x.attachments).map Attached.value)) :=
    canonicalOf_find hx (by simp [updatesOf])
  rw [member, show (outputOf lib t lock x).canonical = canonicalOf t x from rfl, hset] at ha
  obtain ⟨y, hy, rfl⟩ := List.mem_map.mp ha
  exact ⟨y, attachmentsOf_ok hattachments ((sortOn_perm _ _).subset hy)⟩

/-- What validation accepts has all that the planner needs. -/
theorem complete_of_validate {t : Document} {out : ValidatedTopology}
    (h : validate lib t.value lock = .ok out) : Complete out := by
  obtain ⟨x, hx, rfl⟩ := validate_eq_ok.mp h
  obtain ⟨-, -, -, hedges, -⟩ := checkAll_eq_ok.mp hx
  obtain ⟨_, _, hm, hfs, hnetworks, hnames⟩ := networks_outputOf hx
  obtain ⟨_, hns, hnodes⟩ := nodes_outputOf hx
  have hperm := sortOn_perm Edge.id x.edges
  refine ⟨?_, ?_, ?_, fun e he => ?_, fun a ha => ?_⟩
  · rw [hnetworks]
    exact ((t.ordered.find? hm).find? hfs).nodup
  · rw [hnodes]
    exact (t.ordered.find? hns).nodup
  · exact (hperm.map Edge.id).nodup_iff.mpr (edges_nodup hedges)
  · obtain ⟨_, hv⟩ := edgesOf_ok hedges (hperm.subset he)
    obtain ⟨_, _, _, _, hfirst, hsecond, -⟩ := hv.ends
    exact ⟨mem_keys_of_lookup hfirst.ofNode, mem_keys_of_lookup hsecond.ofNode⟩
  · obtain ⟨y, hok⟩ := attachments_outputOf hx ha
    obtain ⟨net, _, _, hnet, -⟩ := hok.address
    have hname : net.name = y.network := by simpa using List.find?_some hnet
    rw [hnetworks, ← hnames, textOf, hok.name]
    exact hname ▸ List.mem_map_of_mem (List.mem_of_find?_eq_some hnet)

end Accepted

/-! ## The plan -/

section Plan

variable {t : ValidatedTopology}

/-- The plan has all steps, each after what it depends on. -/
theorem planOf_ok (h : Complete t) :
    ∃ p, planOf t = .ok p ∧ p.steps.Perm (rawSteps t) ∧
      Legal (tasks t).deps (p.steps.map Step.id) ∧ p.resourceTeardownOrder = teardown p.steps := by
  obtain ⟨steps, hsteps, hperm, hlegal⟩ := ordered_ok (rawSteps_nodup h) (rawSteps_legal h)
  exact ⟨_, bind_eq_ok.mpr ⟨steps, hsteps, rfl⟩, hperm, hlegal, rfl⟩

end Plan

end Graphlab.Planner
