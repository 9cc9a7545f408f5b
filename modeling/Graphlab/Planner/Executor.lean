import Graphlab.Lib.Trace
import Graphlab.Planner.Planned
import Graphlab.Runtime.Rules
import Mathlib.Data.List.TakeWhile

/-!
# The planner and the executor

The planner orders the steps of a topology by their dependencies; the executor goes through
management networks, nodes and edges, one kind after the other, and back when it cleans up.
Both are about the same resources, and the executor's order is one that the plan allows.

## Main definitions

* `topologyOf` — what the executor reads of a canonical topology.
* `Agrees` — what holds of a plan and the runs of its topology; `executor_agrees`.
-/

namespace Graphlab.Planner

open Lib Lib.Prog
open Contracts (Platform ValidatedTopology Kind Edge validate nodeName Parts outputOf checkAll)
open Graphlab.Runtime (Run Resource RunId JobId Op Ans Act resources)

/-! ## The executor's view of a topology -/

def nodeKindOf (kind : String) : Runtime.NodeKind :=
  if kind == "ovs-switch" then .ovsSwitch else if kind == "qemu" then .qemu else .docker

def topologyOf (canonical : Json) : Runtime.Topology where
  captureRequired := member (member canonical "capture") "required" == .bool true
  networks := (items (member (member canonical "management") "networks")).map Prod.fst
  nodes := (items (member canonical "nodes")).map fun f =>
    (f.1, { kind := nodeKindOf (textOf f.2 "kind"), workload := textOf f.2 "workload"
            ports := (items (member f.2 "ports")).map Prod.fst })
  edges := (member canonical "edges").elements.map (textOf · "id")
  application := (member (member canonical "application") "edges").elements.map fun e =>
    { id := textOf e "id", source := textOf e "source" }

section Keys

variable {lib : Platform} {t lock : Json} {x : Parts} {run : Run}

/-- The resources of a run are those that the plan prepares, in the order in which the planner
adds them. -/
theorem resources_keys (hx : checkAll lib t lock = .ok x)
    (hrun : run.topology = topologyOf (outputOf lib t lock x).canonical) :
    (resources run).map Resource.key = ids (preparation (outputOf lib t lock x)) := by
  have hnodes : items (member (outputOf lib t lock x).canonical "nodes") =
      x.nodes.map fun f => (f.1, f.2.2) := by
    rw [member, show (outputOf lib t lock x).canonical = Contracts.canonicalOf t x from rfl,
      Contracts.canonicalOf_nodes hx, Option.getD_some, items]
  have hedges : (member (outputOf lib t lock x).canonical "edges").elements =
      x.sortedEdges.map Edge.json := by
    rw [member, show (outputOf lib t lock x).canonical = Contracts.canonicalOf t x from rfl,
      Contracts.canonicalOf_find hx (v := .array (x.sortedEdges.map Edge.json))
        (by simp [Contracts.updatesOf]), Option.getD_some]
    rfl
  have hid : ∀ e : Edge, textOf e.json "id" = e.id := fun e => rfl
  rw [resources, hrun, topologyOf, hnodes, hedges]
  simp [ids, preparation, outputOf, Parts.typed, networks, managementStep, nodeStep, edgeStep,
    step, Function.comp_def, hid]

end Keys

/-! ## The executor's loops -/

section Loops

/-- The key of a resource that is removed. -/
def removal : Op → Option String
  | .call (.remove _ resource) => some resource.key
  | _ => none

/-- The resource whose preparation is recorded. -/
def intent : Op → Option Resource
  | .commit (.run _ (.intent resource)) => some resource
  | _ => none

/-- The keys of the recorded resources that are not marked removed. -/
def pending (run : Run) : List String :=
  (run.resources.filter fun r => r.state != .removed).map Resource.key

section Acts

variable {P : Op → Prop} {γ : Type} {pick : Op → Option γ} {c : Runtime.Call} {w : Runtime.Write}

theorem uses_call' (h : P (.call c)) : (Act.call' c).Uses P := .bind (.perform h) fun _ => trivial

theorem uses_commit' (h : P (.commit w)) : (Act.commit' w).Uses P :=
  .bind (.perform h) fun _ => trivial

theorem emits_call' {x : γ} (h : pick (.call c) = some x) : Emits pick [x] (Act.call' c) := by
  have hrest : ∀ reply : Runtime.Reply, Emits pick [] (.ret () : Act Unit) :=
    fun _ => .of_uses trivial
  exact .bind (L := [x]) (.perform h) hrest

theorem emits_commit' {x : γ} (h : pick (.commit w) = some x) :
    Emits pick [x] (Act.commit' w) := by
  have hrest : ∀ s : Runtime.State, Emits pick [] (.ret () : Act Unit) := fun _ => .of_uses trivial
  exact .bind (L := [x]) (.perform h) hrest

end Acts

variable {l : List ((o : Op) × Ans o)}

/-- The entries from the last one down, as far as they are not marked removed. -/
theorem removeResources_trace (run : Run) (n : ℕ) (h : (Runtime.removeResources run n).Trace l) :
    picks removal l <+:
      (((run.resources.take n).filter fun r => r.state != .removed).map Resource.key).reverse := by
  induction n generalizing l with
  | zero =>
    cases h
    exact List.nil_prefix
  | succ n ih =>
    rw [Runtime.removeResources] at h
    cases hr : run.resources[n]? with
    | none =>
      rw [hr] at h
      rw [List.take_add_one, hr, Option.toList_none, List.append_nil]
      exact ih h
    | some r =>
      rw [hr] at h
      rw [List.take_add_one, hr, Option.toList_some, List.filter_append, List.map_append,
        List.reverse_append]
      dsimp only at h
      by_cases hremoved : (r.state != .removed) = true
      · rw [if_pos hremoved] at h
        rw [List.filter_singleton, hremoved, cond_true]
        have hremove : Emits removal [r.key] (Act.call' (.remove run r)) := emits_call' rfl
        refine hremove.then (fun _ l h => ?_) h
        exact Emits.then (L := []) (.of_uses (uses_commit' rfl)) (fun _ _ h => ih h) h
      · rw [if_neg hremoved] at h
        rw [List.filter_singleton, Bool.eq_false_iff.mpr hremoved, cond_false]
        exact ih h

/-- Preparations are recorded in the order of the resources. -/
theorem prepareResources_trace (job : JobId) (id : RunId) (list : List Resource) (cancel : Bool)
    (h : (Runtime.prepareResources job id cancel list).Trace l) : picks intent l <+: list := by
  induction list generalizing cancel l with
  | nil =>
    rw [Runtime.prepareResources] at h
    cases h
    exact List.nil_prefix
  | cons r rest ih =>
    cases cancel with
    | true =>
      cases h
      exact List.nil_prefix
    | false =>
      rw [Runtime.prepareResources] at h
      have hsnapshot : (Runtime.snapshot job).Uses fun o => intent o = none := by
        refine .bind (.perform rfl) fun s => ?_
        split
        · trivial
        · split <;> trivial
      have hfirst : Emits intent [r] (Act.commit' (.run id (.intent r))) := emits_commit' rfl
      refine hfirst.then (fun _ l h => ?_) h
      refine Emits.then (L := []) (.of_uses hsnapshot) (fun y l h => ?_) h
      refine Emits.then (L := []) (.of_uses (.perform rfl)) (fun reply l h => ?_) h
      refine Emits.then (L := []) (.of_uses (uses_commit' rfl)) (fun _ l h => ?_) h
      exact Emits.then (L := []) (.of_uses (.perform rfl)) (fun cancel l h => ih cancel h) h

/-- A run that is read. -/
theorem readRun_returns {id : RunId} {r : Run} (h : (Runtime.readRun id).Returns l r) :
    ∃ s : Runtime.State, ⟨.read, s⟩ ∈ l ∧ s.runs[id]? = some r := by
  obtain ⟨s, _, _, rfl, h₁, h₂⟩ := h.of_bind
  cases h₁ with
  | op h₁ =>
    cases h₁
    refine ⟨s, by simp, ?_⟩
    split at h₂
    · rename_i run hrun
      cases h₂
      exact hrun
    · cases h₂

theorem readRun_uses (id : RunId) : (Runtime.readRun id).Uses fun o => removal o = none := by
  refine .bind (.perform rfl) fun s => ?_
  split <;> trivial

theorem clearFaults_uses (run : Run) (list : List (Runtime.FaultId × Runtime.Fault)) :
    (Runtime.clearFaults run list).Uses fun o => removal o = none := by
  induction list with
  | nil => trivial
  | cons f rest ih =>
    refine .bind (Runtime.uses_when ?_) fun _ => ih
    exact .bind (uses_call' rfl) fun _ => uses_commit' rfl

theorem closeCaptures_uses (id : RunId) :
    (Runtime.closeCaptures id).Uses fun o => removal o = none := by
  refine .bind (readRun_uses id) fun run => Runtime.uses_when ?_
  exact .bind (.perform rfl) fun reply => uses_commit' rfl

theorem stopSessions_uses (generation : ℕ) (list : List Runtime.Session) :
    (Runtime.stopSessions generation list).Uses fun o => removal o = none := by
  induction list with
  | nil => trivial
  | cons s rest ih => exact .bind (uses_call' rfl) fun _ => ih

/-- `cleanup` removes nothing, or goes down the resources of a run that it has read. -/
theorem cleanup_trace {id : RunId} (h : (Runtime.cleanup id).Trace l) :
    picks removal l = [] ∨ ∃ (s : Runtime.State) (r : Run), ⟨.read, s⟩ ∈ l ∧
      s.runs[id]? = some r ∧ picks removal l <+: (pending r).reverse := by
  have hfaults : (Runtime.m5Clear id).Uses fun o => removal o = none :=
    .bind (readRun_uses id) fun run => clearFaults_uses run _
  rcases h.of_bind with h | ⟨_, l₁, l', rfl, h₁, h⟩
  · exact .inl (picks_eq_nil hfaults h)
  rw [picks_append, picks_eq_nil hfaults h₁.trace, List.nil_append]
  rcases h.of_bind with h | ⟨_, l₂, l', rfl, h₂, h⟩
  · exact .inl (picks_eq_nil (closeCaptures_uses id) h)
  rw [picks_append, picks_eq_nil (closeCaptures_uses id) h₂.trace, List.nil_append]
  rcases h.of_bind with h | ⟨r, l₃, l', rfl, h₃, h⟩
  · exact .inl (picks_eq_nil (readRun_uses id) h)
  rw [picks_append, picks_eq_nil (readRun_uses id) h₃.trace, List.nil_append]
  obtain ⟨s, hs, hr⟩ := readRun_returns h₃
  refine .inr ⟨s, r, by simp [hs], hr, ?_⟩
  have hremove : picks removal l' <+: [] ++ _ :=
    Emits.then (.of_uses (stopSessions_uses _ _)) (fun _ _ h => removeResources_trace r _ h) h
  rwa [List.nil_append, List.take_length] at hremove

end Loops

/-! ## Agreement -/

/-- The keys of the resources of a run. -/
def keys (run : Run) : List String := (resources run).map Resource.key

/-- What holds of a plan and the runs of its topology. -/
structure Agrees (t : ValidatedTopology) (p : Plan) (run : Run) : Prop where
  /-- The executor prepares what the plan prepares, each resource once, -/
  same : (keys run).Perm ((p.steps.filter fun s => s.operation.group == .prepare).map Step.id)
  once : (keys run).Nodup
  /-- and what a resource depends on before it; -/
  order : ∀ a ∈ keys run, ∀ b ∈ keys run, Relation.TransGen (Depends p.steps) a b →
    [a, b].Sublist (keys run)
  /-- so both nodes of an edge stand before it, -/
  ends : ∀ e ∈ t.edges, ∀ q ∈ e.endpoints,
    ["node/" ++ nodeName q, "edge/" ++ e.id].Sublist (keys run)
  /-- and a management network before the nodes that are attached to it. -/
  attached : ∀ a ∈ (member t.canonical "managementAttachments").elements,
    ["management/" ++ textOf a "network", "node/" ++ nodeName (textOf a "endpoint")].Sublist
      (keys run)
  /-- Resources are recorded in this order, -/
  recorded : ∀ job id cancel l,
    (Runtime.prepareResources job id cancel (resources run)).Trace l →
      picks intent l <+: resources run
  /-- and `cleanup` goes back: with every resource that it removes, all recorded ones that
  depend on it are removed, before it, as in the plan's order. -/
  removed : ∀ id l, (Runtime.cleanup id).Trace l → picks removal l = [] ∨
    ∃ (s : Runtime.State) (r : Run), ⟨.read, s⟩ ∈ l ∧ s.runs[id]? = some r ∧
      picks removal l <+: (pending r).reverse ∧
      (r.resources.map Resource.key <+: keys run →
        ∀ a ∈ picks removal l, ∀ b ∈ pending r, Relation.TransGen (Depends p.steps) a b →
          [b, a].Sublist (picks removal l) ∧ [b, a].Sublist p.resourceTeardownOrder)

section Agreement

variable {lib : Platform} {lock : Json} {t : ValidatedTopology} {p : Plan}

theorem filter_prepare (t : ValidatedTopology) :
    (rawSteps t).filter (fun s => s.operation.group == .prepare) = preparation t := by
  have hall : ∀ s ∈ preparation t, (s.operation.group == .prepare) = true :=
    fun s hs => beq_iff_eq.mpr (preparation_group hs)
  have hguests : ∀ s ∈ (guests t).map guestStep, ¬ (s.operation.group == .prepare) = true := by
    refine List.forall_mem_map.mpr fun f _ => ?_
    simp [guestStep, step, Operation.group]
  have hcaptures : ∀ s ∈ t.edges.map (captureStep t),
      ¬ (s.operation.group == .prepare) = true := by
    refine List.forall_mem_map.mpr fun f _ => ?_
    simp [captureStep, step, Operation.group]
  have hreleases : ∀ s ∈ (workloads t).flatMap fun f => [releaseStep f, healthStep f],
      ¬ (s.operation.group == .prepare) = true := by
    intro s hs
    obtain ⟨_, -, hs⟩ := List.mem_flatMap.mp hs
    rcases List.mem_pair.mp hs with rfl | rfl
    · rw [releaseStep_group]
      decide
    · simp [healthStep, step, Operation.group]
  simp only [rawSteps, armed, List.filter_append, List.filter_cons, List.filter_nil,
    List.filter_eq_self.mpr hall, List.filter_eq_nil_iff.mpr hguests,
    List.filter_eq_nil_iff.mpr hcaptures, List.filter_eq_nil_iff.mpr hreleases]
  simp [preflight, policyStep, barrierStep, enableStep, convergeStep, readyStep, step,
    Operation.group]

/-- The order in which the planner adds the steps is an order that their dependencies allow. -/
theorem preparation_sublist (h : Complete t) (hperm : p.steps.Perm (rawSteps t)) {a b : String}
    (ha : a ∈ ids (preparation t)) (hb : b ∈ ids (preparation t))
    (hab : Relation.TransGen (Depends p.steps) a b) : [a, b].Sublist (ids (preparation t)) := by
  have hraw : ids (rawSteps t) = ("preflight" :: ids (preparation t)) ++ ids (policyStep t ::
      armed t ++ [barrierStep t, enableStep, convergeStep t] ++
      (workloads t).flatMap (fun f => [releaseStep f, healthStep f]) ++ [readyStep t]) := by
    simp [ids, rawSteps, preflight, step]
  have hlegal := rawSteps_legal h
  have hnodup : (ids (rawSteps t)).Nodup := rawSteps_nodup h
  rw [hraw] at hlegal hnodup
  have hsub := hlegal.of_append.sublist (transGen_tasks h hperm hab) (List.mem_cons_of_mem _ hb)
  -- `preflight` is not one of the keys
  cases hsub with
  | cons _ hsub => exact hsub
  | cons_cons => exact absurd ha (List.nodup_cons.mp (hnodup.of_append_left)).1

theorem filter_mem_of_sublist {l m : List String} (h : l.Sublist m) (hm : m.Nodup) :
    m.filter (· ∈ l) = l := by
  induction h with
  | slnil => rfl
  | @cons l m k h ih =>
    obtain ⟨hk, hm⟩ := List.nodup_cons.mp hm
    rw [List.filter_cons_of_neg (by simpa using fun hin => hk (h.subset hin)), ih hm]
  | @cons_cons l m k h ih =>
    obtain ⟨hk, hm⟩ := List.nodup_cons.mp hm
    rw [List.filter_cons_of_pos (by simp)]
    refine congrArg _ (Eq.trans (List.filter_congr fun j hj => ?_) (ih hm))
    have hne : j ≠ k := fun heq => hk (heq ▸ hj)
    simp [hne]

/-- A part from the beginning of the reversed list has, with an element, all that stands after
it in the list. -/
theorem sublist_reverse_of_start {l m : List String} (hnodup : l.Nodup) (hm : m <+: l.reverse)
    {a b : String} (ha : a ∈ m) (hab : [a, b].Sublist l) : [b, a].Sublist m := by
  have hrev : [b, a].Sublist l.reverse := by simpa using hab.reverse
  obtain ⟨rest, hrest⟩ := hm
  rw [← hrest] at hrev
  have hnodup : (m ++ rest).Nodup := hrest ▸ List.nodup_reverse.mpr hnodup
  obtain ⟨l₁, l₂, heq, h₁, h₂⟩ := List.sublist_append_iff.mp hrev
  -- `a` is in the first part, so the rest has nothing of the pair
  match l₁, heq with
  | [], heq =>
    rw [List.nil_append] at heq
    exact absurd (h₂.subset (heq ▸ by simp : a ∈ l₂)) (List.disjoint_of_nodup_append hnodup ha)
  | [x], heq =>
    simp only [List.singleton_append, List.cons.injEq] at heq
    exact absurd (h₂.subset (heq.2 ▸ by simp : a ∈ l₂))
      (List.disjoint_of_nodup_append hnodup ha)
  | x :: y :: l₁, heq =>
    simp only [List.cons_append, List.cons.injEq, List.nil_eq, List.append_eq_nil_iff] at heq
    obtain ⟨rfl, rfl, rfl, -⟩ := heq
    exact h₁

/-! ### Dependencies -/

theorem preparation_direct (h : Complete t) (hperm : p.steps.Perm (rawSteps t)) {s : Step}
    (hs : s ∈ preparation t) {d : String} (hd : d ∈ s.dependsOn)
    (hkey : d ∈ ids (preparation t)) : [d, s.id].Sublist (ids (preparation t)) := by
  refine preparation_sublist h hperm hkey (List.mem_map_of_mem hs) (.single ⟨s, ?_, rfl, hd⟩)
  exact hperm.symm.subset (mem_rawSteps.mpr (.inr (.inl hs)))

theorem mem_keys_network {name : String} (h : name ∈ (networks t).map Prod.fst) :
    "management/" ++ name ∈ ids (preparation t) := by
  obtain ⟨f, hf, rfl⟩ := List.mem_map.mp h
  have hs : managementStep f ∈ preparation t :=
    List.mem_append_left _ (List.mem_append_left _ (List.mem_map_of_mem hf))
  exact List.mem_map_of_mem hs

theorem mem_keys_node {name : String} (h : name ∈ t.nodes.map Prod.fst) :
    "node/" ++ name ∈ ids (preparation t) := by
  obtain ⟨f, hf, rfl⟩ := List.mem_map.mp h
  have hs : nodeStep t f ∈ preparation t :=
    List.mem_append_left _ (List.mem_append_right _ (List.mem_map_of_mem hf))
  exact List.mem_map_of_mem hs

theorem nodes_before_edge (h : Complete t) (hperm : p.steps.Perm (rawSteps t)) {e : Edge}
    (he : e ∈ t.edges) {q : String} (hq : q ∈ e.endpoints) :
    ["node/" ++ nodeName q, "edge/" ++ e.id].Sublist (ids (preparation t)) := by
  have hs : edgeStep t e ∈ preparation t := List.mem_append_right _ (List.mem_map_of_mem he)
  obtain ⟨hfirst, hsecond⟩ := h.ends e he
  refine preparation_direct h hperm hs ?_ ?_
  · rw [edgeStep, mem_dependsOn]
    rcases List.mem_pair.mp hq with rfl | rfl <;> simp
  · rcases List.mem_pair.mp hq with rfl | rfl
    · exact mem_keys_node hfirst
    · exact mem_keys_node hsecond

theorem nodeName_prefix {e : String} (h : e.toList.count ':' = 1) :
    (nodeName e ++ ":").toList <+: e.toList := by
  have hmem : ':' ∈ e.toList := List.count_pos_iff.mp (by omega)
  have hsplit := List.takeWhile_append_dropWhile (p := fun c => decide (c ≠ ':')) (l := e.toList)
  have hrest : e.toList.dropWhile (fun c => decide (c ≠ ':')) ≠ [] := by
    intro hnil
    have := List.dropWhile_eq_nil_iff.mp hnil ':' hmem
    simp at this
  obtain ⟨c, rest, hc⟩ := List.exists_cons_of_ne_nil hrest
  have hcolon : c = ':' := by
    have := List.head_dropWhile_not (fun c => decide (c ≠ ':')) hrest
    simp only [hc, List.head_cons] at this
    simpa using this
  refine ⟨rest, ?_⟩
  rw [String.toList_append, nodeName, String.toList_ofList, List.append_assoc]
  rw [hc, hcolon] at hsplit
  exact hsplit

theorem network_before_node {t lock : Json} {x : Parts} (hx : checkAll lib t lock = .ok x)
    (h : Complete (outputOf lib t lock x)) (hperm : p.steps.Perm (rawSteps (outputOf lib t lock x)))
    {a : Json}
    (ha : a ∈ (member (outputOf lib t lock x).canonical "managementAttachments").elements) :
    ["management/" ++ textOf a "network", "node/" ++ nodeName (textOf a "endpoint")].Sublist
      (ids (preparation (outputOf lib t lock x))) := by
  obtain ⟨y, hok⟩ := attachments_outputOf hx ha
  obtain ⟨_, port, hat, -⟩ := hok.port
  have hend : textOf a "endpoint" = y.endpoint := by rw [textOf, hok.key]
  obtain ⟨f, hf, hname⟩ := List.mem_map.mp (mem_keys_of_lookup hat.ofNode)
  have hs : nodeStep (outputOf lib t lock x) f ∈ preparation (outputOf lib t lock x) :=
    List.mem_append_left _ (List.mem_append_right _ (List.mem_map_of_mem hf))
  rw [hend, ← hname]
  refine preparation_direct h hperm hs ?_ (mem_keys_network (h.attached a ha))
  rw [nodeStep, mem_dependsOn]
  refine List.mem_cons_of_mem _ (List.mem_map.mpr ⟨a, List.mem_filter.mpr ⟨ha, ?_⟩, rfl⟩)
  rw [List.isPrefixOf_iff_prefix, hend, hname]
  exact nodeName_prefix hat.colon

theorem mem_teardown (h : Planned t p) {k : String} (hk : k ∈ ids (preparation t)) :
    k ∈ p.resourceTeardownOrder := by
  obtain ⟨s, hs, rfl⟩ := List.mem_map.mp hk
  refine (h.torn _).mpr ⟨s, h.all.symm.subset (mem_rawSteps.mpr (.inr (.inl hs))), rfl, ?_⟩
  have hgroup := preparation_group hs
  generalize s.operation = o at hgroup
  revert hgroup
  cases o <;> decide

/-- **Agreement.**  The resources of a run of an accepted topology are those that its plan
prepares, in an order that the plan's dependencies allow, and `cleanup` removes them in an
order that the plan's teardown allows. -/
theorem executor_agrees {t : Document} {out : ValidatedTopology}
    (h : validate lib t.value lock = .ok out) {run : Run}
    (hrun : run.topology = topologyOf out.canonical) :
    ∃ p, plan lib t.value lock = .ok p ∧ Agrees out p run := by
  have hcomplete := complete_of_validate h
  obtain ⟨p, hp, hplanned⟩ := planOf_planned hcomplete
  obtain ⟨x, hx, rfl⟩ := Contracts.validate_eq_ok.mp h
  have hkeys : keys run = ids (preparation (outputOf lib t.value lock x)) := resources_keys hx hrun
  have hnodup : (keys run).Nodup := by
    rw [hkeys, ids, ← filter_prepare]
    exact (rawSteps_nodup hcomplete).sublist (List.filter_sublist.map _)
  have horder : ∀ a ∈ keys run, ∀ b ∈ keys run, Relation.TransGen (Depends p.steps) a b →
      [a, b].Sublist (keys run) := by
    rw [hkeys]
    exact fun a ha b hb hab => preparation_sublist hcomplete hplanned.all ha hb hab
  refine ⟨p, plan_eq_ok.mpr ⟨_, h, hp⟩,
    { same := ?_, once := hnodup, order := horder, ends := ?_, attached := ?_, recorded := ?_
      removed := ?_ }⟩
  · rw [hkeys, ids, ← filter_prepare]
    exact ((hplanned.all.filter _).map _).symm
  · rw [hkeys]
    exact fun e he q hq => nodes_before_edge hcomplete hplanned.all he hq
  · rw [hkeys]
    exact fun a ha => network_before_node hx hcomplete hplanned.all ha
  · exact fun job id cancel l hl => prepareResources_trace job id _ cancel hl
  · intro id l hl
    rcases cleanup_trace hl with hnone | ⟨s, r, hs, hr, hremoved⟩
    · exact .inl hnone
    refine .inr ⟨s, r, hs, hr, hremoved, fun hrecorded a ha b hb hab => ?_⟩
    have hpending : (pending r).Sublist (keys run) :=
      (List.filter_sublist.map _).trans hrecorded.sublist
    have hapending : a ∈ pending r := List.mem_reverse.mp (hremoved.subset ha)
    have hakey := hpending.subset hapending
    have hbkey := hpending.subset hb
    -- the order of the keys is that of the recorded ones among them
    have hsub := (horder a hakey b hbkey hab).filter (· ∈ pending r)
    rw [filter_mem_of_sublist hpending hnodup] at hsub
    have hsub : [a, b].Sublist (pending r) := by simpa [hapending, hb] using hsub
    refine ⟨sublist_reverse_of_start (hnodup.sublist hpending) hremoved ha hsub, ?_⟩
    rw [hkeys] at hakey hbkey
    exact hplanned.down a (mem_teardown hplanned hakey) b (mem_teardown hplanned hbkey) hab

/-- A run of the sample topology. -/
theorem executor_agrees_sample :
    ∃ out p run, run.topology = topologyOf out.canonical ∧
      plan Contracts.Sample.platform sampleDocument.value Contracts.Sample.lock = .ok p ∧
      Agrees out p run := by
  obtain ⟨out, hout⟩ := Contracts.Sample.accepted
  obtain ⟨p, hp, hagrees⟩ := executor_agrees (t := sampleDocument) hout
    (rfl : Run.topology { id := "a", topology := topologyOf out.canonical } = _)
  exact ⟨out, p, _, rfl, hp, hagrees⟩

end Agreement

end Graphlab.Planner
