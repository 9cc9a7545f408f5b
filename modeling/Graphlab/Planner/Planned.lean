import Graphlab.Planner.Order

/-!
# What a plan guarantees

Every accepted topology has a plan, with each step once and after all that it depends on.
Captures are armed before the barrier, the barrier stands before the data links are enabled,
and workloads are released after convergence; resources are taken down before what they
depend on.

## Main results

* `Planned` — what holds of a plan; `plan_planned`.
-/

namespace Graphlab.Planner

open Lib
open Contracts (Platform ValidatedTopology Node Kind Edge Error validate nodeName)

/-- What an operation is for. -/
inductive Group
  | prepare | guest | capture | release | other
  deriving DecidableEq, Repr

/-- Management networks, nodes and edges are prepared, guests are launched but paused, captures
are armed, workloads are let go on. -/
def Operation.group : Operation → Group
  | .prepareManagement => .prepare
  | .prepareBridge => .prepare
  | .prepareGuestResources => .prepare
  | .prepareContainer => .prepare
  | .prepareLink => .prepare
  | .preparePausedGuest => .guest
  | .armCapture => .capture
  | .continueGuest => .release
  | .releaseWorkload => .release
  | _ => .other

/-- The step with the second key depends on the one with the first. -/
def Depends (steps : List Step) (a b : String) : Prop :=
  ∃ s ∈ steps, s.id = b ∧ a ∈ s.dependsOn

/-- The first key stands before the second. -/
def Before (p : Plan) (a b : String) : Prop := [a, b].Sublist (p.steps.map Step.id)

/-- What holds of a plan. -/
structure Planned (t : ValidatedTopology) (p : Plan) : Prop where
  /-- The steps are those of the topology, -/
  all : p.steps.Perm (rawSteps t)
  /-- each once, -/
  once : (p.steps.map Step.id).Nodup
  /-- and after all that it depends on. -/
  order : ∀ pre s post, p.steps = pre ++ s :: post → ∀ d ∈ s.dependsOn, d ∈ pre.map Step.id
  edges : (t.edges.map Edge.id).Nodup
  /-- There is one capture for each edge. -/
  captures : ((p.steps.filter fun s => s.operation == .armCapture).map
      fun s => s.resource.find? "edge").Perm (t.edges.map fun e => some (.string e.id))
  barrier : ∀ s ∈ p.steps, s.operation = .armCapture → Before p s.id "capture-barrier"
  enable : Before p "capture-barrier" "enable-data"
  converge : Before p "enable-data" "converge"
  release : ∀ s ∈ p.steps, s.operation.group = .release → Before p "converge" s.id
  guests : ∀ s ∈ p.steps, s.operation = .preparePausedGuest →
    ∀ u ∈ p.steps, u.operation.group = .prepare → Before p u.id s.id
  /-- What is taken down. -/
  torn : ∀ k, k ∈ p.resourceTeardownOrder ↔ ∃ s ∈ p.steps, s.id = k ∧
    ("prepare-".toList <+: s.operation.text.toList ∨ s.operation = .armCapture)
  tornOnce : p.resourceTeardownOrder.Nodup
  /-- A step is taken down before all that it depends on. -/
  down : ∀ a ∈ p.resourceTeardownOrder, ∀ b ∈ p.resourceTeardownOrder,
    Relation.TransGen (Depends p.steps) a b → [b, a].Sublist p.resourceTeardownOrder

/-! ## Steps by their operations -/

section Operations

variable {t : ValidatedTopology} {s : Step}

theorem tornDown_iff {o : Operation} :
    o.tornDown = true ↔ "prepare-".toList <+: o.text.toList ∨ o = .armCapture := by
  rw [Operation.tornDown, Bool.or_eq_true, List.isPrefixOf_iff_prefix, beq_iff_eq]
  refine or_congr_right ?_
  cases o <;> simp [Operation.text]

/-- The steps of a group. -/
def InGroup (t : ValidatedTopology) (s : Step) : Group → Prop
  | .prepare => s ∈ preparation t
  | .guest => ∃ f ∈ guests t, s = guestStep f
  | .capture => ∃ e ∈ t.edges, s = captureStep t e
  | .release => ∃ f ∈ workloads t, s = releaseStep f
  | .other => True

theorem preparation_group (hs : s ∈ preparation t) : s.operation.group = .prepare := by
  rcases List.mem_append.mp hs with hs | hs
  · rcases List.mem_append.mp hs with hs | hs
    · obtain ⟨_, -, rfl⟩ := List.mem_map.mp hs
      rfl
    · obtain ⟨⟨_, node⟩, -, rfl⟩ := List.mem_map.mp hs
      show (prepareOf node.kind).group = .prepare
      cases node.kind <;> rfl
  · obtain ⟨_, -, rfl⟩ := List.mem_map.mp hs
    rfl

theorem releaseStep_group (f : String × Node) : (releaseStep f).operation.group = .release := by
  rw [releaseStep, step]
  dsimp only
  split <;> rfl

theorem inGroup (hs : s ∈ rawSteps t) : InGroup t s s.operation.group := by
  rcases mem_rawSteps.mp hs with rfl | hs | rfl | hs | hs | ⟨f, hf, hs⟩ | rfl
  · trivial
  · rw [preparation_group hs]
    exact hs
  · trivial
  · rcases List.mem_append.mp hs with hs | hs
    · obtain ⟨f, hf, rfl⟩ := List.mem_map.mp hs
      exact ⟨f, hf, rfl⟩
    · obtain ⟨e, he, rfl⟩ := List.mem_map.mp hs
      exact ⟨e, he, rfl⟩
  · simp only [List.mem_cons, List.not_mem_nil, or_false] at hs
    rcases hs with rfl | rfl | rfl <;> trivial
  · rcases List.mem_pair.mp hs with rfl | rfl
    · rw [releaseStep_group]
      exact ⟨f, hf, rfl⟩
    · trivial
  · trivial

/-- The captures of a plan. -/
theorem filter_armCapture (t : ValidatedTopology) :
    (rawSteps t).filter (fun s => s.operation == .armCapture) = t.edges.map (captureStep t) := by
  have hnone : ∀ {ss : List Step}, (∀ s ∈ ss, s.operation.group ≠ .capture) →
      ss.filter (fun s => s.operation == .armCapture) = [] := by
    refine fun h => List.filter_eq_nil_iff.mpr fun s hs heq => h s hs ?_
    rw [beq_iff_eq.mp heq]
    rfl
  have hprepare : ∀ s ∈ preparation t, s.operation.group ≠ .capture := by
    intro s hs
    rw [preparation_group hs]
    decide
  have hguests : ∀ s ∈ (guests t).map guestStep, s.operation.group ≠ .capture := by
    intro s hs
    obtain ⟨f, -, rfl⟩ := List.mem_map.mp hs
    exact fun h => by cases h
  have hcaptures : (t.edges.map (captureStep t)).filter (fun s => s.operation == .armCapture) =
      t.edges.map (captureStep t) := by
    refine List.filter_eq_self.mpr fun s hs => ?_
    obtain ⟨_, -, rfl⟩ := List.mem_map.mp hs
    rfl
  have hreleases : ∀ s ∈ (workloads t).flatMap (fun f => [releaseStep f, healthStep f]),
      s.operation.group ≠ .capture := by
    intro s hs
    obtain ⟨_, -, hs⟩ := List.mem_flatMap.mp hs
    rcases List.mem_pair.mp hs with rfl | rfl
    · rw [releaseStep_group]
      decide
    · exact fun h => by cases h
  rw [rawSteps, armed]
  simp only [List.filter_append, List.filter_cons, hnone hprepare, hnone hguests, hcaptures,
    hnone hreleases, List.filter_nil]
  simp [preflight, policyStep, barrierStep, enableStep, convergeStep, readyStep, step]

end Operations

/-! ## The order -/

section Order

variable {t : ValidatedTopology}

/-- Two steps stand in the order of their keys. -/
theorem sublist_of_ids {l : List Step} (h : (l.map Step.id).Nodup) {u s : Step} (hu : u ∈ l)
    (hs : s ∈ l) (hsub : [u.id, s.id].Sublist (l.map Step.id)) : [u, s].Sublist l := by
  obtain ⟨l', hl', heq⟩ := List.sublist_map_iff.mp hsub
  have hlength : l'.length = 2 := by
    have := congrArg List.length heq
    rw [List.length_map] at this
    exact this.symm
  obtain ⟨_, _, rfl⟩ := List.length_eq_two.mp hlength
  simp only [List.map_cons, List.map_nil, List.cons.injEq, and_true] at heq
  have hmem := hl'.subset
  rw [List.inj_on_of_nodup_map h hu (hmem (by simp)) heq.1,
    List.inj_on_of_nodup_map h hs (hmem (by simp)) heq.2]
  exact hl'

/-- The dependencies of the steps of a plan are those of the tasks. -/
theorem transGen_tasks (h : Complete t) {steps : List Step} (hperm : steps.Perm (rawSteps t))
    {a b : String} (hab : Relation.TransGen (Depends steps) a b) :
    Relation.TransGen (fun a b => a ∈ (tasks t).deps b) a b := by
  refine Relation.TransGen.mono (fun a b hab => ?_) _ _ hab
  obtain ⟨_, hs, rfl, _⟩ := hab
  rwa [tasks, graphOf_deps (rawSteps_nodup h) (hperm.subset hs)]

/-- A topology with all that the planner needs has a plan. -/
theorem planOf_planned (h : Complete t) : ∃ p, planOf t = .ok p ∧ Planned t p := by
  obtain ⟨p, hp, hperm, hlegal, hteardown⟩ := planOf_ok h
  have honce : (p.steps.map Step.id).Nodup := (hperm.map Step.id).nodup_iff.mpr (rawSteps_nodup h)
  have hdeps : ∀ s ∈ rawSteps t, (tasks t).deps s.id = s.dependsOn :=
    fun s hs => graphOf_deps (rawSteps_nodup h) hs
  have hmem : ∀ {s}, s ∈ rawSteps t → s.id ∈ p.steps.map Step.id :=
    fun hs => List.mem_map_of_mem (hperm.symm.subset hs)
  -- a step stands after what it depends on
  have hbefore : ∀ {s}, s ∈ rawSteps t → ∀ d ∈ s.dependsOn, Before p d s.id := by
    intro s hs d hd
    exact hlegal.sublist (.single (by rwa [hdeps s hs])) (hmem hs)
  have hbarrier : barrierStep t ∈ rawSteps t := mem_rawSteps.mpr (by simp)
  have henable : enableStep ∈ rawSteps t := mem_rawSteps.mpr (by simp)
  have hconverge : convergeStep t ∈ rawSteps t := mem_rawSteps.mpr (by simp)
  have hpolicy : policyStep t ∈ rawSteps t := mem_rawSteps.mpr (by simp)
  refine ⟨p, hp, ?_⟩
  exact
    { all := hperm
      once := honce
      order := fun pre s post heq d hd => by
        have hs : s ∈ rawSteps t := hperm.subset (by simp [heq])
        refine hlegal (pre.map Step.id) s.id (post.map Step.id) (by simp [heq]) d ?_
        rwa [hdeps s hs]
      edges := h.edgeNames
      captures := by
        have := (hperm.filter fun s => s.operation == .armCapture).map
          fun s => s.resource.find? "edge"
        rw [filter_armCapture, List.map_map] at this
        exact this
      barrier := fun s hs ho => by
        have hgroup := inGroup (hperm.subset hs)
        rw [ho] at hgroup
        obtain ⟨_, he, rfl⟩ := hgroup
        refine hbefore hbarrier _ ?_
        rw [barrierStep, mem_dependsOn]
        refine mem_orElse (List.mem_map_of_mem (List.mem_append_right _ ?_))
        exact List.mem_map_of_mem he
      enable := hbefore henable _ (by rw [enableStep, mem_dependsOn]; exact List.mem_singleton_self _)
      converge := hbefore hconverge _
        (by rw [convergeStep, mem_dependsOn]; exact List.mem_singleton_self _)
      release := fun s hs ho => by
        have hgroup := inGroup (hperm.subset hs)
        rw [ho] at hgroup
        obtain ⟨f, hf, rfl⟩ := hgroup
        refine hbefore (hperm.subset hs) _ ?_
        rw [releaseStep, mem_dependsOn]
        simp
      guests := fun s hs ho u hu hprepare => by
        have hguest := inGroup (hperm.subset hs)
        rw [ho] at hguest
        obtain ⟨f, _, rfl⟩ := hguest
        have hpreparation := inGroup (hperm.subset hu)
        rw [hprepare] at hpreparation
        have hu' : u.id ∈ (tasks t).deps "policy" := by
          rw [show "policy" = (policyStep t).id from rfl, hdeps _ hpolicy, policyStep, mem_dependsOn]
          exact mem_orElse (List.mem_map_of_mem hpreparation)
        have hs' : "policy" ∈ (tasks t).deps (guestStep f).id := by
          rw [hdeps _ (hperm.subset hs), guestStep, mem_dependsOn]
          simp
        exact hlegal.sublist (.tail (.single hu') hs') (List.mem_map_of_mem hs)
      torn := fun k => by
        rw [hteardown, teardown, List.mem_map]
        simp only [List.mem_filter, List.mem_reverse, tornDown_iff]
        constructor
        · rintro ⟨s, ⟨hs, ho⟩, hk⟩
          exact ⟨s, hs, hk, ho⟩
        · rintro ⟨s, hs, hk, ho⟩
          exact ⟨s, ⟨hs, ho⟩, hk⟩
      tornOnce := by
        rw [hteardown, teardown]
        have hreverse : (p.steps.reverse.map Step.id).Nodup := by
          rw [List.map_reverse]
          exact List.nodup_reverse.mpr honce
        exact hreverse.sublist (List.filter_sublist.map _)
      down := fun a ha b hb hab => by
        rw [hteardown, teardown] at ha hb ⊢
        obtain ⟨_, hu, rfl⟩ := List.mem_map.mp ha
        obtain ⟨s, hs, rfl⟩ := List.mem_map.mp hb
        rw [List.mem_filter, List.mem_reverse] at hu hs
        have hsub := sublist_of_ids honce hu.1 hs.1
          (hlegal.sublist (transGen_tasks h hperm hab) (List.mem_map_of_mem hs.1))
        have hfilter := (hsub.reverse.filter fun s => s.operation.tornDown).map Step.id
        simpa [hu.2, hs.2] using hfilter }

end Order

/-! ## Accepted topologies -/

section Accepted

variable {lib : Platform} {lock : Json}

theorem plan_eq_ok {t : Json} {p : Plan} :
    plan lib t lock = .ok p ↔ ∃ out, validate lib t lock = .ok out ∧ planOf out = .ok p :=
  bind_eq_ok

/-- **Plans.**  Every accepted topology has a plan, with each step once and after all that it
depends on; captures are armed before the barrier, data is enabled after it, workloads are
released after convergence, guests are launched after all preparation; and resources are
taken down before what they depend on. -/
theorem plan_planned {t : Document} {out : ValidatedTopology}
    (h : validate lib t.value lock = .ok out) :
    ∃ p, plan lib t.value lock = .ok p ∧ Planned out p := by
  obtain ⟨p, hp, hplanned⟩ := planOf_planned (complete_of_validate h)
  exact ⟨p, plan_eq_ok.mpr ⟨out, h, hp⟩, hplanned⟩

/-- The sample topology as a document. -/
def sampleDocument : Document :=
  ⟨Contracts.Sample.topology Contracts.Sample.edges, by decide +kernel⟩

/-- The plan of a container, a guest and a switch. -/
theorem plan_planned_sample :
    ∃ out p, validate Contracts.Sample.platform sampleDocument.value Contracts.Sample.lock = .ok out ∧
      plan Contracts.Sample.platform sampleDocument.value Contracts.Sample.lock = .ok p ∧
      Planned out p := by
  obtain ⟨out, hout⟩ := Contracts.Sample.accepted
  obtain ⟨p, hp, hplanned⟩ := plan_planned (t := sampleDocument) hout
  exact ⟨out, p, hout, hp, hplanned⟩

end Accepted

/-! ## Topologies that say the same -/

section Variants

open Contracts (EdgeOk checkAll_eq_ok validate_eq_ok edges_nodup edgesOf edgeOf_checks Parts)

variable {lib : Platform} {lock t t' : Json} {out out' : ValidatedTopology}

/-- An edge with its endpoints the other way round. -/
inductive Reversed (t : Json) : Json → Prop
  | mk {pre post : List Json} {e x y : Json}
      (hedges : t.find? "edges" = some (.array (pre ++ e :: post)))
      (hends : e.find? "endpoints" = some (.array [x, y])) :
      Reversed t (t.set "edges" (.array (pre ++ e.set "endpoints" (.array [y, x]) :: post)))

/-- The edge is as it is written. -/
def Writes (v : Json) (e : Edge) : Prop :=
  v.find? "id" = some (.string e.id) ∧
    v.find? "endpoints" = some (.array [.string e.first, .string e.second])

/-- The canonical edges are those that are written, in the order of their names, each with its
endpoints in the order that is written. -/
theorem edges_written (h : validate lib t lock = .ok out) :
    ∃ l es, t.find? "edges" = some (.array l) ∧ List.Forall₂ Writes l es ∧
      (es.map Edge.id).Nodup ∧ (∀ e ∈ es, e.first ≠ e.second) ∧ out.edges = sortOn Edge.id es ∧
      out.canonical.find? "edges" = some (.array ((sortOn Edge.id es).map Edge.json)) := by
  obtain ⟨x, hx, rfl⟩ := validate_eq_ok.mp h
  obtain ⟨-, -, -, hedges, -⟩ := checkAll_eq_ok.mp hx
  have hdistinct := edges_nodup hedges
  obtain ⟨_, hv, hrest⟩ := bind_eq_ok.mp hedges
  obtain ⟨l, hl, hrest⟩ := bind_eq_ok.mp hrest
  obtain ⟨_, _, hcollect⟩ := bind_eq_ok.mp hrest
  obtain ⟨hall, -⟩ := (collect_eq_ok (edgeOf_checks _ _)).mp hcollect
  refine ⟨l, x.edges, ?_, hall.imp fun _ _ h => ⟨h.key, h.pair⟩, hdistinct, fun e he => ?_, rfl,
    Contracts.canonicalOf_find hx (by simp [Contracts.updatesOf, Contracts.Parts.sortedEdges])⟩
  · rw [Contracts.need_eq_ok.mp hv, Contracts.array_eq_ok.mp hl]
  · obtain ⟨_, -, hok⟩ := exists_of_mem_right hall he
    exact hok.distinct

/-- The canonical form tells the two ways round apart. -/
theorem Reversed.canonical_ne (hrev : Reversed t t') (h : validate lib t lock = .ok out)
    (h' : validate lib t' lock = .ok out') : out.canonical ≠ out'.canonical := by
  obtain @⟨pre, post, v, x, y, hedges, hends⟩ := hrev
  obtain ⟨_, es, hl, hall, hdistinct, hne, -, hcanonical⟩ := edges_written h
  obtain ⟨_, es', hl', hall', -, -, -, hcanonical'⟩ := edges_written h'
  rw [hedges] at hl
  rw [Json.find?_set_self (.of_find? hedges)] at hl'
  cases hl
  cases hl'
  obtain ⟨e, he, hid, hpair⟩ := exists_of_mem_left hall (a := v) (by simp)
  obtain ⟨e', he', hid', hpair'⟩ :=
    exists_of_mem_left hall' (a := v.set "endpoints" (.array [y, x])) (by simp)
  rw [Json.find?_set_ne (by decide), hid] at hid'
  rw [Json.find?_set_self (.of_find? hends)] at hpair'
  rw [hends] at hpair
  intro heq
  rw [heq, hcanonical'] at hcanonical
  have hjson : Function.Injective Edge.json := by
    rintro ⟨k, a, b⟩ ⟨k', a', b'⟩ h
    simpa [Contracts.Edge.json, and_comm, and_assoc, and_left_comm] using h
  have hsorted : sortOn Edge.id es' = sortOn Edge.id es := by
    have hmap := Option.some.inj hcanonical
    exact hjson.list_map (Json.array.inj hmap)
  have hmem : e' ∈ es := (sortOn_perm _ _).subset (hsorted ▸ (sortOn_perm _ _).symm.subset he')
  -- both are the edge of this name
  have hsame : e' = e := List.inj_on_of_nodup_map hdistinct hmem he (by simpa using hid'.symm)
  subst hsame
  simp only [Option.some.injEq, Json.array.injEq, List.cons.injEq, and_true] at hpair hpair'
  obtain ⟨rfl, rfl⟩ := hpair
  exact hne e' he (Json.string.inj hpair'.1).symm

/-- **Variants.**  Topologies that differ in the order of lists or in defaults that are written
out are accepted together, with one result and one plan.  To turn the endpoints of an edge
round is no such change: the canonical form has them in the order that is written, and
differs. -/
theorem plan_variants (lib : Platform) (t lock : Json) :
    (∀ t', Relation.EqvGen Contracts.Step t t' →
      ((validate lib t lock).isOk = true ↔ (validate lib t' lock).isOk = true) ∧
      ∀ out, validate lib t lock = .ok out →
        validate lib t' lock = .ok out ∧ plan lib t' lock = plan lib t lock) ∧
    (∀ out, validate lib t lock = .ok out → ∃ l es, t.find? "edges" = some (.array l) ∧
      List.Forall₂ Writes l es ∧
      out.canonical.find? "edges" = some (.array ((sortOn Edge.id es).map Edge.json))) ∧
    ∀ t' out out', Reversed t t' → validate lib t lock = .ok out →
      validate lib t' lock = .ok out' →
      out.canonical ≠ out'.canonical ∧ ¬ Relation.EqvGen Contracts.Step t t' := by
  refine ⟨fun t' hvariant => ⟨?_, fun out hout => ?_⟩, fun out hout => ?_,
    fun t' out out' hrev hout hout' => ?_⟩
  · have hiff := @Contracts.validate_variants lib lock t t' hvariant
    constructor
    · intro hok
      obtain ⟨out, hout⟩ := exists_of_isOk hok
      rw [(hiff out).mp hout]
      rfl
    · intro hok
      obtain ⟨out, hout⟩ := exists_of_isOk hok
      rw [(hiff out).mpr hout]
      rfl
  · have hout' := (Contracts.validate_variants hvariant out).mp hout
    exact ⟨hout', by rw [plan, plan, hout, hout']⟩
  · obtain ⟨l, es, hl, hall, -, -, -, hcanonical⟩ := edges_written hout
    exact ⟨l, es, hl, hall, hcanonical⟩
  · have hne := hrev.canonical_ne hout hout'
    refine ⟨hne, fun hvariant => hne ?_⟩
    have hsame := (Contracts.validate_variants hvariant out).mp hout
    rw [hout'] at hsame
    rw [Except.ok.inj hsame]

/-- The sample with its edges the other way round, and with the default of the limits written
out. -/
theorem plan_variants_sample :
    ∃ t', t' ≠ Contracts.Sample.topology Contracts.Sample.edges ∧
      ∃ out, validate Contracts.Sample.platform t' Contracts.Sample.lock = .ok out ∧
        plan Contracts.Sample.platform t' Contracts.Sample.lock =
          plan Contracts.Sample.platform (Contracts.Sample.topology Contracts.Sample.edges)
            Contracts.Sample.lock := by
  obtain ⟨out, hout⟩ := Contracts.Sample.accepted
  have hedges : (Contracts.Sample.topology Contracts.Sample.edges).find? "edges" =
      some (.array Contracts.Sample.edges) := by decide
  have hlimits : ((Contracts.Sample.topology Contracts.Sample.edges).set "edges"
      (.array Contracts.Sample.edges.reverse)).find? "limits" = none := by decide
  have hvariant := (Relation.EqvGen.rel _ _
    (Contracts.Step.edges hedges (List.reverse_perm _).symm)).trans _ _ _
      (.rel _ _ (.limits ⟨_, rfl⟩ hlimits))
  obtain ⟨hsame, hplan⟩ := ((plan_variants Contracts.Sample.platform _ _).1 _ hvariant).2 out hout
  refine ⟨_, ?_, out, hsame, hplan⟩
  intro heq
  have hfind := congrArg (Json.find? · "limits") heq
  revert hfind
  decide

end Variants

end Graphlab.Planner
