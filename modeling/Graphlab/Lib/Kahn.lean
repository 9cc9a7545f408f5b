import Mathlib.Algebra.BigOperators.Group.List.Basic
import Mathlib.Data.List.Induction
import Mathlib.Data.List.Nodup
import Mathlib.Data.List.Sort
import Mathlib.Logic.Relation
import Mathlib.Logic.Function.Basic

/-!
# Kahn's algorithm

Tasks with dependencies in an order that has every dependency before the task.  The
algorithm counts for each task the dependencies that are still to come, and keeps the tasks
for which there are none in an ordered set; it takes the least of them, and counts down
those that depend on it.

If the tasks have any legal order at all, the algorithm finds one that has them all.

## Main definitions

* `Legal` — every dependency stands before the task.
* `Graph.order` — the algorithm.
* `Graph.order_perm`, `Graph.order_legal` — what it returns.
-/

namespace Graphlab.Lib

variable {κ : Type}

/-! ## Legal orders -/

section Legal

variable {deps : κ → List κ} {l l' : List κ} {a b k : κ}

/-- Every dependency of a task stands before it. -/
def Legal (deps : κ → List κ) (l : List κ) : Prop :=
  ∀ pre k post, l = pre ++ k :: post → ∀ d ∈ deps k, d ∈ pre

theorem legal_nil : Legal deps [] := by
  intro pre k post h
  simp at h

theorem legal_concat : Legal deps (l ++ [k]) ↔ Legal deps l ∧ ∀ d ∈ deps k, d ∈ l := by
  constructor
  · intro h
    refine ⟨fun pre j post heq => h pre j (post ++ [k]) ?_, h l k [] rfl⟩
    simp [heq]
  · rintro ⟨hl, hk⟩ pre j post heq
    rcases List.eq_nil_or_concat post with rfl | ⟨post, x, rfl⟩
    · obtain ⟨rfl, hj⟩ := List.append_inj' heq rfl
      cases hj
      exact hk
    · refine hl pre j post ?_
      have heq : l ++ [k] = (pre ++ j :: post) ++ [x] := by simpa using heq
      exact (List.append_inj' heq rfl).1

theorem Legal.concat (h : Legal deps l) (hk : ∀ d ∈ deps k, d ∈ l) : Legal deps (l ++ [k]) :=
  legal_concat.mpr ⟨h, hk⟩

/-- Tasks whose dependencies are all there may follow in any order. -/
theorem Legal.append (h : Legal deps l) (hl' : ∀ k ∈ l', ∀ d ∈ deps k, d ∈ l) :
    Legal deps (l ++ l') := by
  induction l' using List.reverseRecOn with
  | nil => simpa using h
  | append_singleton l' k ih =>
    rw [← List.append_assoc]
    refine (ih fun j hj => hl' j (List.mem_append_left _ hj)).concat fun d hd => ?_
    exact List.mem_append_left _ (hl' k (by simp) d hd)

theorem Legal.of_append (h : Legal deps (l ++ l')) : Legal deps l := by
  intro pre k post heq
  refine h pre k (post ++ l') ?_
  simp [heq]

/-- What a task depends on, directly or not, stands before it. -/
theorem Legal.sublist (h : Legal deps l) (hab : Relation.TransGen (fun a b => a ∈ deps b) a b)
    (hb : b ∈ l) : [a, b].Sublist l := by
  induction hab generalizing l with
  | single hab =>
    obtain ⟨pre, post, rfl⟩ := List.append_of_mem hb
    have ha := h pre _ post rfl a hab
    exact (List.singleton_sublist.mpr ha).append (List.singleton_sublist.mpr (by simp))
  | tail _ hbc ih =>
    obtain ⟨pre, post, rfl⟩ := List.append_of_mem hb
    have ha := (ih h.of_append (h pre _ post rfl _ hbc)).subset (List.mem_cons_self ..)
    exact (List.singleton_sublist.mpr ha).append (List.singleton_sublist.mpr (by simp))

end Legal

/-! ## The algorithm -/

/-- Tasks, each with its dependencies. -/
abbrev Graph (κ : Type) := List (κ × List κ)

/-- Where the algorithm stands. -/
structure Frontier (κ : Type) where
  remaining : κ → ℕ
  ready : List κ

namespace Graph

variable [LinearOrder κ] (g : Graph κ)

def keys : List κ := g.map Prod.fst

/-- The dependencies of a task. -/
def deps (k : κ) : List κ := ((g.find? (·.1 == k)).map Prod.snd).getD []

/-- The first dependency that is no task, with the task that has it. -/
def missing : Option (κ × κ) :=
  g.findSome? fun s => (s.2.find? fun d => !g.keys.contains d).map fun d => (s.1, d)

/-- The tasks that depend on a task, once for each time they name it. -/
def dependents (k : κ) : List κ := g.flatMap fun s => (s.2.filter (· == k)).map fun _ => s.1

end Graph

namespace Frontier

variable [LinearOrder κ]

/-- One dependency of a task less. -/
def count (f : Frontier κ) (k : κ) : Frontier κ where
  remaining := Function.update f.remaining k (f.remaining k - 1)
  ready := if f.remaining k - 1 = 0 ∧ k ∉ f.ready then f.ready.orderedInsert (· ≤ ·) k else f.ready

/-- The tasks in an order, one at a time. -/
def loop (dependents : κ → List κ) : ℕ → Frontier κ → List κ → List κ
  | 0, _, done => done
  | fuel + 1, f, done =>
    match f.ready with
    | [] => done
    | k :: rest =>
      loop dependents fuel ((dependents k).foldl count { f with ready := rest }) (done ++ [k])

end Frontier

/-- What is counted and ready at first. -/
def Graph.frontier [LinearOrder κ] (g : Graph κ) : Frontier κ where
  remaining k := (g.deps k).length
  ready := ((g.filter fun s => s.2.isEmpty).map Prod.fst).insertionSort (· ≤ ·)

/-- The algorithm.  Each task is taken at most once, so that as many rounds as there are
tasks are enough. -/
def Graph.order [LinearOrder κ] (g : Graph κ) : List κ :=
  g.frontier.loop g.dependents g.length []

/-! ## Counting -/

section Count

variable [LinearOrder κ] {f : Frontier κ} {ds : List κ}

theorem remaining_foldl_count (k : κ) :
    (ds.foldl Frontier.count f).remaining k = f.remaining k - ds.count k := by
  induction ds generalizing f with
  | nil => simp
  | cons d ds ih =>
    rw [List.foldl_cons, ih, List.count_cons]
    by_cases h : d = k
    · subst h
      simp [Frontier.count]
      omega
    · simp [Frontier.count, h, Ne.symm h]

theorem nodup_foldl_count (h : f.ready.Nodup) : (ds.foldl Frontier.count f).ready.Nodup := by
  induction ds generalizing f with
  | nil => exact h
  | cons d ds ih =>
    refine ih ?_
    rw [Frontier.count]
    dsimp only
    split
    · rename_i hd
      exact (List.perm_orderedInsert _ _ _).nodup_iff.mpr (List.nodup_cons.mpr ⟨hd.2, h⟩)
    · exact h

/-- A task becomes ready when it is counted down to nothing. -/
theorem mem_ready_foldl_count {k : κ} (hk : ds.count k ≤ f.remaining k) :
    k ∈ (ds.foldl Frontier.count f).ready ↔
      k ∈ f.ready ∨ k ∈ ds ∧ f.remaining k = ds.count k := by
  induction ds generalizing f with
  | nil => simp
  | cons d ds ih =>
    have hready : k ∈ (f.count d).ready ↔ k ∈ f.ready ∨ k = d ∧ f.remaining d - 1 = 0 := by
      rw [Frontier.count]
      dsimp only
      split
      · rename_i hd
        rw [List.mem_orderedInsert]
        exact ⟨fun h => h.elim (fun h => .inr ⟨h, hd.1⟩) .inl,
          fun h => h.elim .inr fun h => .inl h.1⟩
      · rename_i hd
        refine ⟨.inl, fun h => h.elim (fun h => h) ?_⟩
        rintro ⟨rfl, hzero⟩
        by_contra hnot
        exact hd ⟨hzero, hnot⟩
    rw [List.count_cons] at hk
    rw [List.foldl_cons, ih]
    · rw [hready, List.count_cons, List.mem_cons]
      by_cases h : d = k
      · subst h
        simp only [beq_self_eq_true, if_true] at hk ⊢
        simp only [Frontier.count, Function.update_self, true_or, true_and]
        have hmem := List.count_pos_iff (a := d) (l := ds)
        constructor
        · rintro ((h | h) | ⟨hd, h⟩)
          · exact .inl h
          · exact .inr (by omega)
          · exact .inr (by omega)
        · rintro (h | h)
          · exact .inl (.inl h)
          · by_cases hd : d ∈ ds
            · exact .inr ⟨hd, by omega⟩
            · rw [List.count_eq_zero_of_not_mem hd] at h
              exact .inl (.inr (by omega))
      · simp [Frontier.count, h, Ne.symm h]
    · by_cases h : d = k
      · subst h
        simp only [beq_self_eq_true, if_true] at hk
        simp only [Frontier.count, Function.update_self]
        omega
      · simpa [Frontier.count, h, Ne.symm h] using hk

end Count

/-! ## What the algorithm keeps -/

namespace Graph

variable [LinearOrder κ] {g : Graph κ} {f : Frontier κ} {done : List κ}

/-- How many dependencies of a task are still to come. -/
def waits (g : Graph κ) (done : List κ) (k : κ) : ℕ :=
  (g.deps k).countP fun d => decide (d ∉ done)

/-- What is counted and ready when some tasks are done. -/
structure Counted (g : Graph κ) (f : Frontier κ) (done : List κ) : Prop where
  legal : Legal g.deps done
  nodup : done.Nodup
  known : ∀ k ∈ done, k ∈ g.keys
  remaining : ∀ k, f.remaining k = g.waits done k
  ready : ∀ k, k ∈ f.ready ↔ k ∈ g.keys ∧ k ∉ done ∧ f.remaining k = 0
  once : f.ready.Nodup

theorem deps_of_mem (hkeys : g.keys.Nodup) {s : κ × List κ} (hs : s ∈ g) : g.deps s.1 = s.2 := by
  rw [deps]
  cases hfind : g.find? (·.1 == s.1) with
  | none => simpa using List.find?_eq_none.mp hfind s hs
  | some s' =>
    have hkey : s'.1 = s.1 := by simpa using List.find?_some hfind
    have hmem := List.mem_of_find?_eq_some hfind
    rw [List.inj_on_of_nodup_map hkeys hmem hs hkey]
    rfl

theorem deps_of_not_mem {k : κ} (hk : k ∉ g.keys) : g.deps k = [] := by
  rw [deps]
  cases hfind : g.find? (·.1 == k) with
  | none => rfl
  | some s =>
    have hkey : s.1 = k := by simpa using List.find?_some hfind
    exact absurd (hkey ▸ List.mem_map_of_mem (List.mem_of_find?_eq_some hfind)) hk

/-- A task depends on another as often as it is counted down for it. -/
theorem count_dependents (hkeys : g.keys.Nodup) (j k : κ) :
    (g.dependents j).count k = (g.deps k).count j := by
  have hcount : ∀ s : κ × List κ, ((s.2.filter (· == j)).map fun _ => s.1).count k =
      if s.1 = k then s.2.count j else 0 := by
    intro s
    rw [List.map_const', List.count_replicate, List.count_eq_length_filter]
    by_cases h : s.1 = k <;> simp [h]
  by_cases hk : k ∈ g.keys
  · obtain ⟨s, hs, rfl⟩ := List.mem_map.mp hk
    rw [deps_of_mem hkeys hs]
    obtain ⟨pre, post, rfl⟩ := List.append_of_mem hs
    have hother : ∀ l : Graph κ, s.1 ∉ l.keys → (l.dependents j).count s.1 = 0 := by
      intro l hl
      rw [dependents, List.count_flatMap, List.sum_eq_zero]
      intro n hn
      obtain ⟨_, hs', rfl⟩ := List.mem_map.mp hn
      rw [Function.comp_apply, hcount, if_neg]
      exact fun heq => hl (heq ▸ List.mem_map_of_mem hs')
    rw [keys, List.map_append, List.map_cons, List.nodup_append, List.nodup_cons] at hkeys
    have hpre : s.1 ∉ Graph.keys pre := fun h => hkeys.2.2 _ h _ (List.mem_cons_self ..) rfl
    have hsplit : dependents (pre ++ s :: post) j =
        dependents pre j ++ ((s.2.filter (· == j)).map fun _ => s.1) ++ dependents post j := by
      simp [dependents]
    rw [hsplit, List.count_append, List.count_append, hother pre hpre, hcount, if_pos rfl,
      hother post hkeys.2.1.1]
    omega
  · rw [deps_of_not_mem hk, List.count_nil, List.count_eq_zero]
    intro hmem
    obtain ⟨_, hs, hin⟩ := List.mem_flatMap.mp hmem
    obtain ⟨_, -, rfl⟩ := List.mem_map.mp hin
    exact hk (List.mem_map_of_mem hs)

theorem counted_frontier (hkeys : g.keys.Nodup) : Counted g g.frontier [] where
  legal := legal_nil
  nodup := .nil
  known := by simp
  remaining k := by simp [frontier, waits]
  ready k := by
    rw [frontier, List.mem_insertionSort, List.mem_map]
    simp only [List.mem_filter, List.isEmpty_iff, List.not_mem_nil, not_false_eq_true, true_and,
      List.length_eq_zero_iff]
    constructor
    · rintro ⟨s, ⟨hs, hnil⟩, rfl⟩
      exact ⟨List.mem_map_of_mem hs, (deps_of_mem hkeys hs).trans hnil⟩
    · rintro ⟨hk, hnil⟩
      obtain ⟨s, hs, rfl⟩ := List.mem_map.mp hk
      exact ⟨s, ⟨hs, (deps_of_mem hkeys hs).symm.trans hnil⟩, rfl⟩
  once := by
    rw [frontier, (List.perm_insertionSort _ _).nodup_iff]
    exact hkeys.sublist (List.filter_sublist.map _)

theorem waits_eq_zero {k : κ} : g.waits done k = 0 ↔ ∀ d ∈ g.deps k, d ∈ done := by
  simp [waits, List.countP_eq_zero]

/-- With one more task done, as many dependencies are to come as before, less those on it. -/
theorem waits_concat (g : Graph κ) {k : κ} (hk : k ∉ done) (j : κ) :
    g.waits (done ++ [k]) j + (g.deps j).count k = g.waits done j := by
  rw [waits, waits]
  induction g.deps j with
  | nil => rfl
  | cons d ds ih =>
    rw [List.countP_cons, List.countP_cons, List.count_cons]
    by_cases hd : d = k
    · subst hd
      simp only [List.mem_append, List.mem_singleton, or_true, not_true_eq_false, decide_false,
        Bool.false_eq_true, if_false, beq_self_eq_true, if_true, hk, not_false_eq_true,
        decide_true] at ih ⊢
      omega
    · have hmem : d ∈ done ++ [k] ↔ d ∈ done := by simp [hd]
      simp only [hmem, beq_iff_eq, hd, if_false]
      omega

/-- One round. -/
theorem Counted.round (hkeys : g.keys.Nodup) {k : κ} {rest : List κ} (h : Counted g f done)
    (hready : f.ready = k :: rest) :
    Counted g ((g.dependents k).foldl Frontier.count { f with ready := rest }) (done ++ [k]) := by
  obtain ⟨hkey, hnew, hzero⟩ := (h.ready k).mp (by rw [hready]; exact List.mem_cons_self ..)
  obtain ⟨hrest, honce⟩ := List.nodup_cons.mp (hready ▸ h.once)
  have hremaining : ∀ j, ((g.dependents k).foldl Frontier.count { f with ready := rest }).remaining j =
      g.waits (done ++ [k]) j := by
    intro j
    have := waits_concat g hnew j
    rw [remaining_foldl_count, count_dependents hkeys, h.remaining]
    omega
  have hdeps : ∀ d ∈ g.deps k, d ∈ done := by
    rw [h.remaining] at hzero
    exact waits_eq_zero.mp hzero
  refine ⟨h.legal.concat hdeps, ?_, ?_, hremaining, fun j => ?_, nodup_foldl_count honce⟩
  · rw [List.nodup_append]
    refine ⟨h.nodup, by simp, fun a ha b hb => ?_⟩
    rw [List.mem_singleton.mp hb]
    exact fun heq => hnew (heq ▸ ha)
  · intro j hj
    rcases List.mem_append.mp hj with hj | hj
    · exact h.known j hj
    · rw [List.mem_singleton.mp hj]
      exact hkey
  · have hle : (g.dependents k).count j ≤ f.remaining j := by
      have := waits_concat g hnew j
      rw [count_dependents hkeys, h.remaining]
      omega
    rw [mem_ready_foldl_count (f := { f with ready := rest }) hle, hremaining]
    have hold := h.ready j
    have hj := waits_concat g hnew j
    have hmem : j ∈ g.dependents k ↔ 0 < (g.deps j).count k := by
      rw [← count_dependents hkeys, List.count_pos_iff]
    rw [hready, List.mem_cons, h.remaining] at hold
    simp only [h.remaining, count_dependents hkeys, hmem, List.mem_append, List.mem_singleton,
      not_or]
    constructor
    · rintro (hin | ⟨hpos, heq⟩)
      · have hne : j ≠ k := fun heq => hrest (heq ▸ hin)
        obtain ⟨hjkey, hjnew, hjzero⟩ := hold.mp (.inr hin)
        exact ⟨hjkey, ⟨hjnew, hne⟩, by omega⟩
      · have hjkey : j ∈ g.keys := by
          by_contra hnot
          rw [deps_of_not_mem hnot] at hpos
          simp at hpos
        refine ⟨hjkey, ⟨fun hdone => ?_, ?_⟩, by omega⟩
        · -- a task that is done had nothing to wait for
          obtain ⟨pre, post, rfl⟩ := List.append_of_mem hdone
          have := h.legal pre j post rfl k (List.count_pos_iff.mp hpos)
          exact hnew (List.mem_append_left _ this)
        · rintro rfl
          exact hnew (hdeps _ (List.count_pos_iff.mp hpos))
    · rintro ⟨hjkey, ⟨hjnew, hne⟩, hjzero⟩
      by_cases hpos : 0 < (g.deps j).count k
      · exact .inr ⟨hpos, by omega⟩
      · exact .inl ((hold.mpr ⟨hjkey, hjnew, by omega⟩).resolve_left hne)

/-- While tasks are left, one is ready. -/
theorem Counted.ready_ne_nil (h : Counted g f done) {l : List κ} (hl : l.Perm g.keys)
    (hlegal : Legal g.deps l) {k : κ} (hk : k ∈ g.keys) (hnew : k ∉ done) : f.ready ≠ [] := by
  -- the first task of the legal order that is not done
  obtain ⟨pre, j, post, hsplit, hj, hpre⟩ :
      ∃ pre j post, l = pre ++ j :: post ∧ j ∉ done ∧ ∀ d ∈ pre, d ∈ done := by
    have hex : ∃ j ∈ l, j ∉ done := ⟨k, hl.symm.subset hk, hnew⟩
    clear hl hlegal hk hnew
    induction l with
    | nil => simp at hex
    | cons x l ih =>
      by_cases hx : x ∈ done
      · obtain ⟨j, hj, hjnew⟩ := hex
        have hj : j ∈ l := (List.mem_cons.mp hj).resolve_left fun heq => hjnew (heq ▸ hx)
        obtain ⟨pre, i, post, rfl, hi, hpre⟩ := ih ⟨j, hj, hjnew⟩
        refine ⟨x :: pre, i, post, rfl, hi, fun d hd => ?_⟩
        rcases List.mem_cons.mp hd with rfl | hd
        · exact hx
        · exact hpre d hd
      · exact ⟨[], x, l, rfl, hx, by simp⟩
  have hready : j ∈ f.ready := by
    refine (h.ready j).mpr ⟨hl.subset (by simp [hsplit]), hj, ?_⟩
    rw [h.remaining]
    exact waits_eq_zero.mpr fun d hd => hpre d (hlegal pre j post hsplit d hd)
  exact List.ne_nil_of_mem hready

/-- The loop ends with all tasks done. -/
theorem Counted.loop (hkeys : g.keys.Nodup) {l : List κ} (hl : l.Perm g.keys)
    (hlegal : Legal g.deps l) {fuel : ℕ} (h : Counted g f done)
    (hfuel : done.length + fuel = g.length) :
    Legal g.deps (f.loop g.dependents fuel done) ∧
      (f.loop g.dependents fuel done).Perm g.keys := by
  induction fuel generalizing f done with
  | zero =>
    refine ⟨h.legal, ?_⟩
    have hsub : done.Subperm g.keys := List.subperm_of_subset h.nodup h.known
    refine hsub.perm_of_length_le ?_
    rw [Graph.keys, List.length_map]
    omega
  | succ fuel ih =>
    rw [Frontier.loop]
    split
    · rename_i hnil
      have hlt : done.length < g.keys.length := by
        rw [Graph.keys, List.length_map]
        omega
      obtain ⟨k, hk, hnew⟩ : ∃ k ∈ g.keys, k ∉ done := by
        by_contra hnone
        push Not at hnone
        have := (List.subperm_of_subset hkeys hnone).length_le
        omega
      exact absurd hnil (h.ready_ne_nil hl hlegal hk hnew)
    · rename_i k rest hready
      refine ih (h.round hkeys hready) ?_
      rw [List.length_append, List.length_singleton]
      omega

section Order

variable (hkeys : g.keys.Nodup) {l : List κ} (hl : l.Perm g.keys) (hlegal : Legal g.deps l)

include hkeys hl hlegal

/-- Where there is a legal order, the algorithm returns one. -/
theorem order_legal : Legal g.deps g.order :=
  ((counted_frontier hkeys).loop hkeys hl hlegal (by simp)).1

/-- Where there is a legal order, the algorithm returns all tasks. -/
theorem order_perm : g.order.Perm g.keys :=
  ((counted_frontier hkeys).loop hkeys hl hlegal (by simp)).2

/-- Where there is a legal order, no dependency is missing. -/
theorem missing_eq_none : g.missing = none := by
  rw [missing, List.findSome?_eq_none_iff]
  intro s hs
  rw [Option.map_eq_none_iff, List.find?_eq_none]
  intro d hd
  obtain ⟨pre, post, hsplit⟩ := List.append_of_mem (hl.symm.subset (List.mem_map_of_mem hs))
  have hin : d ∈ pre := hlegal pre s.1 post hsplit d (by rwa [deps_of_mem hkeys hs])
  have hkey : d ∈ g.keys := hl.subset (by simp [hsplit, hin])
  simpa using hkey

end Order

end Graph

end Graphlab.Lib
