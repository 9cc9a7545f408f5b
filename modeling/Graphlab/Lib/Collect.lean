import Graphlab.Lib.Fallible
import Mathlib.Data.List.Forall2
import Mathlib.Data.List.Perm.Basic
import Mathlib.Data.List.Sort

/-!
# Loops that check and collect

A loop over a list that checks each element against those before it, stops at the first
that fails, and returns what it made of each.  If an element fails only by itself or
against one other element, the loop succeeds exactly if each element passes and every two
results are compatible, so the order of the elements does not matter.

## Main definitions

* `collect` — the loop; `collect_eq_ok` — when it returns.
* `each` — a loop for its checks alone.
* `sortOn` — elements in the order of their keys; `unique` — without repetitions.
-/

namespace Graphlab.Lib

variable {ε α β : Type}

/-! ## Elements in their places -/

section Places

variable {P : α → β → Prop} {as : List α} {bs : List β}

theorem exists_of_mem_left (h : List.Forall₂ P as bs) {a : α} (ha : a ∈ as) :
    ∃ b ∈ bs, P a b := by
  obtain ⟨_, hi, rfl⟩ := List.getElem_of_mem ha
  exact ⟨_, List.getElem_mem _, h.get hi (h.length_eq ▸ hi)⟩

theorem exists_of_mem_right (h : List.Forall₂ P as bs) {b : β} (hb : b ∈ bs) :
    ∃ a ∈ as, P a b := by
  obtain ⟨_, hi, rfl⟩ := List.getElem_of_mem hb
  exact ⟨_, List.getElem_mem _, h.get (h.length_eq ▸ hi) hi⟩

/-- Pairs of elements of which more is known on the right. -/
theorem forall₂_imp_of_mem {R : α → β → Prop} (h : List.Forall₂ P as bs)
    (himp : ∀ a, ∀ b ∈ bs, P a b → R a b) : List.Forall₂ R as bs := by
  induction h with
  | nil => exact .nil
  | cons hab _ ih =>
    refine .cons (himp _ _ (List.mem_cons_self ..) hab) (ih fun a b hb => ?_)
    exact himp a b (List.mem_cons_of_mem _ hb)

theorem forall₂_trans {R : α → α → Prop} [IsTrans α R] {as bs cs : List α}
    (h : List.Forall₂ R as bs) (h' : List.Forall₂ R bs cs) : List.Forall₂ R as cs := by
  induction h generalizing cs with
  | nil =>
    cases h'
    exact .nil
  | cons hab _ ih =>
    cases h' with
    | cons hbc hrest => exact .cons (Trans.trans hab hbc) (ih hrest)

end Places

/-! ## The loop -/

/-- Go through a list; `f` sees what was made of the elements before. -/
def collect (f : List β → α → Except ε β) : List α → List β → Except ε (List β)
  | [], done => .ok done
  | a :: rest, done => do
      let b ← f done a
      collect f rest (done ++ [b])

/-- The checks of a loop: `P` of an element and what is made of it, `R` of two results. -/
def Checks (f : List β → α → Except ε β) (P : α → β → Prop) (R : β → β → Prop) : Prop :=
  ∀ done a b, f done a = .ok b ↔ P a b ∧ ∀ d ∈ done, R d b

section Collect

variable {f : List β → α → Except ε β} {P : α → β → Prop} {R : β → β → Prop}

theorem collect_append (h : Checks f P R) {as : List α} {done bs : List β} :
    collect f as done = .ok bs ↔
      ∃ new, bs = done ++ new ∧ List.Forall₂ P as new ∧ new.Pairwise R ∧
        ∀ d ∈ done, ∀ b ∈ new, R d b := by
  induction as generalizing done with
  | nil =>
    simp only [collect, Except.ok.injEq, List.forall₂_nil_left_iff]
    constructor
    · rintro rfl
      exact ⟨[], by simp, rfl, .nil, by simp⟩
    · rintro ⟨new, rfl, rfl, -⟩
      simp
  | cons a rest ih =>
    rw [collect, bind_eq_ok]
    constructor
    · rintro ⟨b, hb, hrest⟩
      obtain ⟨hP, hR⟩ := (h done a b).mp hb
      obtain ⟨new, rfl, hall, hpair, hdone⟩ := ih.mp hrest
      refine ⟨b :: new, by simp, .cons hP hall, ?_, ?_⟩
      · exact List.pairwise_cons.mpr ⟨fun c hc => hdone b (by simp) c hc, hpair⟩
      · intro d hd c hc
        rcases List.mem_cons.mp hc with rfl | hc
        · exact hR d hd
        · exact hdone d (List.mem_append_left _ hd) c hc
    · rintro ⟨new, rfl, hall, hpair, hdone⟩
      cases hall with
      | cons hP hall =>
        rename_i b new
        obtain ⟨hb, hpair⟩ := List.pairwise_cons.mp hpair
        refine ⟨b, (h done a b).mpr ⟨hP, fun d hd => hdone d hd b (by simp)⟩, ?_⟩
        refine ih.mpr ⟨new, by simp, hall, hpair, ?_⟩
        intro d hd c hc
        rcases List.mem_append.mp hd with hd | hd
        · exact hdone d hd c (List.mem_cons_of_mem _ hc)
        · rw [List.mem_singleton.mp hd]
          exact hb c hc

/-- The loop returns if each element passes and the results are compatible. -/
theorem collect_eq_ok (h : Checks f P R) {as : List α} {bs : List β} :
    collect f as [] = .ok bs ↔ List.Forall₂ P as bs ∧ bs.Pairwise R := by
  rw [collect_append h]
  constructor
  · rintro ⟨new, rfl, hall, hpair, -⟩
    exact ⟨hall, hpair⟩
  · rintro ⟨hall, hpair⟩
    exact ⟨bs, rfl, hall, hpair, by simp⟩

/-- Each result was made of the element in its place. -/
theorem collect_made {as : List α} {done bs : List β} (h : collect f as done = .ok bs) :
    ∃ new, bs = done ++ new ∧ List.Forall₂ (fun a b => ∃ done, f done a = .ok b) as new := by
  induction as generalizing done with
  | nil =>
    cases h
    exact ⟨[], by simp, .nil⟩
  | cons a rest ih =>
    obtain ⟨b, hb, hrest⟩ := bind_eq_ok.mp h
    obtain ⟨new, rfl, hall⟩ := ih hrest
    exact ⟨b :: new, by simp, .cons ⟨done, hb⟩ hall⟩

/-- An element may be replaced by one of which the same is made. -/
theorem collect_replace {a a' : α} (h : ∀ done b, f done a = .ok b ↔ f done a' = .ok b)
    (pre post : List α) {done bs : List β} :
    collect f (pre ++ a :: post) done = .ok bs ↔ collect f (pre ++ a' :: post) done = .ok bs := by
  induction pre generalizing done with
  | nil =>
    simp only [List.nil_append, collect, bind_eq_ok]
    exact exists_congr fun b => and_congr_left fun _ => h done b
  | cons c pre ih =>
    simp only [List.cons_append, collect, bind_eq_ok]
    exact exists_congr fun b => and_congr_right fun _ => ih

/-- The order of the elements does not matter. -/
theorem collect_perm (h : Checks f P R) (hR : ∀ b c, R b c → R c b) {as as' : List α}
    {bs : List β} (hperm : as.Perm as') (hbs : collect f as [] = .ok bs) :
    ∃ bs', bs.Perm bs' ∧ collect f as' [] = .ok bs' := by
  obtain ⟨hall, hpair⟩ := (collect_eq_ok h).mp hbs
  obtain ⟨bs', hall', hperm'⟩ := List.perm_comp_forall₂ hperm.symm hall
  refine ⟨bs', hperm'.symm, (collect_eq_ok h).mpr ⟨hall', ?_⟩⟩
  exact (hperm'.symm.pairwise_iff fun {b c} => hR b c).mp hpair

/-- A loop that passed goes through what it made of its elements, in any order. -/
theorem collect_again (h : Checks f P R) (hR : ∀ b c, R b c → R c b) {as : List α}
    {bs bs' : List β} {back : β → α} (hback : ∀ a b, P a b → P (back b) b)
    (hperm : bs.Perm bs') (hbs : collect f as [] = .ok bs) :
    collect f (bs'.map back) [] = .ok bs' := by
  obtain ⟨hall, hpair⟩ := (collect_eq_ok h).mp hbs
  refine (collect_eq_ok h).mpr ⟨?_, (hperm.pairwise_iff fun {b c} => hR b c).mp hpair⟩
  rw [List.forall₂_map_left_iff, List.forall₂_same]
  intro b hb
  obtain ⟨a, -, ha⟩ := exists_of_mem_right hall (hperm.symm.subset hb)
  exact hback a b ha

end Collect

/-- Go through a list for the checks alone. -/
def each (f : α → Except ε Unit) : List α → Except ε Unit
  | [] => .ok ()
  | a :: rest => do
      f a
      each f rest

theorem each_eq_ok {f : α → Except ε Unit} {l : List α} {u : Unit} :
    each f l = .ok u ↔ ∀ a ∈ l, f a = .ok () := by
  induction l with
  | nil => simp [each]
  | cons a rest ih =>
    rw [each, bind_eq_ok, List.forall_mem_cons, ← ih]
    exact ⟨fun ⟨_, ha, hrest⟩ => ⟨ha, hrest⟩, fun ⟨ha, hrest⟩ => ⟨(), ha, hrest⟩⟩

/-! ## Sorting -/

/-- The elements in the order of their keys. -/
def sortOn {κ : Type} [LinearOrder κ] (key : β → κ) (l : List β) : List β :=
  l.mergeSort fun a b => decide (key a ≤ key b)

section SortOn

variable {κ : Type} [LinearOrder κ] {key : β → κ} {l l' : List β}

theorem sortOn_perm (key : β → κ) (l : List β) : (sortOn key l).Perm l :=
  List.mergeSort_perm l _

theorem pairwise_sortOn (key : β → κ) (l : List β) :
    (sortOn key l).Pairwise fun a b => key a ≤ key b := by
  have hsorted : (sortOn key l).Pairwise fun a b => decide (key a ≤ key b) = true := by
    refine List.pairwise_mergeSort ?_ ?_ l
    · intro a b c hab hbc
      exact decide_eq_true ((of_decide_eq_true hab).trans (of_decide_eq_true hbc))
    · intro a b
      simpa using le_total (key a) (key b)
  exact hsorted.imp of_decide_eq_true

/-- Two sorted lists with the same elements, whose keys are all different, are the same. -/
theorem eq_of_sorted (hperm : l.Perm l') (hdistinct : (l.map key).Nodup)
    (hl : l.Pairwise fun a b => key a ≤ key b) (hl' : l'.Pairwise fun a b => key a ≤ key b) :
    l = l' := by
  refine hperm.eq_of_pairwise (fun a b ha hb hab hba => ?_) hl hl'
  exact List.inj_on_of_nodup_map hdistinct ha (hperm.symm.subset hb) (le_antisymm hab hba)

theorem sortOn_eq_of_perm (hperm : l.Perm l') (hdistinct : (l.map key).Nodup) :
    sortOn key l = sortOn key l' := by
  have hall : (sortOn key l).Perm (sortOn key l') :=
    (sortOn_perm key l).trans (hperm.trans (sortOn_perm key l').symm)
  refine eq_of_sorted hall ?_ (pairwise_sortOn key l) (pairwise_sortOn key l')
  exact ((sortOn_perm key l).map key).nodup_iff.mpr hdistinct

theorem sortOn_idem (hdistinct : (l.map key).Nodup) :
    sortOn key (sortOn key l) = sortOn key l :=
  (sortOn_eq_of_perm (sortOn_perm key l).symm hdistinct).symm

end SortOn

/-- Runs of one element become one. -/
def unique [DecidableEq β] : List β → List β
  | [] => []
  | [a] => [a]
  | a :: b :: l => if a = b then unique (b :: l) else a :: unique (b :: l)

@[simp] theorem mem_unique [DecidableEq β] {x : β} {l : List β} : x ∈ unique l ↔ x ∈ l := by
  induction l using unique.induct with
  | case1 => rfl
  | case2 => rfl
  | case3 b l ih => simp [unique, ih]
  | case4 a b l h ih => simp [unique, h, ih]

end Graphlab.Lib
