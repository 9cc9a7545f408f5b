import Mathlib.Data.List.Sort
import Mathlib.Data.List.Induction
import Mathlib.Data.List.Nodup

/-!
# The newest of a collection

Keys of a linear order, the larger the newer.  A key is *beyond* the newest `n` of a list
if at least `n` of the list are larger.  A database finds these keys by the one at place
`n` in descending order; an ordered map that is to hold `n` entries drops its first.

## Main definitions

* `above l x` — how many of `l` are larger than `x`.
* `ranked n l` — the key at place `n` in descending order.
* `emplace`, `Window.add` — an ordered map that keeps the newest.
-/

namespace Graphlab.Lib

variable {α β : Type} [LinearOrder α]

/-! ## Ranks -/

/-- How many of `l` are larger than `x`. -/
def above (l : List α) (x : α) : ℕ := (l.filter fun y => decide (x < y)).length

/-- The list in descending order. -/
def descending (l : List α) : List α := l.mergeSort fun a b => decide (b ≤ a)

/-- The key at place `n` in descending order. -/
def ranked (n : ℕ) (l : List α) : Option α := (descending l)[n]?

theorem descending_perm (l : List α) : (descending l).Perm l := List.mergeSort_perm l _

theorem pairwise_descending (l : List α) : (descending l).Pairwise fun a b => b ≤ a := by
  have h := @List.pairwise_mergeSort α (fun a b : α => decide (b ≤ a))
    (fun a b c hab hbc => by
      simp only [decide_eq_true_eq] at hab hbc ⊢
      exact hbc.trans hab)
    (fun a b => by simpa using le_total b a) l
  simpa [descending] using h

variable {l : List α} {n : ℕ} {k : α} {v : β} {m : List (α × β)}

theorem above_perm {m : List α} (h : l.Perm m) (x : α) : above l x = above m x :=
  (h.filter _).length_eq

theorem above_append (l m : List α) (x : α) : above (l ++ m) x = above l x + above m x := by
  simp [above, List.filter_append]

theorem above_le_length (l : List α) (x : α) : above l x ≤ l.length := List.length_filter_le _ _

theorem above_eq_zero {x : α} (h : ∀ y ∈ l, y ≤ x) : above l x = 0 := by
  rw [above, List.length_eq_zero_iff, List.filter_eq_nil_iff]
  intro y hy
  simpa using h y hy

theorem above_eq_length {x : α} (h : ∀ y ∈ l, x < y) : above l x = l.length := by
  rw [above, List.filter_eq_self.mpr]
  intro y hy
  simpa using h y hy

/-- A key of the list is not above itself. -/
theorem above_lt_length {x : α} (hx : x ∈ l) : above l x < l.length := by
  rw [above, List.length_filter_lt_length_iff_exists]
  exact ⟨x, hx, by simp⟩

/-- One that is no longer counted, and none that was not. -/
theorem countP_lt {γ : Type} {p q : γ → Bool} {l : List γ} (h : ∀ x ∈ l, p x = true → q x = true)
    {x : γ} (hx : x ∈ l) (hq : q x = true) (hp : p x = false) : l.countP p < l.countP q := by
  obtain ⟨_, _, rfl⟩ := List.append_of_mem hx
  have hbefore := List.countP_mono_left fun y hy => h y (List.mem_append_left _ hy)
  have hafter := List.countP_mono_left fun y hy =>
    h y (List.mem_append_right _ (List.mem_cons_of_mem _ hy))
  rw [List.countP_append, List.countP_append, List.countP_cons_of_pos hq,
    List.countP_cons_of_neg (by simp [hp])]
  omega

theorem ranked_eq_none : ranked n l = none ↔ l.length ≤ n := by
  rw [ranked, List.getElem?_eq_none_iff, (descending_perm l).length_eq]

/-- What stands before and after the key at place `n`. -/
theorem ranked_split (h : ranked n l = some k) :
    ∃ newer older, l.Perm (newer ++ k :: older) ∧ newer.length = n ∧
      (∀ x ∈ newer, k ≤ x) ∧ ∀ x ∈ older, x ≤ k := by
  obtain ⟨hlt, hk⟩ := List.getElem?_eq_some_iff.mp h
  have hsplit : descending l = (descending l).take n ++ k :: (descending l).drop (n + 1) := by
    rw [← hk, ← List.drop_eq_getElem_cons hlt, List.take_append_drop]
  have hsorted := pairwise_descending l
  rw [hsplit, List.pairwise_append, List.pairwise_cons] at hsorted
  refine ⟨_, _, (hsplit ▸ descending_perm l).symm, ?_, ?_, hsorted.2.1.1⟩
  · rw [List.length_take]
    omega
  · intro x hx
    exact hsorted.2.2 x hx k List.mem_cons_self

/-- At most `n` keys are larger than the one at place `n`. -/
theorem above_ranked_le (h : ranked n l = some k) : above l k ≤ n := by
  obtain ⟨newer, older, hperm, _, -, holder⟩ := ranked_split h
  have hzero : above (k :: older) k = 0 := above_eq_zero fun x hx => by
    rcases List.mem_cons.mp hx with rfl | hx
    · exact le_rfl
    · exact holder x hx
  have hle := above_le_length newer k
  rw [above_perm hperm, above_append, hzero]
  omega

/-- **Among distinct keys, those up to the one at place `n` are those beyond the newest `n`.** -/
theorem le_ranked_iff {x : α} (hl : l.Nodup) (h : ranked n l = some k)
    (hx : x ∈ l) : x ≤ k ↔ n ≤ above l x := by
  obtain ⟨newer, older, hperm, _, hnewer, holder⟩ := ranked_split h
  have hnodup : (newer ++ k :: older).Nodup := hperm.nodup_iff.mp hl
  rw [List.nodup_append] at hnodup
  have hlt : ∀ y ∈ newer, k < y := fun y hy =>
    lt_of_le_of_ne (hnewer y hy) fun heq => hnodup.2.2 y hy k List.mem_cons_self heq.symm
  rw [above_perm hperm, above_append]
  constructor
  · intro hxk
    rw [above_eq_length fun y hy => lt_of_le_of_lt hxk (hlt y hy)]
    omega
  · intro hn
    by_contra hkx
    have hkx := lt_of_not_ge hkx
    have hzero : above (k :: older) x = 0 := above_eq_zero fun y hy => by
      rcases List.mem_cons.mp hy with rfl | hy
      · exact hkx.le
      · exact (holder y hy).trans hkx.le
    have hmem : x ∈ newer := by
      rcases List.mem_append.mp (hperm.mem_iff.mp hx) with hx | hx
      · exact hx
      · rcases List.mem_cons.mp hx with rfl | hx
        · exact absurd hkx (lt_irrefl _)
        · exact absurd hkx (not_lt_of_ge (holder x hx))
    have := above_lt_length hmem
    omega

/-! ## The end of a list -/

/-- The last `n` of a list. -/
def latest (n : ℕ) (l : List β) : List β := l.drop (l.length - n)

theorem latest_suffix (n : ℕ) (l : List β) : latest n l <:+ l := List.drop_suffix _ _

theorem latest_of_le {l : List β} (h : l.length ≤ n) : latest n l = l := by
  rw [latest, Nat.sub_eq_zero_of_le h, List.drop_zero]

theorem latest_append_of_le (xs : List β) {ys : List β} (h : n ≤ ys.length) :
    latest n (xs ++ ys) = latest n ys := by
  rw [latest, latest, List.length_append, Nat.add_sub_assoc h, ← List.drop_drop, List.drop_left]

theorem latest_append_eq_drop (n : ℕ) (xs ys : List β) :
    latest n xs ++ ys = (xs ++ ys).drop (xs.length - n) := by
  rw [latest, List.drop_append_of_le_length (Nat.sub_le _ _)]

/-- What comes before the last `n` does not change them. -/
theorem latest_append (n : ℕ) (xs ys : List β) :
    latest n (latest n xs ++ ys) = latest n (xs ++ ys) := by
  rw [latest_append_eq_drop, latest, latest, List.drop_drop, List.length_drop, List.length_append]
  congr 1
  omega

/-- **A search that goes on needs the end of what was searched**, one less than the length of what
is searched for. -/
theorem infix_append {needle xs ys : List β} (hn : needle.length ≤ n + 1) :
    needle <:+: xs ++ ys ↔ needle <:+: xs ∨ needle <:+: latest n xs ++ ys := by
  constructor
  · rintro ⟨before, after, h⟩
    have hlength := congrArg List.length h
    simp only [List.length_append] at hlength
    rcases le_or_gt (before.length + needle.length) xs.length with hle | hgt
    · have hprefix : before ++ needle <+: xs :=
        List.prefix_of_prefix_length_le ⟨after, h⟩ (List.prefix_append xs ys) (by simpa using hle)
      exact .inl ((List.suffix_append before needle).isInfix.trans hprefix.isInfix)
    · refine .inr ⟨before.drop (xs.length - n), after, ?_⟩
      rw [latest_append_eq_drop, ← h, List.append_assoc, List.append_assoc,
        List.drop_append_of_le_length (by omega)]
  · rintro (h | h)
    · exact h.trans (List.prefix_append xs ys).isInfix
    · rw [latest_append_eq_drop] at h
      exact h.trans (List.drop_suffix _ _).isInfix

/-! ## The end of a list in the order of its keys -/

/-- What is left of a list in ascending order when its beginning goes is what lies above a key. -/
theorem exists_cutoff {f : β → ℤ} {l kept : List β} (hl : l.Pairwise fun a b => f a < f b)
    (h : kept <:+ l) : ∃ cutoff, kept = l.filter fun b => decide (cutoff < f b) := by
  obtain ⟨gone, rfl⟩ := h
  obtain ⟨hgone, hkept, hcross⟩ := List.pairwise_append.mp hl
  -- a key between what goes and what is kept
  have hbetween : ∃ cutoff, (∀ b ∈ gone, f b ≤ cutoff) ∧ ∀ b ∈ kept, cutoff < f b := by
    rcases List.eq_nil_or_concat gone with rfl | ⟨before, last, rfl⟩
    · cases kept with
      | nil => exact ⟨0, by simp⟩
      | cons first rest =>
        refine ⟨f first - 1, by simp, fun b hb => ?_⟩
        rcases List.mem_cons.mp hb with rfl | hb
        · omega
        · have := List.rel_of_pairwise_cons hkept hb
          omega
    · rw [List.concat_eq_append] at hgone hcross ⊢
      refine ⟨f last, fun b hb => ?_, fun b hb => hcross last (by simp) b hb⟩
      rcases List.mem_append.mp hb with hb | hb
      · exact ((List.pairwise_append.mp hgone).2.2 b hb last (by simp)).le
      · rw [List.mem_singleton.mp hb]
  obtain ⟨cutoff, hbelow, habove⟩ := hbetween
  refine ⟨cutoff, ?_⟩
  rw [List.filter_append, List.filter_eq_nil_iff.mpr, List.filter_eq_self.mpr, List.nil_append]
  · exact fun b hb => decide_eq_true (habove b hb)
  · exact fun b hb => by simpa using hbelow b hb

/-! ## A map in the order of its keys -/

/-- Insert an entry unless its key is there. -/
def emplace (k : α) (v : β) : List (α × β) → List (α × β)
  | [] => [(k, v)]
  | (l, w) :: rest =>
    if k < l then (k, v) :: (l, w) :: rest
    else if k = l then (l, w) :: rest
    else (l, w) :: emplace k v rest

theorem of_mem_emplace {p : α × β} :
    ∀ {m : List (α × β)}, p ∈ emplace k v m → p = (k, v) ∨ p ∈ m
  | [], h => by simpa [emplace] using h
  | (l, w) :: rest, h => by
      rw [emplace] at h
      split_ifs at h with hlt heq
      · exact List.mem_cons.mp h
      · exact .inr h
      · rcases List.mem_cons.mp h with h | h
        · exact .inr (h ▸ List.mem_cons_self)
        · exact (of_mem_emplace h).imp_right (List.mem_cons_of_mem _)

/-- The keys stay in order, each once. -/
theorem pairwise_emplace : ∀ {m : List (α × β)},
    m.Pairwise (fun p q => p.1 < q.1) → (emplace k v m).Pairwise fun p q => p.1 < q.1
  | [], _ => by simp [emplace]
  | (l, w) :: rest, h => by
      rw [emplace]
      obtain ⟨hhead, hrest⟩ := List.pairwise_cons.mp h
      split_ifs with hlt heq
      · refine List.pairwise_cons.mpr ⟨fun q hq => ?_, h⟩
        rcases List.mem_cons.mp hq with rfl | hq
        · exact hlt
        · exact hlt.trans (hhead q hq)
      · exact h
      · refine List.pairwise_cons.mpr ⟨fun q hq => ?_, pairwise_emplace hrest⟩
        rcases of_mem_emplace hq with rfl | hq
        · exact lt_of_le_of_ne (le_of_not_gt hlt) (Ne.symm heq)
        · exact hhead q hq

/-- An ordered map of at most so many entries. -/
structure Window (α β : Type) where
  entries : List (α × β) := []
  truncated : Bool := false

/-- Insert an entry; beyond the capacity, the smallest key goes. -/
def Window.add (capacity : ℕ) (w : Window α β) (k : α) (v : β) : Window α β :=
  let entries := emplace k v w.entries
  if capacity < entries.length then ⟨entries.tail, true⟩ else { w with entries }

/-- Insert one entry after the other. -/
def Window.adds (capacity : ℕ) (w : Window α β) (xs : List (α × β)) : Window α β :=
  xs.foldl (fun w x => w.add capacity x.1 x.2) w

/-- The map without a bound. -/
def emplaces (xs : List (α × β)) (m : List (α × β)) : List (α × β) :=
  xs.foldl (fun m x => emplace x.1 x.2 m) m

theorem mem_of_mem_emplaces {xs : List (α × β)} {p : α × β} (h : p ∈ emplaces xs m) :
    p ∈ xs ∨ p ∈ m := by
  induction xs generalizing m with
  | nil => exact .inr h
  | cons x xs ih =>
    rcases ih h with h | h
    · exact .inl (List.mem_cons_of_mem x h)
    · rcases of_mem_emplace h with rfl | h
      · exact .inl List.mem_cons_self
      · exact .inr h

theorem mem_keys_emplace {l : α} :
    l ∈ (emplace k v m).map Prod.fst ↔ l = k ∨ l ∈ m.map Prod.fst := by
  induction m with
  | nil => simp [emplace]
  | cons p rest ih =>
    rw [emplace]
    split_ifs with hlt heq
    · simp
    · simp [heq]
    · simp only [List.map_cons, List.mem_cons, ih]
      tauto

theorem length_emplace (k : α) (v : β) (m : List (α × β)) :
    m.length ≤ (emplace k v m).length ∧ (emplace k v m).length ≤ m.length + 1 := by
  induction m with
  | nil => simp [emplace]
  | cons p rest ih =>
    rw [emplace]
    split_ifs
    · simp
    · simp
    · simpa using ih

/-- A key above the first part is inserted in the second. -/
theorem emplace_append_of_lt {xs : List (α × β)} (ys : List (α × β))
    (h : ∀ p ∈ xs, p.1 < k) : emplace k v (xs ++ ys) = xs ++ emplace k v ys := by
  induction xs with
  | nil => rfl
  | cons p xs ih =>
    have hp := h p List.mem_cons_self
    rw [List.cons_append, emplace, if_neg hp.le.not_gt, if_neg hp.ne',
      ih fun q hq => h q (List.mem_cons_of_mem p hq), List.cons_append]

/-- A key below the second part is inserted in the first. -/
theorem emplace_append_of_gt (xs : List (α × β)) {ys : List (α × β)}
    (h : ∀ p ∈ ys, k < p.1) : emplace k v (xs ++ ys) = emplace k v xs ++ ys := by
  induction xs with
  | nil =>
    cases ys with
    | nil => rfl
    | cons p ys => exact if_pos (h p List.mem_cons_self)
  | cons p xs ih =>
    rw [List.cons_append, emplace, emplace]
    split_ifs
    · rfl
    · rfl
    · rw [ih, List.cons_append]

/-- Beyond the capacity the window has the end of the map. -/
theorem Window.add_latest {capacity : ℕ} (k : α) (v : β) (hm : m.Pairwise fun p q => p.1 < q.1) :
    Window.add capacity ⟨latest capacity m, decide (capacity < m.length)⟩ k v =
      ⟨latest capacity (emplace k v m), decide (capacity < (emplace k v m).length)⟩ := by
  have htail : ∀ l : List (α × β), l.length = capacity + 1 → latest capacity l = l.tail := by
    intro l hl
    rw [latest, hl, Nat.add_sub_cancel_left, List.drop_one]
  rw [Window.add]
  dsimp only
  rcases le_or_gt m.length capacity with hle | hgt
  · have hlength := length_emplace k v m
    rw [latest_of_le hle]
    split_ifs with hfull
    · rw [htail _ (by omega), decide_eq_true hfull]
    · rw [latest_of_le (Nat.le_of_not_lt hfull), decide_eq_false hfull,
        decide_eq_false (Nat.not_lt.mpr hle)]
  · obtain ⟨older, kept, rfl, hkept⟩ : ∃ older kept, m = older ++ kept ∧ kept.length = capacity :=
      ⟨m.take (m.length - capacity), latest capacity m, (List.take_append_drop _ _).symm, by
        rw [latest, List.length_drop]
        omega⟩
    obtain ⟨-, _, hcross⟩ := List.pairwise_append.mp hm
    have hlong := length_emplace k v (older ++ kept)
    have hend : ∀ xs : List (α × β), latest capacity (xs ++ kept) = kept := by
      intro xs
      rw [latest_append_of_le xs hkept.ge, latest_of_le hkept.le]
    rw [hend, decide_eq_true hgt, decide_eq_true (hgt.trans_le hlong.1)]
    by_cases hbelow : ∀ p ∈ kept, k < p.1
    · have hfirst : emplace k v kept = (k, v) :: kept := emplace_append_of_gt [] hbelow
      rw [emplace_append_of_gt older hbelow, hend, hfirst, if_pos (by simp [hkept]), List.tail_cons]
    · -- the key is not below the first that is kept
      have habove : ∀ p ∈ older, p.1 < k := by
        push Not at hbelow
        obtain ⟨q, hq, hle⟩ := hbelow
        exact fun p hp => (hcross p hp q hq).trans_le hle
      have hlength := length_emplace k v kept
      rw [emplace_append_of_lt kept habove, latest_append_of_le older (by omega)]
      split_ifs with hfull
      · rw [htail _ (by omega)]
      · rw [latest_of_le (Nat.le_of_not_lt hfull)]

/-- **A window has the end of the map of all that was inserted.** -/
theorem Window.adds_eq (capacity : ℕ) (xs : List (α × β)) : Window.adds capacity {} xs =
    ⟨latest capacity (emplaces xs []), decide (capacity < (emplaces xs []).length)⟩ ∧
      (emplaces xs []).Pairwise (fun p q => p.1 < q.1) ∧
      ∀ k, k ∈ (emplaces xs []).map Prod.fst ↔ k ∈ xs.map Prod.fst := by
  induction xs using List.reverseRecOn with
  | nil => exact ⟨by simp [adds, emplaces, latest], List.Pairwise.nil, fun k => Iff.rfl⟩
  | append_singleton xs x ih =>
    obtain ⟨hadds, hsorted, hkeys⟩ := ih
    have hlast : emplaces (xs ++ [x]) [] = emplace x.1 x.2 (emplaces xs []) := by
      simp [emplaces]
    rw [hlast]
    refine ⟨?_, pairwise_emplace hsorted, fun k => ?_⟩
    · rw [← Window.add_latest _ _ hsorted, ← hadds, adds, List.foldl_append]
      rfl
    · rw [mem_keys_emplace, hkeys, List.map_append, List.mem_append, List.map_singleton,
        List.mem_singleton, or_comm]

end Graphlab.Lib
