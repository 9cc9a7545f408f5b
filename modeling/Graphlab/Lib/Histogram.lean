import Mathlib.Algebra.BigOperators.Group.List.Basic
import Mathlib.Algebra.Order.BigOperators.Group.List
import Mathlib.Algebra.Module.NatInt
import Mathlib.Data.List.Sort
import Mathlib.Data.List.TakeWhile
import Mathlib.Tactic.Ring

/-!
# Histograms

Numbers counted by the bounds that they exceed.  A histogram with `k` bounds has `k + 1`
buckets: the last one is for what exceeds all bounds.

Which sums the numbers of a histogram can have is said by two bounds, and every sum in between
is that of some numbers; if the last bucket is not empty there is no upper bound.  A scan of
the buckets finds the one of the number with a given rank.

## Main definitions

* `bucket`, `tally` — the bucket of a number, and the buckets of numbers.
* `minSum`, `maxSum` — the least and the greatest sum; `exists_samples_iff`.
* `smallest`, `quantile` — the number with a rank, and the scan for it; `quantile_spec`.
-/

namespace Graphlab.Lib

variable {b lo : ℕ} {bs ns xs : List ℕ}

/-! ## Buckets -/

/-- The number of the first bound that a number does not exceed. -/
def bucket (bs : List ℕ) (v : ℕ) : ℕ := (bs.takeWhile (· < v)).length

/-- How many numbers fall into each bucket. -/
def tally (bs xs : List ℕ) : List ℕ :=
  (List.range (bs.length + 1)).map fun i => xs.countP (bucket bs · == i)

theorem bucket_cons_eq_zero {v : ℕ} : bucket (b :: bs) v = 0 ↔ v ≤ b := by
  by_cases h : b < v
  · simp [bucket, h]
  · simp [bucket, h, not_lt.mp h]

theorem bucket_cons_eq_succ {v i : ℕ} : bucket (b :: bs) v = i + 1 ↔ b < v ∧ bucket bs v = i := by
  by_cases h : b < v <;> simp [bucket, h]

@[simp] theorem length_tally : (tally bs xs).length = bs.length + 1 := by simp [tally]

@[simp] theorem tally_nil_left : tally [] xs = [xs.length] := by
  have hall : ∀ v ∈ xs, (bucket [] v == 0) = true := fun _ _ => rfl
  simp [tally, List.countP_eq_length.mpr hall]

theorem tally_nil_right : tally bs [] = List.replicate (bs.length + 1) 0 := by
  simp [tally]

/-- The first bucket has what does not exceed the first bound; the others have the rest. -/
theorem tally_cons_left :
    tally (b :: bs) xs = xs.countP (· ≤ b) :: tally bs (xs.filter (b < ·)) := by
  rw [tally, List.length_cons, List.range_succ_eq_map, List.map_cons, List.map_map, tally]
  congr 1
  · refine List.countP_congr fun v _ => ?_
    rw [beq_iff_eq, bucket_cons_eq_zero, decide_eq_true_eq]
  · refine List.map_congr_left fun i _ => ?_
    rw [Function.comp_apply, List.countP_filter]
    refine List.countP_congr fun v _ => ?_
    simp only [beq_iff_eq, Nat.succ_eq_add_one, bucket_cons_eq_succ, Bool.and_eq_true,
      decide_eq_true_eq, and_comm]

/-- One more number adds one to its bucket. -/
theorem tally_cons_right (v : ℕ) :
    tally bs (v :: xs) = (tally bs xs).modify (bucket bs v) (· + 1) := by
  refine List.ext_getElem (by simp) fun i hi hi' => ?_
  rw [List.getElem_modify]
  simp only [tally, List.getElem_map, List.getElem_range, List.countP_cons]
  by_cases h : bucket bs v = i <;> simp [h]

theorem tally_perm {ys : List ℕ} (h : xs.Perm ys) : tally bs xs = tally bs ys :=
  List.map_congr_left fun _ _ => h.countP_eq _

/-- All numbers are counted. -/
theorem sum_tally : (tally bs xs).sum = xs.length := by
  induction bs generalizing xs with
  | nil => simp
  | cons b bs ih =>
    rw [tally_cons_left, List.sum_cons, ih, ← List.countP_eq_length_filter]
    have := List.length_eq_countP_add_countP (fun v => decide (v ≤ b)) (l := xs)
    simpa using this.symm

/-! ## Sums -/

/-- The least sum of numbers from `lo` on with these buckets. -/
def minSum : ℕ → List ℕ → List ℕ → ℕ
  | lo, b :: bs, n :: ns => n * lo + minSum (b + 1) bs ns
  | lo, [], n :: _ => n * lo
  | _, _, [] => 0

/-- The greatest sum of numbers with these buckets, the last one apart. -/
def maxSum : List ℕ → List ℕ → ℕ
  | b :: bs, n :: ns => n * b + maxSum bs ns
  | _, _ => 0

/-- The last bucket. -/
def overflow (bs ns : List ℕ) : ℕ := ns.getD bs.length 0

/-- A list of numbers splits at a bound. -/
theorem sum_filter_add (b : ℕ) (xs : List ℕ) :
    (xs.filter (· ≤ b)).sum + (xs.filter (b < ·)).sum = xs.sum := by
  induction xs with
  | nil => rfl
  | cons v xs ih =>
    by_cases h : v ≤ b
    · rw [List.filter_cons_of_pos (by simpa using h), List.filter_cons_of_neg (by simpa using h),
        List.sum_cons, List.sum_cons]
      omega
    · rw [List.filter_cons_of_neg (by simpa using h), List.filter_cons_of_pos (by simpa using h),
        List.sum_cons, List.sum_cons]
      omega

theorem minSum_le (h : ∀ v ∈ xs, lo ≤ v) : minSum lo bs (tally bs xs) ≤ xs.sum := by
  induction bs generalizing lo xs with
  | nil =>
    rw [tally_nil_left, minSum, ← smul_eq_mul]
    exact List.card_nsmul_le_sum xs lo h
  | cons b bs ih =>
    rw [tally_cons_left, minSum, ← sum_filter_add b, List.countP_eq_length_filter]
    refine Nat.add_le_add ?_ (ih fun v hv => ?_)
    · rw [← smul_eq_mul]
      exact List.card_nsmul_le_sum _ lo fun v hv => h v (List.mem_filter.mp hv).1
    · have := (List.mem_filter.mp hv).2
      exact Nat.succ_le_of_lt (by simpa using this)

theorem le_maxSum (h : overflow bs (tally bs xs) = 0) : xs.sum ≤ maxSum bs (tally bs xs) := by
  induction bs generalizing xs with
  | nil =>
    have : xs = [] := by simpa [overflow] using h
    simp [this]
  | cons b bs ih =>
    rw [tally_cons_left] at h ⊢
    rw [maxSum, ← sum_filter_add b, List.countP_eq_length_filter]
    refine Nat.add_le_add ?_ (ih h)
    rw [← smul_eq_mul]
    refine List.sum_le_card_nsmul _ b fun v hv => ?_
    have := (List.mem_filter.mp hv).2
    simpa using this

/-- Numbers in a range with any sum that the range allows. -/
theorem exists_sum_range {n s : ℕ} (hlo : n * lo ≤ s) (hhi : s ≤ n * b) (hle : lo ≤ b) :
    ∃ xs : List ℕ, xs.length = n ∧ (∀ v ∈ xs, lo ≤ v ∧ v ≤ b) ∧ xs.sum = s := by
  induction n generalizing s with
  | zero => exact ⟨[], rfl, by simp, by simp at hhi; simp [hhi]⟩
  | succ n ih =>
    rw [Nat.succ_mul] at hlo hhi
    -- the first number is as large as the others allow
    obtain ⟨v, hv, hlo', hhi'⟩ : ∃ v, (lo ≤ v ∧ v ≤ b) ∧ n * lo + v ≤ s ∧ s ≤ n * b + v := by
      have hmul : n * lo ≤ n * b := Nat.mul_le_mul_left n hle
      rcases Nat.le_total (s - n * lo) b with h | h
      · exact ⟨s - n * lo, ⟨by omega, h⟩, by omega, by omega⟩
      · exact ⟨b, ⟨hle, le_rfl⟩, by omega, hhi⟩
    obtain ⟨xs, hlength, hrange, hsum⟩ := ih (s := s - v) (by omega) (by omega)
    refine ⟨v :: xs, by simp [hlength], ?_, ?_⟩
    · exact List.forall_mem_cons.mpr ⟨hv, hrange⟩
    · rw [List.sum_cons, hsum]
      omega

theorem minSum_le_maxSum (hlo : ∀ b ∈ bs, lo ≤ b) (hbs : bs.Pairwise (· < ·))
    (hlength : ns.length = bs.length + 1) (hlast : overflow bs ns = 0) :
    minSum lo bs ns ≤ maxSum bs ns := by
  induction bs generalizing lo ns with
  | nil =>
    obtain ⟨n, rfl⟩ := List.length_eq_one_iff.mp hlength
    have : n = 0 := hlast
    simp [this, minSum]
  | cons b bs ih =>
    cases ns with
    | nil => simp at hlength
    | cons n ns =>
      obtain ⟨hb, hbs⟩ := List.pairwise_cons.mp hbs
      rw [minSum, maxSum]
      refine Nat.add_le_add (Nat.mul_le_mul_left n (hlo b (List.mem_cons_self ..))) ?_
      exact ih (fun c hc => hb c hc) hbs (by simpa using hlength) hlast

/-- **Sums of histograms.**  Numbers with given buckets and a given sum exist if and only if the
sum is not below the least one, nor above the greatest one if the last bucket is empty. -/
theorem exists_samples_iff {s : ℕ} (hlo : ∀ b ∈ bs, lo ≤ b) (hbs : bs.Pairwise (· < ·))
    (hlength : ns.length = bs.length + 1) :
    (∃ xs : List ℕ, (∀ v ∈ xs, lo ≤ v) ∧ tally bs xs = ns ∧ xs.sum = s) ↔
      minSum lo bs ns ≤ s ∧ (0 < overflow bs ns ∨ s ≤ maxSum bs ns) := by
  constructor
  · rintro ⟨xs, hxs, rfl, rfl⟩
    refine ⟨minSum_le hxs, ?_⟩
    rcases Nat.eq_zero_or_pos (overflow bs (tally bs xs)) with hzero | hpos
    · exact .inr (le_maxSum hzero)
    · exact .inl hpos
  rintro ⟨hmin, hmax⟩
  induction bs generalizing lo ns s with
  | nil =>
    obtain ⟨n, rfl⟩ := List.length_eq_one_iff.mp hlength
    change n * lo ≤ s at hmin
    change 0 < n ∨ s ≤ 0 at hmax
    cases n with
    | zero => exact ⟨[], by simp, by simp, by simp; omega⟩
    | succ n =>
      rw [Nat.succ_mul] at hmin
      refine ⟨(s - n * lo) :: List.replicate n lo, ?_, by simp, ?_⟩
      · refine List.forall_mem_cons.mpr ⟨by omega, fun v hv => ?_⟩
        exact (List.eq_of_mem_replicate hv).ge
      · rw [List.sum_cons, List.sum_replicate, smul_eq_mul]
        omega
  | cons b bs ih =>
    cases ns with
    | nil => simp at hlength
    | cons n ns =>
      obtain ⟨hb, hbs⟩ := List.pairwise_cons.mp hbs
      have hlength : ns.length = bs.length + 1 := by simpa using hlength
      have hle : lo ≤ b := hlo b (List.mem_cons_self ..)
      have hmul : n * lo ≤ n * b := Nat.mul_le_mul_left n hle
      rw [minSum] at hmin
      change 0 < overflow bs ns ∨ s ≤ n * b + maxSum bs ns at hmax
      -- what the first bucket adds is as large as the rest allows
      obtain ⟨s₁, s₂, rfl, hlo₁, hhi₁, hlo₂, hhi₂⟩ : ∃ s₁ s₂, s₁ + s₂ = s ∧ n * lo ≤ s₁ ∧
          s₁ ≤ n * b ∧ minSum (b + 1) bs ns ≤ s₂ ∧
          (0 < overflow bs ns ∨ s₂ ≤ maxSum bs ns) := by
        rcases Nat.le_total (s - minSum (b + 1) bs ns) (n * b) with h | h
        · refine ⟨s - minSum (b + 1) bs ns, minSum (b + 1) bs ns, by omega, by omega, h,
            le_rfl, ?_⟩
          rcases Nat.eq_zero_or_pos (overflow bs ns) with hzero | hpos
          · exact .inr (minSum_le_maxSum (fun c hc => hb c hc) hbs hlength hzero)
          · exact .inl hpos
        · exact ⟨n * b, s - n * b, by omega, hmul, le_rfl, by omega,
            hmax.imp_right fun h => by omega⟩
      obtain ⟨ys, hlengthY, hrangeY, rfl⟩ := exists_sum_range hlo₁ hhi₁ hle
      obtain ⟨zs, hrangeZ, htallyZ, rfl⟩ := ih (fun c hc => hb c hc) hbs hlength hlo₂ hhi₂
      refine ⟨ys ++ zs, fun v hv => ?_, ?_, List.sum_append⟩
      · rcases List.mem_append.mp hv with hv | hv
        · exact (hrangeY v hv).1
        · exact hle.trans (Nat.le_of_succ_le (hrangeZ v hv))
      · have hyle : ∀ v ∈ ys, v ≤ b := fun v hv => (hrangeY v hv).2
        have hzlt : ∀ v ∈ zs, b < v := hrangeZ
        rw [tally_cons_left, List.countP_append, List.filter_append,
          List.countP_eq_length.mpr (by simpa using hyle),
          List.countP_eq_zero.mpr (by simpa using hzlt),
          List.filter_eq_nil_iff.mpr (by simpa using hyle),
          List.filter_eq_self.mpr (by simpa using hzlt), List.nil_append, htallyZ, hlengthY,
          add_zero]

/-! ## Ranks -/

/-- The number with a rank among the others, from the least one. -/
def smallest (k : ℕ) (xs : List ℕ) : Option ℕ := (xs.insertionSort (· ≤ ·))[k - 1]?

/-- Add up buckets until a rank is reached: the bound of the bucket, `none` for the last one. -/
def quantile (rank : ℕ) : ℕ → List ℕ → List ℕ → Option (Option ℕ)
  | cumulative, b :: bs, n :: ns =>
    if rank ≤ cumulative + n then some (some b) else quantile rank (cumulative + n) bs ns
  | cumulative, [], n :: _ => if rank ≤ cumulative + n then some none else none
  | _, _, [] => none

/-- The scan does not look at the bounds. -/
theorem quantile_map (f : ℕ → ℕ) {rank cumulative : ℕ} :
    quantile rank cumulative (bs.map f) ns =
      (quantile rank cumulative bs ns).map (Option.map f) := by
  induction bs generalizing cumulative ns with
  | nil =>
    cases ns with
    | nil => rfl
    | cons =>
      rw [List.map_nil, quantile]
      split <;> rfl
  | cons b bs ih =>
    cases ns with
    | nil => rfl
    | cons =>
      rw [List.map_cons, quantile, quantile]
      split
      · rfl
      · exact ih

variable {l : List ℕ}

theorem countP_le_eq_zero {v : ℕ} (hv : ∀ w ∈ l, v ≤ w) (h : b < v) : l.countP (· ≤ b) = 0 := by
  refine List.countP_eq_zero.mpr fun w hw => ?_
  have := hv w hw
  simp only [decide_eq_true_eq]
  omega

theorem getElem_le_iff (hl : l.Pairwise (· ≤ ·)) {k : ℕ} (hk : k < l.length) :
    l[k] ≤ b ↔ k < l.countP (· ≤ b) := by
  induction l generalizing k with
  | nil => simp at hk
  | cons v l ih =>
    obtain ⟨hv, hl⟩ := List.pairwise_cons.mp hl
    rw [List.countP_cons]
    cases k with
    | zero =>
      by_cases h : v ≤ b
      · simp [h]
      · simp [h, countP_le_eq_zero hv (not_le.mp h)]
    | succ =>
      rw [List.getElem_cons_succ, ih hl]
      by_cases h : v ≤ b
      · simp [h]
      · simp [h, countP_le_eq_zero hv (not_le.mp h)]

theorem filter_lt_eq_drop (hl : l.Pairwise (· ≤ ·)) (b : ℕ) :
    l.filter (b < ·) = l.drop (l.countP (· ≤ b)) := by
  induction l with
  | nil => rfl
  | cons v l ih =>
    obtain ⟨hv, hl⟩ := List.pairwise_cons.mp hl
    by_cases h : v ≤ b
    · rw [List.filter_cons_of_neg (by simpa using h), List.countP_cons_of_pos (by simpa using h),
        List.drop_succ_cons, ih hl]
    · have hall : ∀ w ∈ v :: l, b < w :=
        List.forall_mem_cons.mpr ⟨by omega, fun w hw => by have := hv w hw; omega⟩
      rw [List.filter_eq_self.mpr (by simpa using hall),
        List.countP_eq_zero.mpr (by simpa using hall), List.drop_zero]

/-- **Ranks.**  The scan finds the bucket of the number with the rank among the sorted ones. -/
theorem quantile_spec (hl : l.Pairwise (· ≤ ·)) (hbs : bs.Pairwise (· < ·)) {rank cumulative k : ℕ}
    (hk : k < l.length) (hrank : rank = cumulative + k + 1) :
    (∃ u ∈ bs, quantile rank cumulative bs (tally bs l) = some (some u) ∧ l[k] ≤ u ∧
      ∀ b ∈ bs, b < u → b < l[k]) ∨
    (quantile rank cumulative bs (tally bs l) = some none ∧ ∀ b ∈ bs, b < l[k]) := by
  induction bs generalizing l cumulative k with
  | nil =>
    refine .inr ⟨?_, by simp⟩
    rw [tally_nil_left, quantile, if_pos (by omega)]
  | cons b bs ih =>
    obtain ⟨hb, hbs⟩ := List.pairwise_cons.mp hbs
    rw [tally_cons_left, quantile]
    by_cases hle : l[k] ≤ b
    · have := (getElem_le_iff hl hk).mp hle
      refine .inl ⟨b, List.mem_cons_self .., if_pos (by omega), hle, fun c hc hlt => ?_⟩
      rcases List.mem_cons.mp hc with rfl | hc
      · omega
      · exact absurd (hb c hc) (by omega)
    · have hge := mt (getElem_le_iff hl hk).mpr hle
      have hlt : b < l[k] := by omega
      have hdrop : l.filter (b < ·) = l.drop (l.countP (· ≤ b)) := filter_lt_eq_drop hl b
      have hk' : k - l.countP (· ≤ b) < (l.drop (l.countP (· ≤ b))).length := by
        rw [List.length_drop]
        omega
      have hget : (l.drop (l.countP (· ≤ b)))[k - l.countP (· ≤ b)] = l[k] := by
        simp only [List.getElem_drop, Nat.add_sub_cancel' (not_lt.mp hge)]
      have hrank' : rank =
          cumulative + l.countP (· ≤ b) + (k - l.countP (· ≤ b)) + 1 := by omega
      have hrest := ih (hl.sublist (List.drop_sublist _ l)) hbs hk' hrank'
      rw [hget] at hrest
      rw [if_neg (by omega), hdrop]
      rcases hrest with ⟨u, hu, hfound, hle', hbelow⟩ | ⟨hfound, hbelow⟩
      · exact .inl ⟨u, List.mem_cons_of_mem _ hu, hfound, hle',
          List.forall_mem_cons.mpr ⟨fun _ => hlt, hbelow⟩⟩
      · exact .inr ⟨hfound, List.forall_mem_cons.mpr ⟨hlt, hbelow⟩⟩

end Graphlab.Lib
