import Graphlab.Lib.Collect
import Graphlab.Telemetry.Rates
import Mathlib.Data.List.Induction

/-!
# Rows of rates

Every derived sample is written at three resolutions.  A row of ten seconds or a minute collects the
samples whose wall clock falls into its bucket: how many there were, how many had rates, how many
were gaps, and the mean of each rate, which is kept up from sample to sample.

Means are exact; the source takes them as `double`.  Counts are numbers without a bound.

## Main definitions

* `Store`, `Row`, `Aggregate` — the table.
* `aggregate`, `write`, `retain`, `append` — the source's `append`.
* `Matches` — what a row is of samples.

## Main results

* `rows_exact` — a row is exact if it was never deleted.
-/

namespace Graphlab.Telemetry

open Lib

/-! ## The table -/

inductive Resolution
  | second | ten | minute
  deriving DecidableEq, Repr

def Resolution.seconds : Resolution → ℤ
  | .second => 1
  | .ten => 10
  | .minute => 60

/-- How long rows are kept. -/
def Resolution.retention : Resolution → ℤ
  | .second => 3600
  | .ten => 86400
  | .minute => 604800

/-- The primary key of a row. -/
structure Key where
  run : String
  edge : String
  resolution : Resolution
  time : ℤ
  deriving DecidableEq, Repr

/-- The body of a row: the last sample, with its rates replaced by means. -/
structure Aggregate extends Derived where
  sampleCount : ℕ
  validRateCount : ℕ
  gapCount : ℕ

structure Row where
  key : Key
  body : Aggregate

/-- `telemetry`, with its primary key. -/
structure Store where
  rows : List Row
  distinct : (rows.map Row.key).Nodup

namespace Store

def empty : Store := ⟨[], List.nodup_nil⟩

def find (s : Store) (k : Key) : Option Row := s.rows.find? fun r => r.key == k

theorem find_eq_some {s : Store} {k : Key} {r : Row} :
    s.find k = some r ↔ r ∈ s.rows ∧ r.key = k := by
  constructor
  · intro h
    exact ⟨List.mem_of_find?_eq_some h, by simpa using List.find?_some h⟩
  · rintro ⟨hr, rfl⟩
    obtain ⟨r', hr'⟩ := Option.isSome_iff_exists.mp
      (List.find?_isSome.mpr ⟨r, hr, by simp⟩ : (s.find r.key).isSome)
    have hkey : r'.key = r.key := by simpa using List.find?_some hr'
    rw [find, hr', List.inj_on_of_nodup_map s.distinct (List.mem_of_find?_eq_some hr') hr hkey]

end Store

/-! ## Writing -/

/-- The bucket of a time; the division truncates. -/
def bucketOf (now : ℤ) (resolution : Resolution) : ℤ :=
  now.tdiv resolution.seconds * resolution.seconds

def keyOf (s : Derived) (now : ℤ) (resolution : Resolution) : Key :=
  ⟨s.runId, s.edge, resolution, bucketOf now resolution⟩

/-- The body of a row with one sample. -/
def single (s : Derived) : Aggregate :=
  { s with
    sampleCount := 1
    validRateCount := if s.rates .forwardBits = none then 0 else 1
    gapCount := if s.gapReason = none then 0 else 1 }

/-- The body of a row with one more sample. -/
def extend (old : Aggregate) (s : Derived) : Aggregate :=
  let valid := old.validRateCount
  let add := (single s).validRateCount
  { s with
    sampleCount := old.sampleCount + 1
    validRateCount := valid + add
    gapCount := old.gapCount + (single s).gapCount
    rates := fun r =>
      if valid + add ≠ 0 then
        some (((if valid ≠ 0 then (old.rates r).getD 0 * valid else 0) +
          (if add ≠ 0 then (s.rates r).getD 0 else 0)) / (valid + add : ℕ))
      else s.rates r }

/-- The body that is written at a resolution. -/
def aggregate (store : Store) (s : Derived) (now : ℤ) (resolution : Resolution) : Aggregate :=
  if resolution = .second then single s
  else
    match store.find (keyOf s now resolution) with
    | some old => extend old.body s
    | none => single s

/-- `INSERT OR REPLACE`. -/
def Store.put (store : Store) (r : Row) : Store where
  rows := r :: store.rows.filter fun old => old.key != r.key
  distinct := by
    rw [List.map_cons, List.nodup_cons]
    refine ⟨fun h => ?_, store.distinct.sublist (List.filter_sublist.map _)⟩
    obtain ⟨_, hold, hkey⟩ := List.mem_map.mp h
    simp [hkey] at hold

def writeAt (s : Derived) (now : ℤ) (store : Store) (resolution : Resolution) : Store :=
  store.put ⟨keyOf s now resolution, aggregate store s now resolution⟩

/-- The rows of a sample at all resolutions. -/
def write (store : Store) (s : Derived) (now : ℤ) : Store :=
  [.second, .ten, .minute].foldl (writeAt s now) store

/-- The rows that are within their time, and among them the newest 100000. -/
def retained (rows : List Row) (now : ℤ) : List Row :=
  let kept := rows.filter fun r => now - r.key.resolution.retention ≤ r.key.time
  (sortOn (fun r : Row => -r.key.time) kept).take 100000

/-- The two `DELETE`s. -/
def retain (store : Store) (now : ℤ) : Store where
  rows := retained store.rows now
  distinct := by
    refine List.Nodup.sublist ((List.take_sublist _ _).map _) ?_
    exact ((sortOn_perm _ _).map Row.key).nodup_iff.mpr
      (store.distinct.sublist (List.filter_sublist.map _))

/-- `append`. -/
def append (store : Store) (s : Derived) (now : ℤ) : Store := retain (write store s now) now

/-- A sample, and the wall clock as it is appended. -/
structure Appended where
  sample : Derived
  now : ℤ

def appendAll (xs : List Appended) : Store :=
  xs.foldl (fun store x => append store x.sample x.now) .empty

/-! ## What a row is of samples -/

/-- The mean of numbers; none of no number. -/
def mean (qs : List ℚ) : Option ℚ := if qs = [] then none else some (qs.sum / qs.length)

/-- The samples of a bucket. -/
def samplesOf (k : Key) (xs : List Appended) : List Derived :=
  (xs.filter fun x => keyOf x.sample x.now k.resolution == k).map Appended.sample

/-- The body is that of samples. -/
structure Matches (body : Aggregate) (ds : List Derived) : Prop where
  sampleCount : body.sampleCount = ds.length
  validRateCount : body.validRateCount = ds.countP fun d => (d.rates .forwardBits).isSome
  gapCount : body.gapCount = ds.countP fun d => d.gapReason.isSome
  rates : ∀ r, body.rates r = mean (ds.filterMap fun d => d.rates r)

/-- All four rates are there, or none is. -/
def Uniform (d : Derived) : Prop := ∀ r r', d.rates r = none ↔ d.rates r' = none

theorem derive_uniform (old : Option Derived) (s : Sample) : Uniform (derive old s) := by
  intro r r'
  change ratesOf old s r = none ↔ ratesOf old s r' = none
  cases old with
  | none => simp [ratesOf]
  | some =>
    simp only [ratesOf]
    split <;> simp

/-- The row of a key was not deleted along the way. -/
def NeverDeleted (k : Key) (xs : List Appended) : Prop :=
  ∀ before x, (before ++ [x]) <+: xs →
    ((write (appendAll before) x.sample x.now).find k).isSome →
    ((appendAll (before ++ [x])).find k).isSome

section Means

variable {d : Derived} {body : Aggregate} {ds : List Derived}

theorem matches_single (d : Derived) : Matches (single d) [d] := by
  refine ⟨rfl, ?_, ?_, fun r => ?_⟩
  · cases h : d.rates .forwardBits <;> simp [single, h]
  · cases h : d.gapReason <;> simp [single, h]
  · change d.rates r = _
    cases h : d.rates r <;> simp [h, mean]

theorem length_filterMap (hds : ∀ d ∈ ds, Uniform d) (r : Rate) :
    (ds.filterMap fun d => d.rates r).length = ds.countP fun d => (d.rates .forwardBits).isSome := by
  rw [List.length_filterMap_eq_countP]
  refine List.countP_congr fun d hd => ?_
  have := hds d hd r .forwardBits
  cases h : d.rates r <;> cases h' : d.rates .forwardBits <;> simp_all

/-- The sum is what the mean stands for. -/
theorem mean_mul_length {qs : List ℚ} (h : qs ≠ []) : (mean qs).getD 0 * qs.length = qs.sum := by
  have hlength : (qs.length : ℚ) ≠ 0 := by
    simpa using h
  rw [mean, if_neg h, Option.getD_some, div_mul_cancel₀ _ hlength]

/-- A mean with one more number. -/
theorem mean_append_some (qs : List ℚ) (q : ℚ) :
    mean (qs ++ [q]) =
      some (((if qs.length ≠ 0 then (mean qs).getD 0 * qs.length else 0) + q) /
        (qs.length + 1 : ℕ)) := by
  have hsum : (if qs.length ≠ 0 then (mean qs).getD 0 * qs.length else 0) = qs.sum := by
    cases qs with
    | nil => rfl
    | cons => rw [if_pos (by simp), mean_mul_length (by simp)]
  rw [hsum, mean, if_neg (by simp), List.sum_append, List.sum_singleton, List.length_append,
    List.length_singleton]

/-- One more sample, and the mean of all. -/
theorem matches_extend (hds : ∀ d ∈ ds, Uniform d) (hd : Uniform d) (h : Matches body ds) :
    Matches (extend body d) (ds ++ [d]) := by
  have hone := matches_single d
  refine ⟨?_, ?_, ?_, fun r => ?_⟩
  · rw [List.length_append, ← h.sampleCount]
    rfl
  · rw [List.countP_append, ← h.validRateCount, ← hone.validRateCount]
    rfl
  · rw [List.countP_append, ← h.gapCount, ← hone.gapCount]
    rfl
  · have hvalid : body.validRateCount = (ds.filterMap fun d => d.rates r).length := by
      rw [h.validRateCount, length_filterMap hds]
    have hrate := h.rates r
    rw [List.filterMap_append]
    generalize ds.filterMap (fun d => d.rates r) = qs at hvalid hrate
    cases hq : d.rates r with
    | none =>
      have hadd : (single d).validRateCount = 0 := if_pos ((hd r .forwardBits).mp hq)
      simp only [extend, hadd, hq, hvalid, hrate, List.filterMap_cons, List.filterMap_nil,
        List.append_nil, ne_eq, not_true_eq_false, if_false, add_zero]
      cases qs with
      | nil => rfl
      | cons =>
        rw [if_pos (by simp), if_pos (by simp), mean_mul_length (by simp), mean,
          if_neg (by simp)]
    | some =>
      have hadd : (single d).validRateCount = 1 := if_neg fun hnone => by
        rw [(hd r .forwardBits).mpr hnone] at hq
        cases hq
      simp only [extend, hadd, hq, hvalid, hrate, List.filterMap_cons, List.filterMap_nil,
        Option.getD_some, mean_append_some]
      rw [if_pos (by omega), if_pos Nat.one_ne_zero]

end Means

/-! ## Rows -/

section Rows

variable {store : Store} {s : Derived} {now : ℤ} {k : Key}

theorem find_put (r : Row) (k : Key) :
    (store.put r).find k = if r.key = k then some r else store.find k := by
  unfold Store.put Store.find
  by_cases h : r.key = k
  · simp [h]
  · have hne : (r.key == k) = false := by simpa using h
    rw [List.find?_cons_of_neg (by simpa using h), if_neg h, List.find?_filter]
    refine congrArg (fun p => List.find? p store.rows) (funext fun old => ?_)
    by_cases hold : old.key = k
    · simp [hold, Ne.symm h]
    · simp [hold]

/-- The body that is written depends on the row of its key alone. -/
theorem aggregate_congr {store' : Store} {resolution : Resolution}
    (h : store.find (keyOf s now resolution) = store'.find (keyOf s now resolution)) :
    aggregate store s now resolution = aggregate store' s now resolution := by
  rw [aggregate, aggregate, h]

theorem find_writeAt (resolution : Resolution) (k : Key) :
    (writeAt s now store resolution).find k =
      if keyOf s now resolution = k then some ⟨k, aggregate store s now resolution⟩
      else store.find k := by
  rw [writeAt, find_put]
  by_cases h : keyOf s now resolution = k
  · rw [if_pos h, if_pos h, h]
  · rw [if_neg h, if_neg h]

/-- A write changes the row of each resolution, and no other. -/
theorem find_writes {resolutions : List Resolution} (hdistinct : resolutions.Nodup) (k : Key) :
    (resolutions.foldl (writeAt s now) store).find k =
      if k.resolution ∈ resolutions ∧ keyOf s now k.resolution = k then
        some ⟨k, aggregate store s now k.resolution⟩
      else store.find k := by
  induction resolutions generalizing store with
  | nil => simp
  | cons resolution resolutions ih =>
    obtain ⟨hnew, hdistinct⟩ := List.nodup_cons.mp hdistinct
    rw [List.foldl_cons, ih hdistinct, find_writeAt]
    have hkey : ∀ resolution', keyOf s now resolution' = k → resolution' = k.resolution :=
      fun _ h => congrArg Key.resolution h
    by_cases hin : k.resolution ∈ resolutions
    · have hne : resolution ≠ k.resolution := fun h => hnew (h ▸ hin)
      have hkeys : ∀ k', k'.resolution = k.resolution → keyOf s now resolution ≠ k' :=
        fun k' hk' h => hne ((congrArg Key.resolution h).trans hk')
      rw [if_neg (hkeys k rfl), aggregate_congr ((find_writeAt resolution _).trans
        (if_neg (hkeys (keyOf s now k.resolution) rfl)))]
      simp [hin]
    · by_cases hk : keyOf s now resolution = k
      · obtain rfl := hkey _ hk
        simp [hin, hk]
      · have hno : ¬(k.resolution ∈ resolution :: resolutions ∧ keyOf s now k.resolution = k) := by
          rintro ⟨hmem, heq⟩
          rcases List.mem_cons.mp hmem with h | h
          · exact hk (h ▸ heq)
          · exact hin h
        rw [if_neg hk, if_neg hno, if_neg fun h => hin h.1]

/-- A row of ten seconds or a minute is extended by the samples of its bucket. -/
theorem find_write (hk : k.resolution ≠ .second) :
    (write store s now).find k =
      if keyOf s now k.resolution = k then
        some ⟨k, ((store.find k).map fun old => extend old.body s).getD (single s)⟩
      else store.find k := by
  have hmem : ∀ resolution, resolution ∈ [Resolution.second, .ten, .minute] := fun resolution => by
    cases resolution <;> decide
  rw [write, find_writes (by decide)]
  by_cases h : keyOf s now k.resolution = k
  · rw [if_pos ⟨hmem _, h⟩, if_pos h, aggregate, if_neg hk, h]
    cases store.find k <;> rfl
  · rw [if_neg fun hc => h hc.2, if_neg h]

/-- What is not deleted is as it was. -/
theorem find_retain {r : Row} (h : (retain store now).find k = some r) : store.find k = some r := by
  obtain ⟨hr, hkey⟩ := Store.find_eq_some.mp h
  have hr := (sortOn_perm _ _).mem_iff.mp (List.mem_of_mem_take hr)
  exact Store.find_eq_some.mpr ⟨List.mem_of_mem_filter hr, hkey⟩

theorem length_put (r : Row) : (store.put r).rows.length ≤ store.rows.length + 1 :=
  Nat.succ_le_succ (List.length_filter_le _ _)

theorem length_write (store : Store) (s : Derived) (now : ℤ) :
    (write store s now).rows.length ≤ store.rows.length + 3 :=
  (length_put _).trans (Nat.succ_le_succ ((length_put _).trans (Nat.succ_le_succ (length_put _))))

theorem length_append (store : Store) (s : Derived) (now : ℤ) :
    (append store s now).rows.length ≤ store.rows.length + 3 := by
  refine le_trans ?_ (length_write store s now)
  exact ((List.take_sublist _ _).length_le.trans (sortOn_perm _ _).length_eq.le).trans
    (List.length_filter_le _ _)

/-- A row within its retention stays while the table is not full. -/
theorem find_retain_of_recent {r : Row} (hr : store.find k = some r)
    (htime : now - k.resolution.retention ≤ k.time) (hsmall : store.rows.length ≤ 100000) :
    (retain store now).find k = some r := by
  obtain ⟨hmem, rfl⟩ := Store.find_eq_some.mp hr
  refine Store.find_eq_some.mpr ⟨?_, rfl⟩
  change r ∈ retained store.rows now
  rw [retained, List.take_of_length_le]
  · exact (sortOn_perm _ _).mem_iff.mpr (List.mem_filter.mpr ⟨hmem, decide_eq_true htime⟩)
  · rw [(sortOn_perm _ _).length_eq]
    exact (List.length_filter_le _ _).trans hsmall

theorem appendAll_append (xs : List Appended) (x : Appended) :
    appendAll (xs ++ [x]) = append (appendAll xs) x.sample x.now := by
  rw [appendAll, List.foldl_append]
  rfl

theorem length_appendAll (xs : List Appended) :
    (appendAll xs).rows.length ≤ 3 * xs.length := by
  induction xs using List.reverseRecOn with
  | nil => exact le_rfl
  | append_singleton xs x ih =>
    rw [appendAll_append, List.length_append, List.length_singleton]
    have := length_append (appendAll xs) x.sample x.now
    omega

/-- A row is never deleted if its bucket is recent at all times and the table never full. -/
theorem neverDeleted_of_recent {xs : List Appended}
    (htimes : ∀ x ∈ xs, x.now - k.resolution.retention ≤ k.time) (hsmall : 3 * xs.length ≤ 100000) :
    NeverDeleted k xs := by
  intro before x hx hsome
  obtain ⟨_, hr⟩ := Option.isSome_iff_exists.mp hsome
  have hlength := hx.length_le
  rw [List.length_append, List.length_singleton] at hlength
  have hrows : (write (appendAll before) x.sample x.now).rows.length ≤ 100000 := by
    have hbefore := length_appendAll before
    have hwrite := length_write (appendAll before) x.sample x.now
    omega
  rw [appendAll_append, append, find_retain_of_recent hr
    (htimes x (hx.subset (List.mem_append_right _ (List.mem_singleton_self x)))) hrows]
  rfl

theorem samplesOf_append (xs : List Appended) (x : Appended) :
    samplesOf k (xs ++ [x]) =
      samplesOf k xs ++ if keyOf x.sample x.now k.resolution = k then [x.sample] else [] := by
  by_cases h : keyOf x.sample x.now k.resolution = k
  · simp [samplesOf, List.filter_append, h]
  · simp [samplesOf, List.filter_append, h]

/-- The row of a bucket is there once a sample has fallen into it, and is of all of them. -/
def Tracks (k : Key) (store : Store) (ds : List Derived) : Prop :=
  (store.find k = none ∧ ds = []) ∨ ∃ r, store.find k = some r ∧ Matches r.body ds

/-- What a write makes of the row of a bucket. -/
theorem write_tracks (now : ℤ) (hk : k.resolution ≠ .second) {ds : List Derived}
    (hds : ∀ d ∈ ds, Uniform d) (hs : Uniform s) (h : Tracks k store ds) :
    Tracks k (write store s now)
      (ds ++ if keyOf s now k.resolution = k then [s] else []) := by
  by_cases hkey : keyOf s now k.resolution = k
  · rw [if_pos hkey]
    right
    rw [find_write hk, if_pos hkey]
    refine ⟨_, rfl, ?_⟩
    rcases h with ⟨hnone, rfl⟩ | ⟨r, hr, hmatches⟩
    · rw [hnone]
      exact matches_single s
    · rw [hr]
      exact matches_extend hds hs hmatches
  · rw [if_neg hkey, List.append_nil, Tracks, find_write hk, if_neg hkey]
    exact h

/-- A row that is never deleted is of all samples of its bucket. -/
theorem appendAll_tracks (hk : k.resolution ≠ .second) {xs : List Appended}
    (hxs : ∀ x ∈ xs, Uniform x.sample) (hkept : NeverDeleted k xs) :
    Tracks k (appendAll xs) (samplesOf k xs) := by
  induction xs using List.reverseRecOn with
  | nil => exact .inl ⟨rfl, rfl⟩
  | append_singleton xs x ih =>
    have hinit : ∀ y ∈ xs, Uniform y.sample := fun y hy => hxs y (List.mem_append_left _ hy)
    have hbefore : NeverDeleted k xs := fun before y hy =>
      hkept before y (hy.trans (List.prefix_append xs [x]))
    have hsamples : ∀ d ∈ samplesOf k xs, Uniform d := by
      intro d hd
      obtain ⟨y, hy, rfl⟩ := List.mem_map.mp hd
      exact hinit y (List.mem_of_mem_filter hy)
    have hwrite := write_tracks x.now hk hsamples
      (hxs x (List.mem_append_right _ (List.mem_singleton_self x))) (ih hinit hbefore)
    rw [← samplesOf_append] at hwrite
    rw [appendAll_append]
    rcases hwrite with ⟨hnone, hempty⟩ | ⟨r, hr, hmatches⟩
    · refine .inl ⟨?_, hempty⟩
      cases hfound : (append (appendAll xs) x.sample x.now).find k with
      | none => rfl
      | some =>
        rw [find_retain hfound] at hnone
        cases hnone
    · have hsome := hkept xs x (List.prefix_refl _) (by rw [hr]; rfl)
      rw [appendAll_append] at hsome
      obtain ⟨_, hr'⟩ := Option.isSome_iff_exists.mp hsome
      have hsame := find_retain hr'
      rw [hr] at hsame
      cases hsame
      exact .inr ⟨r, hr', hmatches⟩

end Rows

/-- **Rows of rates.**  After any derived samples, appended at any times, a stored row of ten seconds
or a minute that was never deleted has the numbers of samples, of samples with rates and of gaps
that were appended in its bucket, and the mean of each rate. -/
theorem rows_exact (xs : List Appended) (hderived : ∀ x ∈ xs, ∃ old s, x.sample = derive old s)
    (r : Row) (hr : r ∈ (appendAll xs).rows) (hresolution : r.key.resolution ≠ .second)
    (hkept : NeverDeleted r.key xs) : Matches r.body (samplesOf r.key xs) := by
  have huniform : ∀ x ∈ xs, Uniform x.sample := by
    intro x hx
    obtain ⟨old, s, h⟩ := hderived x hx
    rw [h]
    exact derive_uniform old s
  have hfind := Store.find_eq_some.mpr ⟨hr, rfl⟩
  rcases appendAll_tracks hresolution huniform hkept with ⟨hnone, -⟩ | ⟨r', hr', hmatches⟩
  · rw [hfind] at hnone
    cases hnone
  · rw [hfind] at hr'
    cases hr'
    exact hmatches

/-- The two samples of `Sample.three` that are valid, in one bucket. -/
def Sample.appended : List Appended :=
  (deriveAll none Sample.three).take 2 |>.map fun d => ⟨d, 107⟩

theorem rows_exact_sample :
    ∃ r, (appendAll Sample.appended).find ⟨"r", "e", .ten, 100⟩ = some r ∧
      Matches r.body (samplesOf ⟨"r", "e", .ten, 100⟩ Sample.appended) ∧
      (samplesOf ⟨"r", "e", .ten, 100⟩ Sample.appended).length = 2 := by
  have hkept : NeverDeleted ⟨"r", "e", .ten, 100⟩ Sample.appended :=
    neverDeleted_of_recent (by decide) (by decide)
  have hderived : ∀ x ∈ Sample.appended, ∃ old s, x.sample = derive old s := by
    intro x hx
    rcases List.mem_pair.mp hx with rfl | rfl <;> exact ⟨_, _, rfl⟩
  have hsome : ((appendAll Sample.appended).find ⟨"r", "e", .ten, 100⟩).isSome := by
    refine hkept (Sample.appended.take 1) ⟨_, 107⟩ (List.prefix_refl Sample.appended) ?_
    rw [find_write (by decide)]
    rfl
  obtain ⟨r, hr⟩ := Option.isSome_iff_exists.mp hsome
  obtain ⟨hrow, hkey⟩ := Store.find_eq_some.mp hr
  refine ⟨r, hr, ?_, by decide⟩
  rw [← hkey]
  exact rows_exact Sample.appended hderived r hrow (by rw [hkey]; decide) (by rw [hkey]; exact hkept)

end Graphlab.Telemetry
