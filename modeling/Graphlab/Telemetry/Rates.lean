import Mathlib.Data.Rat.Cast.Order
import Mathlib.Algebra.Order.Field.Rat
import Mathlib.Algebra.BigOperators.Group.List.Basic
import Mathlib.Data.List.Chain

/-!
# Rates of interfaces

Samples of an interface's counters, one after the other.  `derive` compares a sample with the one
before and gives four rates; where the two cannot be compared there is a gap instead, and a new
epoch of the counters begins.

Counters, clocks and epochs are 64-bit words, and their arithmetic is that of words.  Rates are
exact; the source takes them as `double`.

## Main definitions

* `Sample`, `Derived`, `derive`, `deriveAll`.
* `Step` — what a sample is against the one before; `derive_step`.

## Main results

* `derived_sound` — rates, epochs and counters over any samples.
-/

namespace Graphlab.Telemetry

/-! ## Samples -/

inductive Raw
  | rxBytes | txBytes | rxPackets | txPackets | rxErrors | txErrors | rxDropped | txDropped
  deriving DecidableEq, Repr

/-- The counters in the order of the comparison. -/
def Raw.all : List Raw :=
  [.rxBytes, .txBytes, .rxPackets, .txPackets, .rxErrors, .txErrors, .rxDropped, .txDropped]

inductive Rate
  | forwardBits | reverseBits | forwardPackets | reversePackets
  deriving DecidableEq, Repr

/-- The counter of a rate; `rx` if what is received is what goes forward. -/
def Rate.counter (rx : Bool) : Rate → Raw
  | .forwardBits => if rx then .rxBytes else .txBytes
  | .reverseBits => if rx then .txBytes else .rxBytes
  | .forwardPackets => if rx then .rxPackets else .txPackets
  | .reversePackets => if rx then .txPackets else .rxPackets

def Rate.scale : Rate → ℚ
  | .forwardBits | .reverseBits => 8
  | .forwardPackets | .reversePackets => 1

structure Sample where
  runId : String
  edge : String
  valid : Bool
  reason : Option String := none
  mappingEpoch : String := ""
  bootId : String := ""
  collectorEpoch : String := ""
  monotonicNs : UInt64 := 0
  raw : Raw → UInt64 := fun _ => 0
  /-- `forwardMetric` is `rx`. -/
  forwardRx : Bool := false

/-- A sample with what `derive` adds. -/
structure Derived extends Sample where
  rates : Rate → Option ℚ
  counterEpoch : UInt64
  gapReason : Option String

/-! ## Derivation -/

/-- Two samples are of one mapping, boot and collector. -/
def sameIdentity (old s : Sample) : Bool :=
  s.mappingEpoch == old.mappingEpoch && s.bootId == old.bootId &&
    s.collectorEpoch == old.collectorEpoch

/-- The gap of a valid sample of the same identity as the one before. -/
def compareCounters (old s : Sample) : String :=
  let gap :=
    if s.monotonicNs ≤ old.monotonicNs || 3000000000 < s.monotonicNs - old.monotonicNs then
      "sample_gap"
    else ""
  Raw.all.foldl (fun gap k => if s.raw k < old.raw k then "counter_reset" else gap) gap

/-- `gap`; empty if there is none. -/
def gapOf (old : Option Derived) (s : Sample) : String :=
  if !s.valid then s.reason.getD "source_unavailable"
  else
    match old with
    | none => "first_sample"
    | some old =>
      if !old.valid then "first_sample"
      else if !sameIdentity old.toSample s then "identity_changed"
      else compareCounters old.toSample s

/-- `rate`. -/
def rateOf (old s : Sample) (r : Rate) : ℚ :=
  let seconds := ((s.monotonicNs - old.monotonicNs).toNat : ℚ) / 1000000000
  r.scale * ((s.raw (r.counter s.forwardRx) - old.raw (r.counter s.forwardRx)).toNat : ℚ) / seconds

/-- The rates, if two samples were compared and there is no gap. -/
def ratesOf (old : Option Derived) (s : Sample) (r : Rate) : Option ℚ :=
  match old with
  | none => none
  | some old =>
    if s.valid && old.valid && sameIdentity old.toSample s &&
        compareCounters old.toSample s == "" then
      some (rateOf old.toSample s r)
    else none

/-- `derive`. -/
def derive (old : Option Derived) (s : Sample) : Derived :=
  let gap := gapOf old s
  { s with
    rates := ratesOf old s
    counterEpoch := old.elim 0 Derived.counterEpoch + if gap = "" then 0 else 1
    gapReason := if gap = "" then none else some gap }

/-- Samples one after the other, each against the one before. -/
def deriveAll : Option Derived → List Sample → List Derived
  | _, [] => []
  | old, s :: samples => derive old s :: deriveAll (some (derive old s)) samples

/-! ## One sample -/

/-- Two samples whose counters can be subtracted. -/
structure Comparable (old s : Sample) : Prop where
  valid : old.valid = true ∧ s.valid = true
  mappingEpoch : s.mappingEpoch = old.mappingEpoch
  bootId : s.bootId = old.bootId
  collectorEpoch : s.collectorEpoch = old.collectorEpoch
  later : old.monotonicNs.toNat < s.monotonicNs.toNat
  soon : s.monotonicNs.toNat - old.monotonicNs.toNat ≤ 3000000000
  counters : ∀ k, (old.raw k).toNat ≤ (s.raw k).toNat

/-- The rate of two samples, over the integers. -/
def exactRate (old s : Sample) (r : Rate) : ℚ :=
  r.scale *
    (((s.raw (r.counter s.forwardRx)).toNat - (old.raw (r.counter s.forwardRx)).toNat : ℕ) : ℚ) /
    (((s.monotonicNs.toNat - old.monotonicNs.toNat : ℕ) : ℚ) / 1000000000)

section One

variable {old : Option Derived} {s : Sample}

theorem foldl_reset {ks : List Raw} {gap : String} {o s : Sample} :
    ks.foldl (fun gap k => if s.raw k < o.raw k then "counter_reset" else gap) gap = "" ↔
      gap = "" ∧ ∀ k ∈ ks, o.raw k ≤ s.raw k := by
  induction ks generalizing gap with
  | nil => simp
  | cons k ks ih =>
    rw [List.foldl_cons, ih, List.forall_mem_cons]
    by_cases h : s.raw k < o.raw k
    · simp [h, UInt64.not_le.mpr h]
    · simp [h, UInt64.not_lt.mp h]

theorem compareCounters_eq {o s : Sample} :
    compareCounters o s = "" ↔
      o.monotonicNs < s.monotonicNs ∧ s.monotonicNs - o.monotonicNs ≤ 3000000000 ∧
        ∀ k, o.raw k ≤ s.raw k := by
  have hall : ∀ k, k ∈ Raw.all := fun k => by cases k <;> decide
  rw [compareCounters, foldl_reset, ← and_assoc]
  refine and_congr ?_ ⟨fun h k => h k (hall k), fun h k _ => h k⟩
  by_cases hlate : s.monotonicNs ≤ o.monotonicNs
  · simp [hlate, UInt64.not_lt.mpr hlate]
  · by_cases hlong : 3000000000 < s.monotonicNs - o.monotonicNs
    · simp [hlong, UInt64.not_le.mpr hlong]
    · simp [hlate, hlong, UInt64.not_le.mp hlate, UInt64.not_lt.mp hlong]

/-- The counters of two samples are compared, and there is no gap. -/
theorem comparable_iff {o s : Sample} :
    Comparable o s ↔ (s.valid && o.valid && sameIdentity o s && compareCounters o s == "") = true := by
  simp only [sameIdentity, Bool.and_eq_true, beq_iff_eq, compareCounters_eq]
  constructor
  · intro h
    have hlater : o.monotonicNs < s.monotonicNs := UInt64.lt_iff_toNat_lt.mpr h.later
    refine ⟨⟨⟨h.valid.2, h.valid.1⟩, ⟨h.mappingEpoch, h.bootId⟩, h.collectorEpoch⟩, hlater, ?_,
      fun k => UInt64.le_iff_toNat_le.mpr (h.counters k)⟩
    rw [UInt64.le_iff_toNat_le, UInt64.toNat_sub_of_le _ _ (UInt64.le_of_lt hlater)]
    exact h.soon
  · rintro ⟨⟨⟨hs, ho⟩, ⟨hmapping, hboot⟩, hcollector⟩, hlater, hsoon, hcounters⟩
    refine ⟨⟨ho, hs⟩, hmapping, hboot, hcollector, UInt64.lt_iff_toNat_lt.mp hlater, ?_,
      fun k => UInt64.le_iff_toNat_le.mp (hcounters k)⟩
    rw [UInt64.le_iff_toNat_le, UInt64.toNat_sub_of_le _ _ (UInt64.le_of_lt hlater)] at hsoon
    exact hsoon

/-- No subtraction of comparable samples wraps. -/
theorem rateOf_eq {o s : Sample} (h : Comparable o s) (r : Rate) : rateOf o s r = exactRate o s r := by
  have hlater : o.monotonicNs ≤ s.monotonicNs := UInt64.le_iff_toNat_le.mpr h.later.le
  have hcounter := UInt64.le_iff_toNat_le.mpr (h.counters (r.counter s.forwardRx))
  rw [rateOf, exactRate, UInt64.toNat_sub_of_le _ _ hlater, UInt64.toNat_sub_of_le _ _ hcounter]

/-- There is no gap exactly between comparable samples. -/
theorem gapOf_eq (old : Option Derived) (hreason : s.valid = false → s.reason ≠ some "") :
    gapOf old s = "" ↔ ∃ o, old = some o ∧ Comparable o.toSample s := by
  unfold gapOf
  cases hs : s.valid with
  | false =>
    have hreason := hreason hs
    have hgap : s.reason.getD "source_unavailable" ≠ "" := by
      cases hr : s.reason with
      | none => decide
      | some =>
        rw [hr] at hreason
        simpa using hreason
    simp only [Bool.not_false, if_true, hgap, false_iff, not_exists, not_and]
    intro o _ h
    rw [h.valid.2] at hs
    cases hs
  | true =>
    simp only [Bool.not_true, Bool.false_eq_true, if_false]
    cases old with
    | none => simp
    | some o =>
      simp only [Option.some.injEq, exists_eq_left', comparable_iff, hs, Bool.true_and]
      cases ho : o.valid with
      | false => simp
      | true => cases hi : sameIdentity o.toSample s <;> simp

end One

/-! ## Samples one after the other -/

/-- A derived sample against the one before. -/
structure Step (p d : Derived) : Prop where
  /-- Without a gap the two can be compared: then no subtraction underflows. -/
  comparable : d.gapReason = none → Comparable p.toSample d.toSample
  /-- Rates are formed from comparable samples only. -/
  rates : ∀ r q, d.rates r = some q → d.gapReason = none ∧ q = exactRate p.toSample d.toSample r
  epoch : d.counterEpoch = p.counterEpoch + if d.gapReason = none then 0 else 1

/-- The amounts by which something grows from sample to sample. -/
def deltas (f : Derived → Derived → UInt64) (ds : List Derived) : List ℕ :=
  List.zipWith (fun p d => (f p d).toNat) ds ds.tail

/-- What is subtracted for a counter. -/
def counterDelta (k : Raw) (p d : Derived) : UInt64 := d.raw k - p.raw k

/-- What is subtracted for a rate. -/
def rateDelta (r : Rate) (p d : Derived) : UInt64 := counterDelta (r.counter d.forwardRx) p d

/-- Samples of one epoch, one after the other. -/
structure Stretch (ds : List Derived) (first : Derived) (rest : List Derived) : Prop where
  consecutive : (first :: rest) <:+: ds
  epoch : ∀ d ∈ rest, d.counterEpoch = first.counterEpoch

def lastOf (first : Derived) (rest : List Derived) : Derived := rest.getLastD first

structure Sound (ds : List Derived) : Prop where
  null : ∀ d ∈ ds, ∀ r, d.rates r = none ↔ d.gapReason ≠ none
  first : ∀ d ∈ ds.head?, d.gapReason ≠ none ∧ d.counterEpoch = 1
  steps : ds.IsChain Step
  /-- As numbers, as long as the words do not wrap. -/
  epochs : ds.length < 2 ^ 64 →
    (ds.IsChain fun p d =>
      d.counterEpoch.toNat = p.counterEpoch.toNat + if d.gapReason = none then 0 else 1) ∧
    ds.Pairwise fun p d => p.counterEpoch.toNat ≤ d.counterEpoch.toNat
  counters : ∀ first rest, Stretch ds first rest →
    (first :: rest).Pairwise fun p d => ∀ k, (p.raw k).toNat ≤ (d.raw k).toNat
  telescope : ∀ first rest, Stretch ds first rest → ∀ k,
    (deltas (counterDelta k) (first :: rest)).sum =
      ((lastOf first rest).raw k).toNat - (first.raw k).toNat
  /-- A rate of one direction is of one counter. -/
  rateTelescope : ∀ first rest, Stretch ds first rest →
    (∀ d ∈ rest, d.forwardRx = first.forwardRx) → ∀ r : Rate,
    (deltas (rateDelta r) (first :: rest)).sum =
      ((lastOf first rest).raw (r.counter first.forwardRx)).toNat -
        (first.raw (r.counter first.forwardRx)).toNat

section Runs

variable {samples : List Sample}

theorem derive_null {old : Option Derived} {s : Sample} (hreason : s.valid = false → s.reason ≠ some "")
    (r : Rate) : (derive old s).rates r = none ↔ (derive old s).gapReason ≠ none := by
  have hgap := gapOf_eq old hreason
  have hnull : (derive old s).gapReason ≠ none ↔ gapOf old s ≠ "" := by
    simp [derive]
  rw [hnull, Ne, hgap]
  change ratesOf old s r = none ↔ _
  cases old with
  | none => simp [ratesOf]
  | some =>
    simp only [ratesOf, Option.some.injEq, exists_eq_left', comparable_iff]
    split <;> simp_all

theorem derive_step (p : Derived) {s : Sample} (hreason : s.valid = false → s.reason ≠ some "") :
    Step p (derive (some p) s) := by
  have hgap := gapOf_eq (some p) hreason
  simp only [Option.some.injEq, exists_eq_left'] at hgap
  have hnone : (derive (some p) s).gapReason = none ↔ gapOf (some p) s = "" := by
    simp [derive]
  refine ⟨fun h => hgap.mp (hnone.mp h), fun r q hq => ?_, ?_⟩
  · have hok : (derive (some p) s).gapReason = none := by
      by_contra hne
      rw [(derive_null hreason r).mpr hne] at hq
      cases hq
    have hcomparable := hgap.mp (hnone.mp hok)
    refine ⟨hok, ?_⟩
    change ratesOf (some p) s r = some q at hq
    rw [ratesOf, if_pos (comparable_iff.mp hcomparable), rateOf_eq hcomparable] at hq
    exact (Option.some.inj hq).symm
  · change p.counterEpoch + _ = _
    simp only [hnone]

theorem deriveAll_steps (p : Derived)
    (hreason : ∀ s ∈ samples, s.valid = false → s.reason ≠ some "") :
    (p :: deriveAll (some p) samples).IsChain Step := by
  induction samples generalizing p with
  | nil => exact .singleton _
  | cons s samples ih =>
    obtain ⟨hs, hrest⟩ := List.forall_mem_cons.mp hreason
    exact List.isChain_cons_cons.mpr ⟨derive_step p hs, ih _ hrest⟩

theorem deriveAll_null (old : Option Derived)
    (hreason : ∀ s ∈ samples, s.valid = false → s.reason ≠ some "") :
    ∀ d ∈ deriveAll old samples, ∀ r, d.rates r = none ↔ d.gapReason ≠ none := by
  induction samples generalizing old with
  | nil => simp [deriveAll]
  | cons s samples ih =>
    obtain ⟨hs, hrest⟩ := List.forall_mem_cons.mp hreason
    exact List.forall_mem_cons.mpr ⟨derive_null hs, ih _ hrest⟩

theorem length_deriveAll (old : Option Derived) : (deriveAll old samples).length = samples.length := by
  induction samples generalizing old with
  | nil => rfl
  | cons s samples ih => rw [deriveAll, List.length_cons, ih, List.length_cons]

end Runs

/-! ### Chains -/

section Chains

variable {first : Derived} {rest : List Derived}

/-- What does not decrease from one sample to the next does not decrease at all. -/
theorem pairwise_le {α : Type} [Preorder α] {f : Derived → α} {ds : List Derived}
    (h : ds.IsChain fun p d => f p ≤ f d) : ds.Pairwise fun p d => f p ≤ f d := by
  have : Trans (fun p d : Derived => f p ≤ f d) (fun p d => f p ≤ f d) (fun p d => f p ≤ f d) :=
    ⟨le_trans⟩
  exact h.pairwise

/-- Equal epochs have no gap between them. -/
theorem comparable_of_epoch {p d : Derived} (h : Step p d) (he : d.counterEpoch = p.counterEpoch) :
    Comparable p.toSample d.toSample := by
  refine h.comparable ?_
  by_contra hne
  have hepoch := h.epoch
  rw [if_neg hne, he] at hepoch
  have := congrArg UInt64.toNat hepoch
  rw [UInt64.toNat_add, UInt64.toNat_one] at this
  have := p.counterEpoch.toNat_lt
  omega

theorem epochs_nat {p : Derived} {ds : List Derived} (h : (p :: ds).IsChain Step)
    (hlength : p.counterEpoch.toNat + ds.length < 2 ^ 64) :
    (p :: ds).IsChain fun p d =>
      d.counterEpoch.toNat = p.counterEpoch.toNat + if d.gapReason = none then 0 else 1 := by
  induction ds generalizing p with
  | nil => exact .singleton _
  | cons d ds ih =>
    obtain ⟨hstep, hrest⟩ := List.isChain_cons_cons.mp h
    rw [List.length_cons] at hlength
    have hnat : d.counterEpoch.toNat =
        p.counterEpoch.toNat + if d.gapReason = none then 0 else 1 := by
      rw [hstep.epoch]
      split
      · simp
      · rw [UInt64.toNat_add, UInt64.toNat_one]
        omega
    refine List.isChain_cons_cons.mpr ⟨hnat, ih hrest ?_⟩
    split at hnat <;> omega

/-- The samples of a stretch can be compared one after the other. -/
theorem stretch_comparable (h : (first :: rest).IsChain Step)
    (hepoch : ∀ d ∈ rest, d.counterEpoch = first.counterEpoch) :
    (first :: rest).IsChain fun p d => Comparable p.toSample d.toSample := by
  induction rest generalizing first with
  | nil => exact .singleton _
  | cons d rest ih =>
    obtain ⟨hstep, hrest⟩ := List.isChain_cons_cons.mp h
    obtain ⟨hd, hds⟩ := List.forall_mem_cons.mp hepoch
    refine List.isChain_cons_cons.mpr ⟨comparable_of_epoch hstep hd, ih hrest fun d' hd' => ?_⟩
    rw [hds d' hd', hd]

theorem sum_deltas (h : (first :: rest).IsChain fun p d => Comparable p.toSample d.toSample)
    (k : Raw) :
    (first.raw k).toNat + (deltas (counterDelta k) (first :: rest)).sum =
      ((lastOf first rest).raw k).toNat := by
  induction rest generalizing first with
  | nil => rfl
  | cons d rest ih =>
    obtain ⟨hd, hrest⟩ := List.isChain_cons_cons.mp h
    have hle := hd.counters k
    have hlast : lastOf first (d :: rest) = lastOf d rest := by
      cases rest <;> rfl
    have hdeltas : deltas (counterDelta k) (first :: d :: rest) =
        (counterDelta k first d).toNat :: deltas (counterDelta k) (d :: rest) := rfl
    have hdelta : (counterDelta k first d).toNat = (d.raw k).toNat - (first.raw k).toNat :=
      UInt64.toNat_sub_of_le _ _ (UInt64.le_iff_toNat_le.mpr hle)
    rw [hlast, ← ih hrest, hdeltas, List.sum_cons, hdelta]
    omega

theorem rateDeltas (r : Rate) (hforward : ∀ d ∈ rest, d.forwardRx = first.forwardRx) :
    deltas (rateDelta r) (first :: rest) =
      deltas (counterDelta (r.counter first.forwardRx)) (first :: rest) := by
  generalize first.forwardRx = rx at hforward ⊢
  induction rest generalizing first with
  | nil => rfl
  | cons d rest ih =>
    obtain ⟨hd, hrest⟩ := List.forall_mem_cons.mp hforward
    have hhead : rateDelta r first d = counterDelta (r.counter rx) first d := by
      rw [rateDelta, hd]
    exact congrArg₂ List.cons (congrArg UInt64.toNat hhead) (ih hrest)

end Chains

/-- **Rates.**  Of any samples, of which the invalid ones have a reason that is not empty or none:
rates are null exactly at gaps, epochs grow by one exactly at gaps, rates are formed from
comparable samples, without underflow, and over samples of one epoch the counters do not decrease
and what was subtracted adds up to the last value less the first one. -/
theorem derived_sound (samples : List Sample)
    (hreason : ∀ s ∈ samples, s.valid = false → s.reason ≠ some "") :
    Sound (deriveAll none samples) := by
  cases samples with
  | nil =>
    refine ⟨by simp [deriveAll], by simp [deriveAll], .nil, fun _ => ⟨.nil, .nil⟩, ?_, ?_, ?_⟩
    all_goals
      intro first rest h
      exact absurd (List.infix_nil.mp h.consecutive) (List.cons_ne_nil _ _)
  | cons s samples =>
    obtain ⟨hs, hrest⟩ := List.forall_mem_cons.mp hreason
    have hfirst : (derive none s).gapReason ≠ none ∧ (derive none s).counterEpoch = 1 := by
      have hgap : gapOf none s ≠ "" := fun h => by
        obtain ⟨_, ho, -⟩ := (gapOf_eq _ hs).mp h
        cases ho
      simp [derive, hgap]
    have hchain : (deriveAll none (s :: samples)).IsChain Step := deriveAll_steps _ hrest
    have hcomparable : ∀ first rest, Stretch (deriveAll none (s :: samples)) first rest →
        (first :: rest).IsChain fun p d => Comparable p.toSample d.toSample :=
      fun first rest h => by
        have hpart := List.IsChain.infix hchain h.consecutive
        exact stretch_comparable hpart h.epoch
    refine ⟨?_, ?_, hchain, fun hlength => ?_, fun first rest h => ?_, fun first rest h k => ?_,
      fun first rest h hforward r => ?_⟩
    · exact deriveAll_null none hreason
    · intro d hd
      cases Option.mem_def.mp hd
      exact hfirst
    · rw [length_deriveAll, List.length_cons] at hlength
      have hnat := epochs_nat hchain (by
        rw [hfirst.2, UInt64.toNat_one, length_deriveAll]
        omega)
      exact ⟨hnat, pairwise_le (f := fun d => d.counterEpoch.toNat)
        (hnat.imp fun p d hd => by rw [hd]; exact Nat.le_add_right ..)⟩
    · exact pairwise_le (f := fun d k => (d.raw k).toNat)
        ((hcomparable first rest h).imp fun _ _ hc => hc.counters)
    · have := sum_deltas (hcomparable first rest h) k
      omega
    · have := sum_deltas (hcomparable first rest h) (r.counter first.forwardRx)
      rw [rateDeltas r hforward]
      omega

/-- Two samples of an interface, one second apart, and one whose source has failed. -/
def Sample.three : List Sample :=
  let raw (n : UInt64) : Raw → UInt64 := fun _ => n
  [{ runId := "r", edge := "e", valid := true, monotonicNs := 1000000000, raw := raw 5 },
    { runId := "r", edge := "e", valid := true, monotonicNs := 2000000000, raw := raw 130 },
    { runId := "r", edge := "e", valid := false }]

theorem derived_sound_three :
    Sound (deriveAll none Sample.three) ∧
      (deriveAll none Sample.three).map (fun d => (d.gapReason, d.counterEpoch)) =
        [(some "first_sample", 1), (none, 1), (some "source_unavailable", 2)] :=
  ⟨derived_sound Sample.three (by decide), by decide⟩

end Graphlab.Telemetry
