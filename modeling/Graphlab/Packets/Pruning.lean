import Graphlab.Packets.Pages

/-!
# The rows that pruning keeps

`prune` deletes rows for three reasons: a row is a day old, there are more than 20000 of them,
or their bodies are too large.  The times of rows need not be in the order of their keys, so the
first may delete any row.  The other two delete the oldest of what is left.  The bodies are measured
again after each batch of 2000.

## Main results

* `Pruned` — what pruning leaves.
* `prune_pruned` — pruning any table.
-/

namespace Graphlab.Packets

open Lib

namespace Store

/-! ## The loop over batches -/

/-- The loop ends, with bodies that are not too large. -/
theorem bodyBytes_shed_le (enc : Codec) (rows : List Stored) :
    bodyBytes enc (shed enc rows) ≤ 16 * 1024 * 1024 := by
  fun_induction shed enc rows with
  | case1 rows hlarge ih => exact ih
  | case2 rows hsmall => simpa [large] using hsmall

theorem length_newest_le (rows : List Stored) : (newest rows).length ≤ 20000 := by
  rw [newest, List.length_drop]
  omega

/-! ## What pruning leaves -/

/-- `s'` is `s` after pruning at a time of the wall clock. -/
structure Pruned (enc : Codec) (wall : ℤ) (s s' : Store) : Prop where
  count : s'.rows.length ≤ 20000
  bytes : bodyBytes enc s'.rows ≤ 16 * 1024 * 1024
  /-- The rows are those that are not a day old and whose keys are above a cutoff. -/
  kept : ∃ cutoff : ℤ, s'.rows =
    s.rows.filter fun r => decide (wall - 86400 ≤ r.time) && decide (cutoff < r.id)
  generation : s'.generation = if s'.rows = s.rows then s.generation else s.generation + 1

/-- **Pruning any table.**  Its rows are listed in the order of their keys. -/
theorem prune_pruned (enc : Codec) (wall : ℤ) {s : Store}
    (hs : s.rows.Pairwise fun a b => a.id < b.id) : Pruned enc wall s (s.prune enc wall) where
  count := by
    have hle := (shed_suffix enc (newest (recent wall s.rows))).length_le
    exact hle.trans (length_newest_le _)
  bytes := bodyBytes_shed_le enc _
  kept := by
    have hrecent : (recent wall s.rows).Pairwise fun a b => (a.id : ℤ) < b.id :=
      (hs.sublist (recent_sublist wall s.rows)).imp fun h => by exact_mod_cast h
    obtain ⟨cutoff, hcutoff⟩ := exists_cutoff (f := fun r : Stored => (r.id : ℤ)) hrecent
      ((shed_suffix enc _).trans (newest_suffix _))
    refine ⟨cutoff, hcutoff.trans ?_⟩
    rw [recent, List.filter_filter]
    simp only [Bool.and_comm]
  generation := generation_prune enc wall s

theorem prune_pruned_sample :
    Pruned sampleCodec 0 sampleStore (sampleStore.prune sampleCodec 0) :=
  prune_pruned sampleCodec 0 (by decide)

end Store

end Graphlab.Packets
