import Mathlib.Data.List.Infix
import Graphlab.Lib.Bytes
import Graphlab.Lib.Newest

/-!
# The readiness of a guest

The worker of a terminal looks for `GRAPHLAB_READY` in what its source writes.  It keeps the last
256 bytes between reads, so that a marker is found however the reads cut it.

Not everything that is read is searched.  A read that the recording refuses ends the worker before
the search; and when the process of the source has exited, what it has left is recorded only.

## Main results

* `guestReady_iff` — the marker is found exactly if what was searched has it.
* `drained_unsearched` — a marker that is read and not searched for.
-/

namespace Graphlab.Terminal

open Lib

/-- `GRAPHLAB_READY`. -/
def marker : Bytes := [71, 82, 65, 80, 72, 76, 65, 66, 95, 82, 69, 65, 68, 89]

/-- A read from the source that has given bytes. -/
inductive Read
  /-- A read after a poll, and whether the recording takes it. -/
  | polled (bytes : Bytes) (recorded : Bool)
  /-- A read after the process of the source has exited. -/
  | drained (bytes : Bytes)

def Read.bytes : Read → Bytes
  | .polled bytes _ => bytes
  | .drained bytes => bytes

/-- The read comes to the search. -/
def Read.searched : Read → Bool
  | .polled _ recorded => recorded
  | .drained _ => false

/-- What the loop keeps of the output, and `state["guestReady"]`. -/
structure Output where
  readiness : Bytes := []
  guestReady : Bool := false
  deriving DecidableEq, Repr

/-- One read. -/
def Output.read (o : Output) (r : Read) : Output :=
  if r.searched then
    let readiness := o.readiness ++ r.bytes
    { readiness := if 256 < readiness.length then readiness.drop (readiness.length - 256)
        else readiness
      guestReady := o.guestReady || decide (marker <:+: readiness) }
  else o

def Output.run (reads : List Read) : Output := reads.foldl Output.read {}

/-- The bytes of the reads that come to the search. -/
def searched (reads : List Read) : Bytes := (reads.filter Read.searched).flatMap Read.bytes

/-- The state after all of `text` was searched. -/
structure Output.Covers (o : Output) (text : Bytes) : Prop where
  readiness : o.readiness = latest 256 text
  guestReady : o.guestReady = true ↔ marker <:+: text

theorem Output.Covers.read {o : Output} {text : Bytes} (h : o.Covers text) {r : Read}
    (hr : r.searched = true) : (o.read r).Covers (text ++ r.bytes) := by
  rw [Output.read, if_pos hr]
  dsimp only
  constructor
  · rw [← latest_append, ← h.readiness]
    split_ifs with hlong
    · rw [latest]
    · rw [latest_of_le (Nat.le_of_not_lt hlong)]
  · have hlength : marker.length ≤ 256 + 1 := by decide
    rw [Bool.or_eq_true, decide_eq_true_eq, h.guestReady, h.readiness, ← infix_append hlength]

/-- **The marker is found exactly if what was searched so far has it**, however it was read. -/
theorem guestReady_iff (reads : List Read) :
    (Output.run reads).guestReady = true ↔ marker <:+: searched reads := by
  suffices h : ∀ (o : Output) (text : Bytes), o.Covers text →
      (reads.foldl Output.read o).Covers (text ++ searched reads) from
    (h {} [] ⟨rfl, by decide⟩).guestReady
  induction reads with
  | nil =>
    intro o text ho
    simpa [searched] using ho
  | cons r reads ih =>
    intro o text ho
    by_cases hr : r.searched = true
    · rw [List.foldl_cons, searched, List.filter_cons_of_pos hr, List.flatMap_cons,
        ← List.append_assoc]
      exact ih _ _ (ho.read hr)
    · have hsame : o.read r = o := by rw [Output.read, if_neg hr]
      rw [List.foldl_cons, hsame, searched, List.filter_cons_of_neg hr]
      exact ih o text ho

/-- A marker that is left when the source exits is read and not found. -/
theorem drained_unsearched : (Output.run [.drained marker]).guestReady = false ∧
    marker <:+: [Read.drained marker].flatMap Read.bytes := by
  decide

end Graphlab.Terminal
