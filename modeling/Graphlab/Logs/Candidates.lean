import Graphlab.Lib.Batches
import Graphlab.Lib.Fallible
import Graphlab.Runtime.Data

/-!
# The sources of the log collector

`Engine::log_candidates` hands out the sources of process logs, or of messages, sixteen at a time.
A cursor into the list of all sources, which is computed again for each call, says where the next
call goes on.  A source with a descriptor of more than 32768 bytes makes the call throw, with the
cursor behind it.

The sources that the call has collected before are lost then: the next call does not go back to
them, and the next sweep does the same again.

## Main definitions

* `logCandidates` — the call; `eligible` the sources in order.

## Main results

* `sweep_complete_iff` — when a sweep hands out all sources with a descriptor that fits.
* `sweep_starves` — a source that no sweep hands out.
-/

namespace Graphlab.Logs

open Lib Graphlab.Runtime

/-- `logSource`. -/
inductive LogSource
  | dockerOutput | qemuWorker | qemuRunner
  deriving DecidableEq, Repr

/-- An item of the result. -/
structure Candidate where
  runId : RunId
  controllerGeneration : ℕ
  resource : Resource
  logSource : LogSource
  deriving DecidableEq, Repr

section Call

-- `size` is the length of the text of a resource with its source; `stopping` is `stopping_`.
variable (size : Resource → LogSource → ℕ) (s : State) (stopping messageSources : Bool)

/-- What the loop goes on with: the index and the result, or the end of the call with the cursor
and what it returns or throws. -/
abbrev Visited := Except (ℕ × Except String (List Candidate)) (ℕ × List Candidate)

/-- The body of the innermost loop. -/
def visit (cursor : ℕ) (at' : ℕ × List Candidate) (c : Candidate) : Visited :=
  let (index, result) := at'
  if index < cursor then .ok (index + 1, result)
  else if 16 ≤ result.length then .error (index, .ok result)
  else if 32768 < size c.resource c.logSource then
    .error (index + 1, .error "log_candidate_descriptor_limit")
  else .ok (index + 1, result ++ [c])

/-- Resources that the loop passes over. -/
def passes (r : Resource) : Bool :=
  (messageSources && r.kind != .container) ||
    (r.identity.isNone || r.state == .removed || (r.kind != .container && r.kind != .qemu))

/-- `sources`. -/
def logSources (r : Resource) : List LogSource :=
  (if r.kind == .container then [.dockerOutput] else [.qemuWorker]) ++
    if r.kind == .qemu && (r.identity.bind Identity.runnerId).isSome then [.qemuRunner] else []

/-- `log_candidates`, with the cursor before and after. -/
def logCandidates (cursor : ℕ) : ℕ × Except String (List Candidate) :=
  let visited : Visited := s.runs.toList.foldlM (fun at' run =>
    if stopping || run.2.state == .destroyed then .ok at'
    else run.2.resources.foldlM (fun at' r =>
      if passes messageSources r then .ok at'
      else (logSources r).foldlM (fun at' source =>
        visit size cursor at' ⟨run.1, run.2.controllerGeneration, r, source⟩) at') at') (0, [])
  match visited with
  | .error exit => exit
  | .ok (_, result) => (0, .ok result)

/-- The sources in the order of the loops. -/
def eligible : List Candidate :=
  s.runs.toList.flatMap fun run =>
    if stopping || run.2.state == .destroyed then []
    else run.2.resources.flatMap fun r =>
      if passes messageSources r then []
      else (logSources r).map fun source => ⟨run.1, run.2.controllerGeneration, r, source⟩

/-- A descriptor that is too large. -/
def oversized (c : Candidate) : Bool := 32768 < size c.resource c.logSource

end Call

variable {size : Resource → LogSource → ℕ} {s : State} {stopping messageSources : Bool}

/-! ## One loop -/

/-- A loop in a loop. -/
theorem foldlM_flatMap' {α β σ ε : Type*} (g : α → List β) (f : σ → β → Except ε σ) (xs : List α)
    (a : σ) : (xs.flatMap g).foldlM f a = xs.foldlM (fun a x => (g x).foldlM f a) a := by
  induction xs generalizing a with
  | nil => rfl
  | cons x xs ih =>
    rw [List.flatMap_cons, List.foldlM_append, List.foldlM_cons]
    exact congrArg _ (funext ih)

/-- The loops visit the sources in order. -/
theorem foldlM_eligible (cursor : ℕ) (at' : ℕ × List Candidate) :
    (eligible s stopping messageSources).foldlM (visit size cursor) at' =
      s.runs.toList.foldlM (fun at' run =>
        if stopping || run.2.state == .destroyed then .ok at'
        else run.2.resources.foldlM (fun at' r =>
          if passes messageSources r then .ok at'
          else (logSources r).foldlM (fun at' source =>
            visit size cursor at' ⟨run.1, run.2.controllerGeneration, r, source⟩) at') at') at' := by
  rw [eligible, foldlM_flatMap']
  congr 1
  funext at' run
  split
  · rfl
  · rw [foldlM_flatMap']
    congr 1
    funext at' r
    split
    · rfl
    · exact List.foldlM_map ..

/-- The loop over the sources is a call that hands out a batch. -/
theorem visit_batch (cursor : ℕ) (xs : List Candidate) (index : ℕ) (result : List Candidate) :
    (match xs.foldlM (visit size cursor) (index, result) with
      | .error exit => exit
      | .ok (_, result) => (0, .ok result)) =
      batch 16 (oversized size) "log_candidate_descriptor_limit" (max index cursor)
        (xs.drop (cursor - index)) result := by
  induction xs generalizing index result with
  | nil =>
    rw [List.drop_nil]
    rfl
  | cons x xs ih =>
    rw [List.foldlM_cons]
    by_cases hskip : index < cursor
    · have hvisit : visit size cursor (index, result) x = .ok (index + 1, result) := if_pos hskip
      obtain ⟨k, hk⟩ : ∃ k, cursor - index = k + 1 := ⟨cursor - (index + 1), by omega⟩
      rw [hvisit, ok_bind, ih, hk, List.drop_succ_cons, show cursor - (index + 1) = k by omega,
        show max (index + 1) cursor = max index cursor by omega]
    · rw [show cursor - index = 0 by omega, List.drop_zero, show max index cursor = index by omega,
        batch, visit, if_neg hskip]
      have hlarge : oversized size x = true ↔ 32768 < size x.resource x.logSource := by
        simp [oversized]
      simp only [hlarge]
      split_ifs
      · rfl
      · rfl
      · rw [ok_bind, ih, show cursor - (index + 1) = 0 by omega, List.drop_zero,
          show max (index + 1) cursor = index + 1 by omega]

theorem logCandidates_eq (cursor : ℕ) :
    logCandidates size s stopping messageSources cursor =
      batch 16 (oversized size) "log_candidate_descriptor_limit" cursor
        ((eligible s stopping messageSources).drop cursor) [] := by
  rw [logCandidates, ← foldlM_eligible]
  refine (visit_batch cursor _ 0 []).trans ?_
  rw [Nat.zero_max, Nat.sub_zero]

/-! ## Sweeps -/

/-- **When a sweep is complete.**  There is one sweep from the cursor 0.  It hands out sources with
a descriptor that fits, in order and none twice, in batches of at most sixteen.  It hands out all of
them exactly if each stretch of such sources before an oversized one fills its batches. -/
theorem sweep_complete_iff (size : Resource → LogSource → ℕ) (s : State)
    (stopping messageSources : Bool) :
    ∃ results, Sweep (logCandidates size s stopping messageSources) 0 results ∧
      (∀ other, Sweep (logCandidates size s stopping messageSources) 0 other → other = results) ∧
      (∀ xs, .ok xs ∈ results → xs.length ≤ 16) ∧
      (handedOut results).Sublist
        ((eligible s stopping messageSources).filter fun c => !oversized size c) ∧
      (handedOut results =
          (eligible s stopping messageSources).filter (fun c => !oversized size c) ↔
        FillsBatches 16 (oversized size) (eligible s stopping messageSources)) := by
  obtain ⟨results, hsweep, hlength, hout⟩ := exists_sweep (by decide)
    (@logCandidates_eq size s stopping messageSources)
  refine ⟨results, hsweep, fun other h => h.unique hsweep, hlength, ?_,
    handedOut_eq_iff (by decide) hout⟩
  rw [hout]
  exact kept_sublist 16 (oversized size) _ []

namespace Sample

def container (key : String) : Resource :=
  { key, kind := .container, logical := key, state := .prepared, identity := some {} }

/-- A run with two containers. -/
def state : State :=
  { runs := (∅ : Std.TreeMap RunId Run).insert "run" {
      id := "run"
      topology := { captureRequired := false }
      resources := [container "a", container "b"] } }

/-- The descriptor of the second one is too large. -/
def sizes (r : Resource) (_ : LogSource) : ℕ := if r.key == "b" then 40000 else 400

end Sample

/-- The first source is collected and lost in every sweep. -/
theorem sweep_starves :
    ∃ results, Sweep (logCandidates Sample.sizes Sample.state false false) 0 results ∧
      handedOut results = [] ∧
      (eligible Sample.state false false).filter (fun c => !oversized Sample.sizes c) =
        [⟨"run", 1, Sample.container "a", .dockerOutput⟩] := by
  have hfirst : logCandidates Sample.sizes Sample.state false false 0 =
      (2, .error "log_candidate_descriptor_limit") := by decide
  have hsecond : logCandidates Sample.sizes Sample.state false false 2 = (0, .ok []) := by
    decide
  have hrest := @Sweep.last _ (logCandidates Sample.sizes Sample.state false false) 2
    (by rw [hsecond])
  have hsweep := @Sweep.next _ (logCandidates Sample.sizes Sample.state false false) 0 _
    (by rw [hfirst]; decide) (by rw [hfirst]; exact hrest)
  rw [hfirst, hsecond] at hsweep
  exact ⟨_, hsweep, rfl, by decide⟩

end Graphlab.Logs
