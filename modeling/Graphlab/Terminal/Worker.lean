import Graphlab.Terminal.Lease

/-!
# The terminal worker

A worker keeps one session: the generation of the controller it answers to, the lease of the writer,
and for a virtual machine the lease under which the machine runs.  A controller that adopts the
session has a later generation; it revokes the writer and pauses the machine.

The machine runs after `release` for ten seconds, and longer by `renew`.  The loop pauses it when it
finds that the lease has run out.  A worker that cannot pause the machine ends.

## Main definitions

* `Worker.operate`, `Worker.tick` — a request, and the check of the loop.
* `Worker.run` — any sequence of them.

## Main results

* `Worker.run_writer` — the lease of the writer along a run.
* `writer_exclusive` — who may write to the session.
-/

namespace Graphlab.Terminal

open Lib

inductive VmState
  | paused | running
  deriving DecidableEq, Repr

/-- What `pause` finds: whether the machine is running after `stop`, and whether the event is
recorded. -/
structure Pausing where
  running : Except String Bool := .ok false
  recorded : Except String Unit := .ok ()

structure Worker where
  /-- The source is a virtual machine. -/
  vm : Bool
  /-- The machine is a child of the worker. -/
  child : Bool := false
  generation : String
  writer : Lease := {}
  leased : Bool := false
  deadline : ℕ := 0
  vmState : Option VmState := if vm then some .paused else none
  /-- The loop has ended. -/
  ended : Bool := false

/-- The ten seconds of a lease of the machine. -/
def vmTerm : ℕ := 10000000000

/-- What a request asks for, with what its calls answer. -/
inductive Operation
  /-- `now` is the time of the request, which the source does not read. -/
  | adopt (now : ℕ) (pausing : Pausing) (persisted : Except String Unit)
  /-- The machine is paused after the loop. -/
  | close (pausing : Pausing)
  | status
  | release (armed : ℕ) (continued recorded : Except String Unit)
  | renew (now armed : ℕ)
  | quiesce (pausing : Pausing)
  /-- `acquire`, `renew-writer`, `revoke`, `release-writer`, and `input` and `resize`, which
  require the lease first. -/
  | writer (c : LeaseCall) (rest : Except String Unit)
  /-- `replay`, and requests that are refused for another reason. -/
  | other (answer : Except String Unit)

namespace Worker

/-- `pause`. -/
def pause (w : Worker) (p : Pausing) : Except String Unit × Worker :=
  match p.running with
  | .error e => (.error e, w)
  | .ok true => (.error "vm_pause_not_acknowledged", w)
  | .ok false => (p.recorded, { w with leased := false, vmState := some .paused })

/-- The operations other than `adopt`, of the current generation. -/
def perform (w : Worker) : Operation → Except String Unit × Worker
  | .adopt .. => (.ok (), w)
  | .close p =>
    if w.vm && w.child then (.ok (), { (w.pause p).2 with ended := true })
    else (.ok (), { w with ended := true })
  | .status => (.ok (), w)
  | .release armed continued recorded =>
    if !w.vm then (.error "unsupported_terminal_operation", w)
    else
      let w := { w with deadline := armed + vmTerm, leased := true }
      match continued with
      | .error e => (.error e, w)
      | .ok () => (recorded, { w with vmState := some .running })
  | .renew now armed =>
    if !w.vm then (.error "unsupported_terminal_operation", w)
    else if !w.leased || w.deadline ≤ now then (.error "vm_lease_expired", w)
    else (.ok (), { w with deadline := armed + vmTerm })
  | .quiesce p =>
    if !w.vm then (.error "unsupported_terminal_operation", w) else w.pause p
  | .writer c rest =>
    match w.writer.call c with
    | (.error e, writer) => (.error e, { w with writer })
    | (.ok _, writer) => (rest, { w with writer })
  | .other answer => (answer, w)

/-- A later controller takes the session. -/
def adopt (w : Worker) (generation : String) (p : Pausing) (persisted : Except String Unit) :
    Except String Unit × Worker :=
  let w := { w with generation, writer := w.writer.revoke }
  if w.vm then
    match w.pause p with
    | (.error e, w) => (.error e, w)
    | (.ok _, w) => (persisted, w)
  else (persisted, w)

/-- `std::stoull` of both generations says that the first is later. -/
def later (stoull : String → Except String ℕ) (generation current : String) :
    Except String Bool := do
  return decide ((← stoull current) < (← stoull generation))

/-- A request with the generation of its controller. -/
def operate (stoull : String → Except String ℕ) (w : Worker) (generation : String)
    (op : Operation) : Except String Unit × Worker :=
  match op with
  | .adopt _ p persisted =>
    match later stoull generation w.generation with
    | .error e => (.error e, w)
    | .ok false => (.error "stale_controller", w)
    | .ok true => w.adopt generation p persisted
  | op => if generation ≠ w.generation then (.error "stale_controller", w) else w.perform op

/-- The check of the loop; an error ends the worker. -/
def tick (w : Worker) (now : ℕ) (p : Pausing) (persisted : Except String Unit) :
    Except String Unit × Worker :=
  if w.vm && w.leased && decide (w.deadline ≤ now) then
    match w.pause p with
    | (.error e, w) => (.error e, { w with ended := true })
    | (.ok _, w) => (persisted, { w with ended := !persisted.isOk })
  else (.ok (), w)

/-! ## Runs -/

/-- What happens to a worker. -/
inductive Event
  | tick (now : ℕ) (p : Pausing) (persisted : Except String Unit)
  | request (generation : String) (op : Operation)

/-- The calls of the writer's lease that an event makes. -/
def leaseCalls (stoull : String → Except String ℕ) (w : Worker) (e : Event) : List LeaseCall :=
  if w.ended then []
  else
    match e with
    | .tick .. => []
    | .request generation (.adopt now _ _) =>
      match later stoull generation w.generation with
      | .ok true => [.revoke now]
      | _ => []
    | .request generation (.writer c _) => if generation ≠ w.generation then [] else [c]
    | .request _ _ => []

/-- An event, unless the worker has ended. -/
def step (stoull : String → Except String ℕ) (w : Worker) (e : Event) : Worker :=
  if w.ended then w
  else
    match e with
    | .tick now p persisted => (w.tick now p persisted).2
    | .request generation op => (w.operate stoull generation op).2

/-- Any events, with the calls of the writer's lease that they make. -/
def run (stoull : String → Except String ℕ) (w : Worker) (events : List Event) :
    List LeaseCall × Worker :=
  events.foldl (fun (cs, w) e => (cs ++ w.leaseCalls stoull e, w.step stoull e)) ([], w)

variable {stoull : String → Except String ℕ} {w : Worker}

theorem run_concat (w : Worker) (events : List Event) (e : Event) :
    run stoull w (events ++ [e]) =
      ((run stoull w events).1 ++ (run stoull w events).2.leaseCalls stoull e,
        (run stoull w events).2.step stoull e) := by
  rw [run, List.foldl_append]
  rfl

/-- What `pause` can do. -/
theorem pause_cases (w : Worker) (p : Pausing) :
    (∃ e, w.pause p = (.error e, w)) ∨
      w.pause p = (p.recorded, { w with leased := false, vmState := some .paused }) := by
  unfold pause
  split
  · exact .inl ⟨_, rfl⟩
  · exact .inl ⟨_, rfl⟩
  · exact .inr rfl

/-! ## The writer -/

/-- The lease after some calls. -/
def leaseAfter (l : Lease) (cs : List LeaseCall) : Lease := cs.foldl (fun l c => (l.call c).2) l

theorem leaseAfter_append (l : Lease) (cs ds : List LeaseCall) :
    leaseAfter l (cs ++ ds) = leaseAfter (leaseAfter l cs) ds := List.foldl_append ..

theorem leaseAfter_run (cs : List LeaseCall) : (Lease.run cs).2 = leaseAfter {} cs := by
  induction cs using List.reverseRecOn with
  | nil => rfl
  | append_singleton cs c ih =>
    rw [Lease.run_concat, leaseAfter_append, ← ih]
    rfl

@[simp] theorem pause_writer (w : Worker) (p : Pausing) : (w.pause p).2.writer = w.writer := by
  rcases w.pause_cases p with ⟨e, h⟩ | h <;> rw [h]

theorem adopt_writer (w : Worker) (generation : String) (p : Pausing)
    (persisted : Except String Unit) :
    (w.adopt generation p persisted).2.writer = w.writer.revoke := by
  unfold adopt
  dsimp only
  split
  · rcases pause_cases { w with generation, writer := w.writer.revoke } p with ⟨e, h⟩ | h
    · rw [h]
    · rw [h]
      cases p.recorded <;> rfl
  · rfl

theorem tick_writer (w : Worker) (now : ℕ) (p : Pausing) (persisted : Except String Unit) :
    (w.tick now p persisted).2.writer = w.writer := by
  unfold tick
  split
  · rcases w.pause_cases p with ⟨e, h⟩ | h
    · rw [h]
    · rw [h]
      cases p.recorded <;> rfl
  · rfl

theorem perform_writer (w : Worker) (op : Operation) : (w.perform op).2.writer =
    match op with
    | .writer c _ => (w.writer.call c).2
    | _ => w.writer := by
  cases op with
  | adopt | status | other => rfl
  | close p =>
    unfold perform
    dsimp only
    split
    · exact pause_writer w p
    · rfl
  | release armed continued recorded =>
    unfold perform
    dsimp only
    split
    · rfl
    · cases continued <;> rfl
  | renew =>
    unfold perform
    dsimp only
    split_ifs <;> rfl
  | quiesce p =>
    unfold perform
    dsimp only
    split
    · rfl
    · exact pause_writer w p
  | writer c rest =>
    unfold perform
    dsimp only
    rcases w.writer.call c with ⟨_ | _, l⟩ <;> rfl

/-- The lease of the writer is called as the event says. -/
theorem step_writer (w : Worker) (e : Event) :
    (w.step stoull e).writer = leaseAfter w.writer (w.leaseCalls stoull e) := by
  unfold step leaseCalls
  split
  · rfl
  cases e with
  | tick now p persisted => exact w.tick_writer now p persisted
  | request generation op =>
    have hother : ∀ op, (w.perform op).2.writer = w.writer →
        (if generation ≠ w.generation then (.error "stale_controller", w)
          else w.perform op : Except String Unit × Worker).2.writer = w.writer := by
      intro op hop
      split
      · rfl
      · exact hop
    cases op with
    | adopt now p persisted =>
      simp only [operate]
      cases later stoull generation w.generation with
      | error => rfl
      | ok b =>
        cases b with
        | false => rfl
        | true => exact w.adopt_writer generation p persisted
    | writer c rest =>
      simp only [operate]
      split
      · rfl
      · exact w.perform_writer (.writer c rest)
    | close | status | release | renew | quiesce | other =>
      exact hother _ (w.perform_writer _)

/-- **The lease of the writer along a run.** -/
theorem run_writer (w : Worker) (events : List Event) :
    (run stoull w events).2.writer = leaseAfter w.writer (run stoull w events).1 := by
  induction events using List.reverseRecOn with
  | nil => rfl
  | append_singleton events e ih =>
    rw [run_concat, leaseAfter_append, ← ih]
    exact step_writer _ e

end Worker

/-- **Who may write to the session.**  A run of a worker from its start calls the lease at times that
do not decrease, and draws distinct tokens.  The grant in force is the last one, unless it was
revoked, and lasts for fifteen seconds from its latest renewal.  One client at most may write.  A
token that was superseded, by a takeover, a revocation or a controller that has adopted the session,
is never accepted again. -/
theorem writer_exclusive (stoull : String → Except String ℕ) {w : Worker} (hw : w.writer = {})
    (events : List Worker.Event)
    (htimes : ((w.run stoull events).1.map LeaseCall.time).Pairwise (· ≤ ·))
    (hfresh : ((Lease.run (w.run stoull events).1).1.filterMap granted).Nodup) {now : ℕ}
    (hnow : ∀ c ∈ (w.run stoull events).1, c.time ≤ now) :
    (∀ owner token, (w.run stoull events).2.writer.require owner token now = .ok () ↔
      ∃ latest, Current (Lease.run (w.run stoull events).1).1 owner token latest ∧
        now < latest + term) ∧
    (∀ owner token owner' token',
      (w.run stoull events).2.writer.require owner token now = .ok () →
      (w.run stoull events).2.writer.require owner' token' now = .ok () →
      owner = owner' ∧ token = token') ∧
    ∀ before since o takeover token acquired,
      (Lease.run (w.run stoull events).1).1 =
        before ++ (.acquire o takeover token acquired, true) :: since →
      (∃ e ∈ since, ends e = true) →
      ∀ owner, (w.run stoull events).2.writer.require owner token now ≠ .ok () := by
  have hwriter : (w.run stoull events).2.writer = (Lease.run (w.run stoull events).1).2 := by
    rw [Worker.run_writer, hw, Worker.leaseAfter_run]
  have hrequire : ∀ owner token, (w.run stoull events).2.writer.require owner token now = .ok () ↔
      ∃ latest, Current (Lease.run (w.run stoull events).1).1 owner token latest ∧
        now < latest + term := by
    intro owner token
    rw [hwriter]
    exact require_iff htimes hnow
  refine ⟨hrequire, fun _ _ _ _ => require_unique, ?_⟩
  intro before since o takeover token acquired hh hend owner hok
  obtain ⟨_, hcurrent, -⟩ := (hrequire owner token).mp hok
  exact not_current_of_superseded hh hfresh hend hcurrent

namespace Sample

def session : Worker := { vm := false, generation := "1" }

/-- A client acquires the lease, another one takes it over. -/
def takeover : List Worker.Event :=
  [.request "1" (.writer (.acquire "a" false "first" 1) (.ok ())),
    .request "1" (.writer (.acquire "b" true "second" 2) (.ok ()))]

end Sample

theorem writer_exclusive_takeover :
    (Sample.session.run (fun _ => .ok 0) Sample.takeover).2.writer.require "b" "second" 3 = .ok () ∧
      (Sample.session.run (fun _ => .ok 0) Sample.takeover).2.writer.require "a" "first" 3 ≠
        .ok () := by
  obtain ⟨hrequire, -, hsuperseded⟩ := @writer_exclusive (fun _ => .ok 0) Sample.session rfl
    Sample.takeover (by decide) (by decide) 3 (by decide)
  refine ⟨(hrequire _ _).mpr ⟨2, ⟨_, true, 2, [], rfl, by simp, rfl⟩, by decide⟩, ?_⟩
  exact hsuperseded [] [(.acquire "b" true "second" 2, true)] "a" false "first" 1 rfl
    ⟨_, List.mem_cons_self .., rfl⟩ "a"

end Graphlab.Terminal
