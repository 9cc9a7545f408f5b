import Graphlab.Runtime.System

/-!
# The agent and a workload

`Sources` is the ledger of source commands that a workload process keeps for as long as
it lives; its `epoch` is drawn at random when the process starts.  `plant` is the agent
together with one such process.  It is the process of `engine`, over a state that has
the workload beside it: when the worker sends a command of that epoch, the workload
decides what the call answers, and a call that throws may have reached it all the same.
A command of another epoch goes to another process, about which nothing is said.

Beside the two a history is carried along: the commands the workload acknowledged, with
whether they set a flag, the records that were sent, and the one that is being sent.

## Main definitions

* `Sources`, `Sources.apply` — the workload's ledger; `Sources.apply_ok`.
* `Plant`, `plant` — the composed system.
-/

namespace Graphlab.Runtime

open Std (TreeMap)
open Lib

/-! ## The workload -/

/-- The two sources of the workload. -/
inductive SourceId
  | alpha | beta
  deriving DecidableEq, Repr, Inhabited

def SourceId.ofName : String → Option SourceId
  | "alpha" => some .alpha
  | "beta" => some .beta
  | _ => none

/-- `Sources`. -/
structure Sources where
  epoch : String
  paused : SourceId → Bool := fun _ => false
  commands : TreeMap String SourceWire := ∅

namespace Sources

/-- The acknowledgement of a command. -/
def acknowledgement (p : SourceWire) : Acknowledgement :=
  { command := p, outcome := "acknowledged" }

/-- Record a command and set the flag of its source. -/
def record (s : Sources) (source : SourceId) (p : SourceWire) : Sources :=
  { s with
    paused := Function.update s.paused source (p.action == "pause")
    commands := s.commands.insert p.requestId p }

/-- `Sources::apply`.  The five fields of a command are strings by its type. -/
def apply (s : Sources) (p : SourceWire) : Except String (Acknowledgement × Sources) :=
  if p.apiVersion != "graphlab.source-control/v1" then .error "source_contract_invalid"
  else if !SourceControl.repeated SourceControl.wordChar 1 64 p.requestId then
    .error "source_request_id_invalid"
  else if p.epoch != s.epoch then .error "source_epoch_changed"
  else match SourceId.ofName p.source with
    | none => .error "source_control_unsupported"
    | some source =>
      if p.action != "pause" && p.action != "resume" then .error "source_control_unsupported"
      else match s.commands[p.requestId]? with
        | some old =>
          if old != p then .error "source_request_conflict" else .ok (acknowledgement p, s)
        | none =>
          if 256 ≤ s.commands.size then .error "source_command_capacity"
          else .ok (acknowledgement p, s.record source p)

/-- What is acknowledged was recorded before, or is recorded now and sets its flag. -/
theorem apply_ok {s t : Sources} {p : SourceWire} {ack : Acknowledgement}
    (h : s.apply p = .ok (ack, t)) :
    (s.commands[p.requestId]? = some p ∧ t = s) ∨
    (s.commands[p.requestId]? = none ∧ ∃ source, SourceId.ofName p.source = some source ∧
      t = s.record source p) := by
  unfold apply at h
  split at h
  · cases h
  split at h
  · cases h
  split at h
  · cases h
  split at h
  · cases h
  next source hsource =>
  split at h
  · cases h
  split at h
  · next old hold =>
      split at h
      · cases h
      · next hp =>
          cases h
          obtain rfl : old = p := by simpa using hp
          exact .inl ⟨hold, rfl⟩
  · next hnew =>
      split at h
      · cases h
      · cases h
        exact .inr ⟨hnew, source, hsource, rfl⟩

theorem record_command (s : Sources) (source : SourceId) (p : SourceWire) (id : String) :
    (s.record source p).commands[id]? = if p.requestId = id then some p else s.commands[id]? := by
  simp only [record, TreeMap.getElem?_insert, Std.LawfulEqCmp.compare_eq_iff_eq]

end Sources

/-! ## The composed system -/

/-- The agent and a workload. -/
structure Plant where
  agent : Shared := {}
  workload : Sources
  /-- The commands the workload acknowledged, newest first, and whether each set the
  flag of its source. -/
  answered : List (SourceWire × Bool) := []
  /-- The committed records that were sent, newest first. -/
  sent : List String := []
  /-- The record that was sent and whose outcome is not recorded yet. -/
  busy : Option String := none

namespace Plant

/-- The waiting record a command was made from. -/
def record (s : Plant) (run : Run) (r : Resource) (w : SourceWire) : Option String :=
  (s.agent.mem.sourceCommands.toList.find? fun e =>
    e.2.outcome == .requested && e.2.request.runId == run.id && e.2.request.node == r.logical &&
    SourceControl.wire e.2.request == w).map Prod.fst

/-- Note the record of a command as sent, if it was committed. -/
def note (s : Plant) (run : Run) (r : Resource) (w : SourceWire) : List String :=
  match s.record run r w with
  | some key => if s.agent.journal.sourceCommands.contains key then key :: s.sent else s.sent
  | none => s.sent

/-- The workload after it has acknowledged a command. -/
def acknowledge (s : Plant) (w : SourceWire) (workload : Sources) : Plant :=
  { s with workload, answered := (w, !s.workload.commands.contains w.requestId) :: s.answered }

/-- A command meets the workload: the outcome of the call, and the workload after it. -/
def deliver (s : Plant) (w : SourceWire) (out : Outcome) : Outcome × Plant :=
  if w.epoch != s.workload.epoch then (out, s)
  else match s.workload.apply w, out.error with
    | .error e, error => ({ out with error := some (error.getD e) }, s)
    | .ok (ack, workload), none =>
      ({ out with reply := { out.reply with acknowledgement := ack } },
        s.acknowledge w workload)
    | .ok (_, workload), some _ => (out, if out.effect then s.acknowledge w workload else s)

/-- A command leaves the workload alone, or is acknowledged. -/
theorem deliver_cases (s : Plant) (w : SourceWire) (out : Outcome) :
    (s.deliver w out).2 = s ∨ ∃ ack workload, w.epoch = s.workload.epoch ∧
      s.workload.apply w = .ok (ack, workload) ∧
      (s.deliver w out).2 = s.acknowledge w workload := by
  unfold deliver
  split
  · exact .inl rfl
  next hepoch =>
  have hepoch : w.epoch = s.workload.epoch := by simpa using hepoch
  cases happly : s.workload.apply w with
  | error => exact .inl rfl
  | ok a =>
    obtain ⟨ack, workload⟩ := a
    cases out.error with
    | none => exact .inr ⟨ack, workload, hepoch, rfl, rfl⟩
    | some =>
      by_cases heffect : out.effect = true
      · exact .inr ⟨ack, workload, hepoch, rfl, if_pos heffect⟩
      · exact .inl (if_neg heffect)

/-- The outcome an operation has, and the surroundings of the agent after it. -/
def meet (s : Plant) (out : Outcome) : Op → Outcome × Plant
  | .call (.sourceControl run r (some w)) =>
    let d := s.deliver w out
    (d.1, { d.2 with sent := s.note run r w, busy := s.record run r w })
  | .commit (.sourceDone _ _ _) => (out, { s with busy := none })
  | _ => (out, s)

/-- What an operation answers and does. -/
def perform (o : Op) (out : Outcome) (s : Plant) : Ans o × Plant :=
  let m := s.meet out o
  let x := Runtime.perform o m.1 s.agent
  (x.1, { m.2 with agent := x.2 })

/-- A fresh state directory, and a workload that has just started. -/
def init (epoch : String) : Plant := { workload := { epoch } }

end Plant

/-- The agent and a workload as one system. -/
def plant (site : Site) : Supervised Op Ans Failure Plant Arrival Outcome Boot where
  perform := Plant.perform
  request a s := { s with agent := arrive site a s.agent }
  restart b s := { s with agent := reboot b s.agent, busy := none }
  construct := construct
  body := work

end Graphlab.Runtime
