import Graphlab.Runtime.Workload
import Graphlab.Runtime.Records

/-!
# Source commands

Two ledgers remember source commands.  The agent's has one record for each principal and
request identifier, committed before the command is sent; the workload's has one entry
for each request identifier.  `commands` is a proof outline of the two together: a
record is sent while it waits, once, and its outcome is recorded next.

## Main results

* `Plant.Inv`, `Plant.Guard` — what holds of the two ledgers, and when an operation is
  performed.
* `Plant.sendCommand_wp`, `Plant.work_wp`, `Plant.construct_wp` — the programs.
* `commands` — the outline.
-/

namespace Graphlab.Runtime

open Std (TreeMap)
open Lib Lib.Discipline Supervised

/-! ## The invariant -/

namespace Plant

/-- The last command the workload acknowledged is `p`; if it set a flag, the flag of its
source is as `p` says. -/
def Answers (s : Plant) (p : SourceRequest) : Prop :=
  ∃ set rest, s.answered = (SourceControl.wire p, set) :: rest ∧
    (set = true → ∃ source, SourceId.ofName p.source = some source ∧
      s.workload.paused source = (p.action == "pause"))

/-- What holds of the agent and the workload at all times. -/
structure Inv (s : Plant) : Prop where
  mem : Orderly s.agent.mem
  journal : Orderly s.agent.journal
  /-- Memory has what the journal has, and the same outcomes. -/
  kept : ∀ {key : String} {c : SourceCommand}, s.agent.journal.sourceCommands[key]? = some c →
    ∃ c', s.agent.mem.sourceCommands[key]? = some c' ∧ (c.outcome ≠ .requested → c' = c)
  sync : s.agent.stopping = false →
    s.agent.mem.sourceCommands = s.agent.journal.sourceCommands
  known : ∀ {key : String}, key ∈ s.sent → ∃ c, s.agent.journal.sourceCommands[key]? = some c
  once : s.sent.Nodup
  busy : ∀ {key : String}, s.busy = some key → key ∈ s.sent ∨ s.agent.stopping = true

/-- What holds when an operation is performed: a command is sent for a record that
waits and was not sent, an outcome is recorded for the record that was, and nothing else
is saved in between. -/
def Guard (s : Plant) : Op → Prop
  | .call (.sourceControl run r (some w)) => s.busy = none ∧
      ∃ key c, s.record run r w = some key ∧ s.agent.mem.Waits key c ∧
        SourceControl.wire c.request = w ∧ key ∉ s.sent
  | .commit (.sourceDone key outcome _) => outcome ≠ .requested ∧
      (∀ k, s.busy = some k → k = key) ∧
      ∃ c, s.agent.mem.Waits key c ∧
        (outcome = .acknowledged → c.request.epoch = s.workload.epoch → s.Answers c.request)
  | .update w => w.unsaved = true
  | .commit _ => s.busy = none
  | .take => s.busy = none
  | _ => True

variable {o : Op} {outcome : SourceOutcome}

namespace Inv

variable {s : Plant}

/-- An operation whose effect on the workload is accounted for. -/
theorem agent (h : Inv s) {t : Shared} (hp : Performs o s.agent t)
    (hdone : ∀ key outcome error, o = .commit (.sourceDone key outcome error) →
      outcome ≠ .requested ∧ ∃ c, s.agent.mem.Waits key c) : Inv { s with agent := t } := by
  have hmem : Orderly t.mem := by
    have hrewrites := hp.mem
    generalize t.mem = d at hrewrites
    cases hrewrites with
    | still _ hc hn =>
      refine h.mem.of_commands hc fun id r' hr' => ?_
      obtain ⟨_, hr, hid⟩ := hn id r' hr'
      exact hid.trans (h.mem.named hr)
    | commit w clock ho =>
      refine h.mem.of_waits (fun key c => Write.waits_apply fun k outcome error hw => ?_)
        (Write.run_named w clock _)
      exact (hdone k outcome error (ho.trans (congrArg Op.commit hw))).1
  -- An outcome that is committed is not recorded again.
  have hfinal : ∀ {key : String} {c : SourceCommand},
      s.agent.mem.sourceCommands[key]? = some c →
      ∃ c', t.mem.sourceCommands[key]? = some c' ∧ (c.outcome ≠ .requested → c' = c) := by
    intro key c hc
    have hrewrites := hp.mem
    generalize t.mem = d at hrewrites
    cases hrewrites with
    | still _ hd hn => exact ⟨c, hd ▸ hc, fun _ => rfl⟩
    | commit w clock ho =>
      refine ⟨w.onCommand key c, by rw [Write.apply_command, hc]; rfl, fun hne => ?_⟩
      cases w with
      | sourceDone k outcome error =>
        by_cases hk : k = key
        · subst hk
          obtain ⟨-, c', hc', hwaits⟩ := hdone k outcome error ho
          cases hc.symm.trans hc'
          exact absurd hwaits hne
        · simp [Write.onCommand, hk]
      | interrupted =>
        exact (Write.plain_onCommand (w := .interrupted) trivial key c).resolve_right
          fun hr => hne hr.1
      | _ => rfl
  have hkept : ∀ {key : String} {c : SourceCommand},
      s.agent.journal.sourceCommands[key]? = some c →
      ∃ c', t.mem.sourceCommands[key]? = some c' ∧ (c.outcome ≠ .requested → c' = c) := by
    intro key c hc
    obtain ⟨_, hc₁, heq₁⟩ := h.kept hc
    obtain ⟨c₂, hc₂, heq₂⟩ := hfinal hc₁
    refine ⟨c₂, hc₂, fun hne => ?_⟩
    obtain rfl := heq₁ hne
    exact heq₂ hne
  refine ⟨hmem, ?_, ?_, ?_, ?_, h.once, fun hb => (h.busy hb).imp_right hp.stopping⟩
  · rcases hp.saved with hj | ⟨hj, -⟩
    · exact hj ▸ hmem
    · exact hj ▸ h.journal
  · intro key c hc
    rcases hp.saved with hj | ⟨hj, -⟩
    · exact ⟨c, hj ▸ hc, fun _ => rfl⟩
    · exact hkept (hj ▸ hc)
  · intro hs
    rcases hp.saved with hj | ⟨hj, hstop | ⟨hstop, hc⟩⟩
    · rw [hj]
    · exact absurd hstop (by simp [show t.stopping = false from hs])
    · rw [hj]
      exact hc.trans (h.sync (hstop ▸ hs))
  · intro key hkey
    obtain ⟨c, hc⟩ := h.known hkey
    rcases hp.saved with hj | ⟨hj, -⟩
    · obtain ⟨c', hc', -⟩ := hkept hc
      exact ⟨c', hj ▸ hc'⟩
    · exact ⟨c, hj ▸ hc⟩

theorem request (h : Inv s) (site : Site) (a : Arrival) :
    Inv { s with agent := arrive site a s.agent } := by
  have hnamed : Named (arrive site a s.agent) :=
    arrive_named site a ⟨fun _ _ => h.mem.named, fun _ _ => h.journal.named⟩
  have hstop : s.agent.stopping = true → (arrive site a s.agent).stopping = true :=
    fun h => (arrive_stopping site a h).1
  have harrive := arrive_command site a s.agent
  generalize arrive site a s.agent = t at hnamed hstop harrive
  have hbusy : ∀ {key : String}, s.busy = some key → key ∈ s.sent ∨ t.stopping = true :=
    fun hb => (h.busy hb).imp_right hstop
  rcases harrive with ⟨hc, hj⟩ | ⟨principal, p, draw, c, error, -, -, hnew, rfl⟩
  · -- The records stay, and at most get saved.
    have hmem : Orderly t.mem := h.mem.of_commands hc hnamed.1
    rcases hj with hj | hj
    · refine ⟨hmem, hmem.of_commands hj hnamed.2, fun hx => ⟨_, hj ▸ hx, fun _ => rfl⟩,
        fun _ => hj.symm, fun hk => ?_, h.once, hbusy⟩
      obtain ⟨c, hc₀⟩ := h.known hk
      obtain ⟨c', hc', -⟩ := h.kept hc₀
      exact ⟨c', by rw [hj, hc]; exact hc'⟩
    · refine ⟨hmem, hj ▸ h.journal, fun hx => ?_, fun hs => ?_, fun hk => hj ▸ h.known hk,
        h.once, hbusy⟩
      · rw [hc]
        exact h.kept (hj ▸ hx)
      · rw [hc, hj]
        exact h.sync (Bool.eq_false_iff.2 fun ht => by simp [hstop ht] at hs)
  · generalize site.sourceKey principal p.requestId = key at hnew
    have hmem : Orderly { s.agent.mem with
        sourceCommands := s.agent.mem.sourceCommands.insert key c } :=
      h.mem.insert hnew rfl fun _ _ hr => h.mem.named hr
    -- What was there is there.
    have hold : ∀ {k : String} {x : SourceCommand}, s.agent.mem.sourceCommands[k]? = some x →
        (s.agent.mem.sourceCommands.insert key c)[k]? = some x := by
      intro k x hx
      have hne : key ≠ k := by
        rintro rfl
        simp [hnew.fresh] at hx
      simp only [TreeMap.getElem?_insert, Std.LawfulEqCmp.compare_eq_iff_eq, if_neg hne, hx]
    cases error with
    | none =>
      refine ⟨hmem, hmem, fun hx => ⟨_, hx, fun _ => rfl⟩, fun _ => rfl, fun hk => ?_, h.once,
        hbusy⟩
      obtain ⟨_, hc₀⟩ := h.known hk
      obtain ⟨c', hc', -⟩ := h.kept hc₀
      exact ⟨c', hold hc'⟩
    | some =>
      refine ⟨hmem, h.journal, fun hx => ?_, fun hs => absurd hs (by simp [Shared.saveRequest]),
        h.known, h.once, hbusy⟩
      obtain ⟨c', hc', heq⟩ := h.kept hx
      exact ⟨c', hold hc', heq⟩

theorem restart (h : Inv s) (b : Boot) :
    Inv { s with agent := reboot b s.agent, busy := none } :=
  ⟨h.journal, h.journal, fun hc => ⟨_, hc, fun _ => rfl⟩, fun _ => rfl, h.known, h.once,
    fun hb => by cases hb⟩

end Inv

/-! ## Operations -/

variable {s : Plant}

/-- A plain operation is one of the agent. -/
theorem meet_plain (ho : o.plain) (out : Outcome) : s.meet out o = (out, s) := by
  unfold meet
  split
  · exact ho.elim
  · exact ho.elim
  · rfl

theorem perform_plain (ho : o.plain) (out : Outcome) :
    perform o out s = ((Runtime.perform o out s.agent).1,
      { s with agent := (Runtime.perform o out s.agent).2 }) := by
  simp only [perform, meet_plain ho]

theorem plain_performs (ho : o.plain) (out : Outcome) :
    Performs o s.agent (Runtime.perform o out s.agent).2 := by
  refine perform_performs (fun w hw => ?_) out s.agent
  subst hw
  exact ho

theorem inv_plain (h : Inv s) (ho : o.plain) (out : Outcome) : Inv (perform o out s).2 := by
  rw [perform_plain ho]
  refine h.agent (plain_performs ho out) fun key outcome error hdone => ?_
  subst hdone
  exact ho.elim

/-- Recording an outcome. -/
theorem inv_sourceDone (h : Inv s) {key error : String}
    (hg : s.Guard (.commit (.sourceDone key outcome error))) (out : Outcome) :
    Inv (perform (.commit (.sourceDone key outcome error)) out s).2 := by
  have hagent := h.agent
    (perform_performs (o := .commit (.sourceDone key outcome error)) (by simp) out s.agent)
    fun k oc e heq => by
      cases heq
      obtain ⟨hne, -, c, hc, -⟩ := hg
      exact ⟨hne, c, hc⟩
  exact { hagent with busy := fun hb => by cases hb }

theorem inv_send (h : Inv s) {run : Run} {r : Resource} {w : SourceWire}
    (hg : s.Guard (.call (.sourceControl run r (some w)))) (out : Outcome) :
    Inv (perform (.call (.sourceControl run r (some w))) out s).2 := by
  obtain ⟨-, key, _, hrecord, hc, -, hnew⟩ := hg
  have hnote : s.note run r w =
      if s.agent.journal.sourceCommands.contains key then key :: s.sent else s.sent := by
    simp only [note, hrecord]
  refine ⟨h.mem, h.journal, h.kept, h.sync, fun {k} hk => ?_, ?_, fun {k} hb => ?_⟩
  · have hk : k ∈ s.note run r w := hk
    rw [hnote] at hk
    split at hk
    · next hin =>
        rcases List.mem_cons.1 hk with rfl | hk
        · exact Option.isSome_iff_exists.1
            (TreeMap.mem_iff_isSome_getElem?.1 (TreeMap.mem_iff_contains.2 hin))
        · exact h.known hk
    · exact h.known hk
  · show (s.note run r w).Nodup
    rw [hnote]
    split
    · exact List.nodup_cons.2 ⟨hnew, h.once⟩
    · exact h.once
  · have hb : s.record run r w = some k := hb
    cases hrecord.symm.trans hb
    show key ∈ s.note run r w ∨ s.agent.stopping = true
    rw [hnote]
    split
    · exact .inl (List.mem_cons_self ..)
    · next hout =>
        refine .inr (Classical.not_not.1 fun hs => hout ?_)
        -- A record that is not committed is there because a `save` failed.
        rw [← h.sync (Bool.eq_false_iff.2 hs)]
        exact TreeMap.mem_iff_contains.1 (TreeMap.mem_iff_isSome_getElem?.2 (by simp [hc.1]))

theorem inv_perform (h : Inv s) (hg : s.Guard o) (out : Outcome) : Inv (perform o out s).2 := by
  by_cases ho : o.plain
  · exact inv_plain h ho out
  · unfold Op.plain at ho
    split at ho
    · exact inv_send h hg out
    · exact inv_sourceDone h hg out
    · exact absurd hg ho
    · exact absurd trivial ho

/-! ## Where the worker stands -/

/-- What holds between two iterations of the worker. -/
structure Settled (s : Plant) : Prop where
  free : s.busy = none
  done : ∀ key ∈ s.sent, ∃ c, s.agent.mem.sourceCommands[key]? = some c ∧ c.outcome ≠ .requested

/-- The worker has picked the record at `key`, and has not sent it. -/
structure Picked (key : String) (c : SourceCommand) (s : Plant) : Prop extends Settled s where
  waits : s.agent.mem.Waits key c

/-- The worker is about to record an outcome for the record at `key`. -/
structure Ending (key : String) (c : SourceCommand) (s : Plant) : Prop where
  waits : s.agent.mem.Waits key c
  busy : ∀ k, s.busy = some k → k = key
  done : ∀ k ∈ s.sent, k ≠ key →
    ∃ x, s.agent.mem.sourceCommands[k]? = some x ∧ x.outcome ≠ .requested

/-- The command of the record took effect, as far as this workload can tell. -/
def Effective (c : SourceCommand) (s : Plant) : Prop :=
  c.request.epoch = s.workload.epoch → s.Answers c.request

/-- The setting of a program, with the interference it meets. -/
abbrev within (env : Plant → Plant → Prop) : Discipline Op Ans Plant :=
  ⟨fun o s b t => ∃ out, perform o out s = (b, t), env, Inv, fun s o => Guard s o⟩

/-- The setting of the worker. -/
abbrev tended (site : Site) : Discipline Op Ans Plant :=
  within fun s t => ∃ a, t = { s with agent := arrive site a s.agent }

variable {site : Site} {key : String} {c : SourceCommand}

theorem Picked.ending (h : Picked key c s) : Ending key c s :=
  ⟨h.waits, fun _ hb => by simp [h.free] at hb, fun k hk _ => h.done k hk⟩

theorem Settled.stable : (tended site).Stable Settled := by
  rintro s _ - ⟨a, rfl⟩ - h
  refine ⟨h.free, fun k hk => ?_⟩
  obtain ⟨x, hx, hne⟩ := h.done k hk
  exact ⟨x, arrive_record site a hx, hne⟩

theorem Picked.stable : (tended site).Stable (Picked key c) := by
  rintro s t hs ⟨a, rfl⟩ ht h
  exact ⟨@Settled.stable site s _ hs ⟨a, rfl⟩ ht h.toSettled,
    arrive_record site a h.waits.1, h.waits.2⟩

theorem Ending.stable : (tended site).Stable (Ending key c) := by
  rintro s _ - ⟨a, rfl⟩ - h
  refine ⟨⟨arrive_record site a h.waits.1, h.waits.2⟩, h.busy, fun k hk hne => ?_⟩
  obtain ⟨x, hx, hx'⟩ := h.done k hk hne
  exact ⟨x, arrive_record site a hx, hx'⟩

theorem Effective.stable : (tended site).Stable (Effective c) := by
  rintro s _ - ⟨a, rfl⟩ - h
  exact h

/-- A plain operation finishes no record, and sends none. -/
theorem Settled.plain (h : Settled s) (ho : o.plain) (out : Outcome) :
    Settled (perform o out s).2 := by
  rw [perform_plain ho]
  refine ⟨h.free, fun k hk => ?_⟩
  obtain ⟨x, hx, hne⟩ := h.done k hk
  have hrewrites := (plain_performs (s := s) ho out).mem
  dsimp only
  generalize (Runtime.perform o out s.agent).2.mem = d at hrewrites
  cases hrewrites with
  | still _ hc hn => exact ⟨x, hc ▸ hx, hne⟩
  | commit w clock hw =>
    subst hw
    have hplain : w.plain := by cases w <;> trivial
    refine ⟨w.onCommand k x, by rw [Write.apply_command, hx]; rfl, ?_⟩
    rcases Write.plain_onCommand hplain k x with heq | ⟨hr, -⟩
    · rw [heq]
      exact hne
    · exact absurd hr hne

/-- A program that leaves the source commands alone. -/
theorem plain_wp {env : Plant → Plant → Prop} (hstable : (within env).Stable Settled)
    {α : Type} {p : Act α} (hp : Plain p) (h : Settled s) :
    (within env).wp p (fun _ => Settled) (fun _ => Settled) s := by
  refine wp_of_uses hp hstable h (fun t o ho hs _ => ?_) fun t o b u ho ht _ hu _ => ?_
  · show t.Guard o
    unfold Guard
    split
    · exact ho.elim
    · exact ho.elim
    · exact ho
    · exact hs.free
    · exact hs.free
    · trivial
  · obtain ⟨out, hout⟩ := hu
    obtain rfl := congrArg Prod.snd hout
    exact ht.plain ho out

/-! ## The worker -/

/-- The record of a command that is sent for the record the worker has picked. -/
theorem Picked.record_eq (h : Picked key c s) (hinv : Inv s) {run : Run} {r : Resource}
    (hrun : run.id = c.request.runId) (hnode : r.logical = c.request.node) :
    s.record run r (SourceControl.wire c.request) = some key := by
  have hself : ((c.outcome == .requested && c.request.runId == run.id &&
      c.request.node == r.logical &&
      SourceControl.wire c.request == SourceControl.wire c.request) : Bool) = true := by
    simp [h.waits.2, hrun, hnode]
  unfold record
  cases hfind : s.agent.mem.sourceCommands.toList.find? fun e =>
      e.2.outcome == .requested && e.2.request.runId == run.id && e.2.request.node == r.logical &&
      SourceControl.wire e.2.request == SourceControl.wire c.request with
  | none =>
    have := List.find?_eq_none.1 hfind (key, c)
      (TreeMap.mem_toList_iff_getElem?_eq_some.2 h.waits.1)
    exact absurd hself this
  | some e =>
    obtain ⟨k, x⟩ := e
    have hx := List.find?_some hfind
    simp only [Bool.and_eq_true, beq_iff_eq] at hx
    obtain ⟨⟨⟨hwaits, hid⟩, hlogical⟩, hwire⟩ := hx
    have hmem := TreeMap.mem_toList_iff_getElem?_eq_some.1 (List.mem_of_find?_eq_some hfind)
    -- Only one record for this source waits.
    have hsource : x.request.source = c.request.source := congrArg SourceWire.source hwire
    have hkey : k = key := hinv.mem.apart ⟨hmem, hwaits⟩ h.waits
      ⟨hid.trans hrun, hlogical.trans hnode, hsource⟩
    rw [hkey]
    rfl

/-- What is known after a command was sent. -/
theorem Picked.sent (h : Picked key c s) (hinv : Inv s) {run : Run} {r : Resource}
    (hrun : run.id = c.request.runId) (hnode : r.logical = c.request.node) (out : Outcome) :
    Ending key c (perform (.call (.sourceControl run r (some (SourceControl.wire c.request))))
      out s).2 := by
  have hrecord := h.record_eq hinv hrun hnode
  refine ⟨h.waits, fun k hb => ?_, fun k hk hne => ?_⟩
  · have hb : s.record run r (SourceControl.wire c.request) = some k := hb
    simpa [hrecord] using hb.symm
  · have hk : k ∈ s.note run r (SourceControl.wire c.request) := hk
    simp only [note, hrecord] at hk
    split at hk
    · exact h.done k ((List.mem_cons.1 hk).resolve_left hne)
    · exact h.done k hk

/-- What an answer says about the workload. -/
theorem deliver_effective {p : SourceRequest} {out : Outcome} {reply : Reply}
    (h : (s.deliver (SourceControl.wire p) out).1.answer = .ok reply)
    (hepoch : p.epoch = (s.deliver (SourceControl.wire p) out).2.workload.epoch) :
    (s.deliver (SourceControl.wire p) out).2.Answers p := by
  have hreturned := (Outcome.answer_ok.1 h).1
  unfold deliver at hreturned hepoch ⊢
  split at hepoch
  · next hne =>
      have hne : (p.epoch != s.workload.epoch) = true := hne
      simp [show p.epoch = s.workload.epoch from hepoch] at hne
  next heq =>
  rw [if_neg heq] at hreturned ⊢
  cases hout : out.error with
  | some =>
    rw [hout] at hreturned
    cases happly : s.workload.apply (SourceControl.wire p) with
    | error => simp [happly] at hreturned
    | ok => simp [happly, hout] at hreturned
  | none =>
    rw [hout] at hreturned
    cases happly : s.workload.apply (SourceControl.wire p) with
    | error => simp [happly] at hreturned
    | ok a =>
      obtain ⟨_, _⟩ := a
      refine ⟨_, _, rfl, fun hset => ?_⟩
      rcases Sources.apply_ok happly with ⟨hold, -⟩ | ⟨-, source, hsource, rfl⟩
      · have hin : s.workload.commands.contains (SourceControl.wire p).requestId = true :=
          TreeMap.mem_iff_contains.1 (TreeMap.mem_iff_isSome_getElem?.2 (by simp [hold]))
        simp [hin] at hset
      · exact ⟨source, hsource, Function.update_self ..⟩

/-- `source_work` on the command it picked. -/
theorem sendCommand_wp {d : State} (h : Picked key c s)
    (hd : ∀ run, d.runs[c.request.runId]? = some run → run.id = c.request.runId) :
    (tended site).wp (sendCommand d c) (fun _ t => Ending key c t ∧ Effective c t)
      (fun _ => Ending key c) s := by
  have hraise : ∀ {α : Type} {Q : α → Plant → Prop} {e : Failure} {t : Plant}, Picked key c t →
      (tended site).wp (.raise e : Act α) Q (fun _ => Ending key c) t :=
    fun ht => wp_raise Ending.stable ht.ending
  unfold sendCommand
  split
  · exact hraise h
  next run hget =>
  have hrun := hd run hget
  refine wp_when (fun _ => hraise h) fun _ => ?_
  split
  · exact hraise h
  next r hr =>
  have hnode : r.logical = c.request.node := by
    have := List.find?_some hr
    simp only [Bool.and_eq_true, beq_iff_eq] at this
    exact this.1.1.1
  refine wp_when (fun _ => hraise h) fun _ => ?_
  refine wp_bind (wp_perform Picked.stable h (fun _ _ _ => trivial) ?_ ?_)
  · rintro t b u status ht - ⟨out, hout⟩ - -
    cases hout
    have hu : Picked key c (perform (.call (.sourceControl run r none)) out t).2 :=
      ⟨⟨ht.free, ht.done⟩, ht.waits⟩
    refine wp_ret stable_wp ?_
    split
    · exact hraise hu
    refine wp_bind (wp_perform Picked.stable hu ?_ ?_ ?_)
    · exact fun t ht hinv => ⟨ht.free, key, c, ht.record_eq hinv hrun hnode, ht.waits, rfl,
        fun hk => (ht.done key hk).elim fun x hx => hx.2 <| by
          cases ht.waits.1.symm.trans hx.1
          exact ht.waits.2⟩
    · rintro t b u reply ht hinv ⟨out, hout⟩ - hb
      have hending := ht.sent hinv hrun hnode out
      rw [show (perform _ out t).2 = u from congrArg Prod.snd hout] at hending
      refine wp_ret stable_wp ?_
      rw [← Prog.bind_ret (Act.when _ _)]
      refine wp_when (fun _ => ?_) fun _ => ?_
      · exact wp_raise Ending.stable hending
      · refine wp_ret (Ending.stable.and Effective.stable) ⟨hending, fun hepoch => ?_⟩
        cases hout
        exact deliver_effective hb hepoch
    · rintro t b u e ht hinv ⟨out, hout⟩ - -
      have hending := ht.sent hinv hrun hnode out
      rw [show (perform _ out t).2 = u from congrArg Prod.snd hout] at hending
      exact wp_raise Ending.stable hending
  · rintro t b u e ht - ⟨out, hout⟩ - -
    cases hout
    exact hraise ⟨⟨ht.free, ht.done⟩, ht.waits⟩

/-- What is known when an outcome is about to be recorded. -/
def Concluding (key : String) (c : SourceCommand) (outcome : SourceOutcome) (s : Plant) : Prop :=
  (Ending key c s ∧ outcome ≠ .requested) ∧ (outcome = .acknowledged → Effective c s)

theorem Concluding.stable :
    (tended site).Stable (Concluding key c outcome) :=
  (Ending.stable.and (.const _)).and (.imp Effective.stable)

theorem failedOutcome_ne (e : Failure) :
    (failedOutcome e).1 ≠ .requested ∧ (failedOutcome e).1 ≠ .acknowledged := by
  unfold failedOutcome
  split <;> simp

theorem commandOutcome_wp {d : State} {now : Clock} (h : Picked key c s)
    (hd : ∀ run, d.runs[c.request.runId]? = some run → run.id = c.request.runId) :
    (tended site).wp (commandOutcome d c now) (fun a => Concluding key c a.1)
      (fun _ _ => True) s := by
  unfold commandOutcome
  split
  · exact wp_ret Concluding.stable ⟨⟨h.ending, by simp⟩, by simp⟩
  · refine wp_handle (wp_bind (wp_mono ?_ ?_ (sendCommand_wp h hd)))
    · exact fun _ t _ ht => wp_ret Concluding.stable ⟨⟨ht.1, by simp⟩, fun _ => ht.2⟩
    · intro e t _ ht
      obtain ⟨hne, hack⟩ := failedOutcome_ne e
      exact wp_ret Concluding.stable ⟨⟨ht, hne⟩, fun heq => absurd heq hack⟩

/-- What is known after an outcome was recorded. -/
theorem Concluding.settled (h : Concluding key c outcome s) (error : String) (out : Outcome) :
    Settled (perform (.commit (.sourceDone key outcome error)) out s).2 := by
  obtain ⟨⟨hending, hne⟩, -⟩ := h
  refine ⟨rfl, fun k hk => ?_⟩
  show ∃ c, (Runtime.perform (.commit (.sourceDone key outcome error)) out s.agent).2.mem
    |>.sourceCommands[k]? = some c ∧ _
  rw [perform_commit_mem fun _ => rfl, Write.apply_command]
  by_cases heq : k = key
  · subst heq
    exact ⟨_, by rw [hending.waits.1]; rfl, by simpa [Write.onCommand] using hne⟩
  · obtain ⟨x, hx, hx'⟩ := hending.done k hk heq
    refine ⟨x, ?_, hx'⟩
    rw [hx]
    simp [Write.onCommand, Ne.symm heq]

/-- `source_work`. -/
theorem sourceWork_wp (h : Settled s) :
    (tended site).wp sourceWork (fun _ => Settled) (fun _ _ => True) s := by
  refine wp_bind (wp_perform Settled.stable h (fun _ _ _ => trivial) ?_ ?_)
  · rintro t b u mem ht hinv ⟨out, hout⟩ - hb
    cases hb
    cases hout
    have hu : Settled (perform .read out t).2 := ht.plain (o := .read) trivial out
    refine wp_ret stable_wp ?_
    split
    · exact wp_ret Settled.stable hu
    next key c hfind =>
    have hc := List.find?_some hfind
    have hmem := List.mem_of_find?_eq_some hfind
    have hpicked : Picked key c (perform .read out t).2 :=
      ⟨hu, TreeMap.mem_toList_iff_getElem?_eq_some.1 hmem, by simpa using hc⟩
    refine wp_bind (wp_perform Picked.stable hpicked (fun _ _ _ => trivial) ?_ ?_)
    · rintro v b u now hv - ⟨out', hout'⟩ - hb
      cases hb
      cases hout'
      have hu : Picked key c (perform .clock out' v).2 :=
        ⟨hv.toSettled.plain (o := .clock) trivial out', hv.waits⟩
      refine wp_ret stable_wp (wp_bind (wp_mono ?_ (fun _ _ _ h => h)
        (commandOutcome_wp hu fun run hrun => hinv.mem.named hrun)))
      rintro ⟨outcome, error⟩ v - hv
      show (tended site).wp (Act.commit' (.sourceDone key outcome error)) _ _ v
      refine wp_bind (wp_perform Concluding.stable hv ?_ ?_ (fun _ _ _ _ _ _ _ _ _ => ?_))
      · rintro v ⟨⟨hending, hne⟩, heffective⟩ -
        exact ⟨hne, hending.busy, c, hending.waits, heffective⟩
      · rintro v b u - hv - ⟨out, hout⟩ - -
        cases hout
        exact wp_ret stable_wp (wp_ret Settled.stable (hv.settled error out))
      · exact wp_raise (.const _) trivial
    · rintro v b u e - - - - hb
      cases hb
  · rintro t b u e - - - - hb
    cases hb

/-- One iteration of the worker. -/
theorem work_wp (h : Settled s) :
    (tended site).wp work (fun b t => b = true → Settled t) (fun _ _ => True) s := by
  have hpost : ∀ b : Bool, (tended site).Stable fun t => b = true → Settled t :=
    fun b => .imp Settled.stable
  have htake : Plain Act.take := .perform trivial
  refine wp_bind (wp_mono ?_ (fun _ _ _ _ => trivial) (plain_wp Settled.stable htake h))
  rintro taken t - ht
  cases taken with
  | stop => exact wp_ret (hpost false) (by simp)
  | none =>
    refine wp_bind (wp_mono ?_ (fun _ _ _ _ => trivial) (plain_wp Settled.stable monitor_plain ht))
    rintro _ u - hu
    refine wp_bind (wp_mono ?_ (fun _ _ _ _ => trivial) (sourceWork_wp hu))
    exact fun _ v _ hv => wp_ret (hpost true) fun _ => hv
  | job job =>
    refine wp_bind (wp_mono ?_ (fun _ _ _ _ => trivial)
      (plain_wp Settled.stable (.handle (execute_plain job) (handleFailure_plain job)) ht))
    exact fun _ u _ hu => wp_ret (hpost true) fun _ => hu

/-! ## The constructor -/

/-- When the constructor has marked the records that waited, none is left of those that
were sent. -/
theorem Inv.interrupted (h : Inv s) (b : Boot) (out : Outcome) :
    Settled (perform (.commit .interrupted) out
      { s with agent := reboot b s.agent, busy := none }).2 := by
  rw [perform_plain (show (Op.commit .interrupted).plain from trivial)]
  refine ⟨rfl, fun key hkey => ?_⟩
  obtain ⟨c, hc⟩ := h.known hkey
  have hc : (reboot b s.agent).mem.sourceCommands[key]? = some c := hc
  dsimp only
  rw [perform_commit_mem fun _ => rfl, Write.apply_command, hc]
  exact ⟨_, rfl, Write.interrupted_onCommand key c⟩

theorem construct_wp (h : Inv s) (b : Boot) :
    (within fun _ _ => False).wp construct (fun _ => Settled) (fun _ _ => True)
      { s with agent := reboot b s.agent, busy := none } := by
  have hstable : ∀ P : Plant → Prop, (within fun _ _ => False).Stable P :=
    fun _ _ _ _ he => he.elim
  refine wp_bind (wp_bind (wp_perform (hstable fun t =>
    t = { s with agent := reboot b s.agent, busy := none }) rfl ?_ ?_ ?_))
  · rintro t rfl -
    rfl
  · rintro t b' u a rfl - ⟨out, hout⟩ - -
    have hsettled := h.interrupted b out
    rw [show (perform _ out _).2 = u from congrArg Prod.snd hout] at hsettled
    refine wp_ret stable_wp (wp_ret stable_wp ?_)
    have hrest : Plain (do let s ← Act.read; adoptRuns s.runs.keys; m5Recover) :=
      .bind (.perform trivial) fun s => .bind (adoptRuns_plain _) fun _ => m5Recover_plain
    exact wp_mono (fun _ _ _ h => h) (fun _ _ _ _ => trivial) (plain_wp (hstable _) hrest hsettled)
  · exact fun t b u e _ _ _ _ _ => wp_raise (hstable _) trivial

end Plant

/-- The outline of the agent and a workload. -/
def commands (site : Site) (epoch : String) : Outline (plant site) (Plant.init epoch) where
  inv := Plant.Inv
  ready := Plant.Settled
  loop := Plant.Settled
  guar _ s o := s.Guard o
  inv_init :=
    have empty : Orderly {} := ⟨by decide, by simp [State.Waits], by simp⟩
    ⟨empty, empty, fun h => by simp [Plant.init] at h, fun _ => rfl,
      fun h => by simp [Plant.init] at h, List.nodup_nil, fun h => by cases h⟩
  inv_request a _ h := h.request site a
  inv_restart b _ h := h.restart b
  inv_perform _ _ out _ h hg := Plant.inv_perform h hg out
  ready_loop _ h := h
  loop_request a s hinv h :=
    @Plant.Settled.stable site s _ hinv ⟨a, rfl⟩ (hinv.request site a) h
  construct_wp b _ h := Plant.construct_wp h b
  body_wp _ _ h := Plant.work_wp h

end Graphlab.Runtime
