import Graphlab.Runtime.Commands

/-!
# Twins of source commands

The two ledgers of source commands differ in their keys: the agent's has the principal
and the request identifier, the workload's has the request identifier.  A command that is
new to the agent may be known to the workload: another principal has used its request
identifier, or the agent lost the record of an earlier attempt in a failed `save`.  Such a
command is a *twin*.  The workload acknowledges it and does nothing.

Without twins the ledgers agree: a record that waits is unknown to the workload until it
is sent, so that the acknowledgement of a record is that of a command that took effect.

## Main results

* `source_commands` — at most one send for each record, few records that wait, and
  acknowledged commands that took effect, where no twin is requested.
* `twin_acknowledged` — a twin that is acknowledged and has no effect.
-/

namespace Graphlab.Runtime

open Std (TreeMap)
open Lib Supervised

namespace Plant

/-- The command of `p` is known to the workload, or that of a record that waits. -/
def Twin (s : Plant) (p : SourceRequest) : Prop :=
  s.workload.commands[p.requestId]? = some (SourceControl.wire p) ∨
  ∃ key c, s.agent.mem.Waits key c ∧ SourceControl.wire c.request = SourceControl.wire p

/-- The record waits and its command, one of this workload, is known to the workload. -/
def Told (s : Plant) (d : State) (key : String) : Prop :=
  ∃ c, d.Waits key c ∧ c.request.epoch = s.workload.epoch ∧
    s.workload.commands[c.request.requestId]? = some (SourceControl.wire c.request)

/-- Records of the two documents that wait with the same command are the same. -/
def Apart (s : Plant) (d d' : State) : Prop :=
  ∀ (k k' : String) (c c' : SourceCommand), d.Waits k c → d'.Waits k' c' →
    c.request.epoch = s.workload.epoch →
    SourceControl.wire c.request = SourceControl.wire c'.request → k = k'

/-- The two ledgers agree. -/
structure Agree (s : Plant) : Prop where
  told : ∀ {key : String}, s.Told s.agent.mem key → key ∈ s.sent ∨ s.busy = some key
  saved : ∀ {key : String}, s.Told s.agent.journal key → key ∈ s.sent
  mem : s.Apart s.agent.mem s.agent.mem
  cross : s.Apart s.agent.journal s.agent.mem
  journal : s.Apart s.agent.journal s.agent.journal
  /-- Every command that was acknowledged set the flag of its source. -/
  effect : ∀ e ∈ s.answered, e.2 = true

variable {s : Plant}

variable {key : String}

theorem Told.of_waits {d d' : State} (h : ∀ c, d'.Waits key c → d.Waits key c)
    (ht : s.Told d' key) : s.Told d key := by
  obtain ⟨c, hc, hknown⟩ := ht
  exact ⟨c, h c hc, hknown⟩

theorem Apart.of_waits {d₁ d₂ d₁' d₂' : State} (h : s.Apart d₁ d₂)
    (h₁ : ∀ k c, d₁'.Waits k c → d₁.Waits k c) (h₂ : ∀ k c, d₂'.Waits k c → d₂.Waits k c) :
    s.Apart d₁' d₂' :=
  fun k k' c c' hc hc' => h k k' c c' (h₁ k c hc) (h₂ k' c' hc')

namespace Agree

/-- The agent changes; no record begins to wait. -/
theorem shrink (h : Agree s) {t : Shared} {busy : Option String}
    (hmem : ∀ k c, t.mem.Waits k c → s.agent.mem.Waits k c)
    (hbusy : ∀ k c, t.mem.Waits k c → s.busy = some k → busy = some k)
    (hj : (∀ k c, t.journal.Waits k c → t.mem.Waits k c) ∧
        (∀ k, s.Told t.mem k → k ∈ s.sent) ∨ t.journal = s.agent.journal) :
    Agree { s with agent := t, busy } := by
  have hm : s.Apart t.mem t.mem := h.mem.of_waits hmem hmem
  refine ⟨fun {key} ht => ?_, fun {key} ht => ?_, hm, ?_, ?_, h.effect⟩
  · have ht : s.Told t.mem key := ht
    obtain ⟨c, hc, -⟩ := id ht
    exact (h.told (ht.of_waits (hmem key))).imp_right (hbusy key c hc)
  · have ht : s.Told t.journal key := ht
    rcases hj with ⟨hj, hsent⟩ | hj
    · exact hsent key (ht.of_waits (hj key))
    · exact h.saved (hj ▸ ht)
  · show s.Apart t.journal t.mem
    rcases hj with ⟨hj, -⟩ | hj
    · exact hm.of_waits hj fun _ _ hc => hc
    · exact h.cross.of_waits (fun _ _ hc => hj ▸ hc) hmem
  · show s.Apart t.journal t.journal
    rcases hj with ⟨hj, -⟩ | hj
    · exact hm.of_waits hj hj
    · exact h.journal.of_waits (fun _ _ hc => hj ▸ hc) fun _ _ hc => hj ▸ hc

/-- A record begins to wait that has no twin. -/
theorem grow (h : Agree s) {t : Shared} {c : SourceCommand}
    (hsent : ∀ k, s.Told s.agent.mem k → k ∈ s.sent)
    (hnew : c.request.epoch = s.workload.epoch → ¬ s.Twin c.request)
    (hmem : ∀ k x, t.mem.Waits k x → k = key ∧ x = c ∨ s.agent.mem.Waits k x)
    (hj : ∀ k x, t.journal.Waits k x → t.mem.Waits k x) : Agree { s with agent := t } := by
  have htold : ∀ k, s.Told t.mem k → k ∈ s.sent := by
    rintro k ⟨x, hx, hepoch, hknown⟩
    rcases hmem k x hx with ⟨rfl, rfl⟩ | hold
    · exact absurd (.inl hknown) (hnew hepoch)
    · exact hsent k ⟨x, hold, hepoch, hknown⟩
  have hm : s.Apart t.mem t.mem := by
    intro k k' x x' hx hx' hepoch hwire
    rcases hmem k x hx with ⟨rfl, rfl⟩ | hold <;> rcases hmem k' x' hx' with ⟨rfl, rfl⟩ | hold'
    · rfl
    · exact absurd (.inr ⟨k', x', hold', hwire.symm⟩) (hnew hepoch)
    · have hepoch' : x'.request.epoch = s.workload.epoch :=
        (congrArg SourceWire.epoch hwire).symm.trans hepoch
      exact absurd (.inr ⟨k, x, hold, hwire⟩) (hnew hepoch')
    · exact h.mem k k' x x' hold hold' hepoch hwire
  exact ⟨fun ht => .inl (htold _ ht), fun ht => htold _ (Told.of_waits (s := s) (hj _) ht), hm,
    hm.of_waits hj fun _ _ hx => hx, hm.of_waits hj hj, h.effect⟩

theorem restart (h : Agree s) (b : Boot) :
    Agree { s with agent := reboot b s.agent, busy := none } :=
  ⟨fun ht => .inl (h.saved ht), h.saved, h.journal, h.journal, h.journal, h.effect⟩

/-- A request that is not for a twin. -/
theorem request (h : Agree s) (hinv : Inv s) (site : Site) (a : Arrival)
    (hok : ∀ principal p draw, a = .client principal (.sourceCommand p) draw →
      p.epoch = s.workload.epoch →
      s.agent.mem.sourceCommands[site.sourceKey principal p.requestId]? = none → ¬ s.Twin p) :
    Agree { s with agent := arrive site a s.agent } := by
  by_cases hstop : s.agent.stopping = true
  · obtain ⟨-, hmem, hj⟩ := arrive_stopping site a hstop
    exact h.shrink (fun _ _ hc => hmem ▸ hc) (fun _ _ _ hb => hb) (.inr hj)
  have hsync := hinv.sync (Bool.eq_false_iff.2 hstop)
  have hsent : ∀ k, s.Told s.agent.mem k → k ∈ s.sent :=
    fun _ ht => (h.told ht).elim id fun hb => (hinv.busy hb).resolve_right hstop
  rcases arrive_command site a s.agent with ⟨hc, hj⟩ | ⟨principal, p, draw, c, error, ha, rfl,
    hnew, heq⟩
  · have hmem : ∀ k x, (arrive site a s.agent).mem.Waits k x → s.agent.mem.Waits k x :=
      fun k x hx => by rwa [State.Waits, hc] at hx
    refine h.shrink hmem (fun _ _ _ hb => hb) (.inl ⟨fun k x hx => ?_, fun k ht => ?_⟩)
    · rcases hj with hj | hj
      · rwa [State.Waits, hj] at hx
      · rwa [State.Waits, hj, ← hsync, ← hc] at hx
    · exact hsent k (ht.of_waits (hmem k))
  · rw [heq]
    refine h.grow hsent (fun hepoch => hok principal _ draw ha hepoch hnew.fresh)
      (fun k x hx => State.waits_insert (by rw [Shared.saveRequest_mem]) hx) fun k x hx => ?_
    cases error with
    | none => exact hx
    | some =>
      -- The journal still has what memory had.
      have hx : s.agent.journal.Waits k x := hx
      rw [State.Waits, ← hsync] at hx
      have := arrive_record site a hx.1
      rw [heq] at this
      exact ⟨this, hx.2⟩

/-! ### Operations -/

theorem plain (h : Agree s) {o : Op} (ho : o.plain) (hg : s.Guard o) (out : Outcome) :
    Agree (perform o out s).2 := by
  rw [perform_plain ho]
  have hp := plain_performs (s := s) ho out
  have hmem : ∀ k c, (Runtime.perform o out s.agent).2.mem.Waits k c →
      s.agent.mem.Waits k c := by
    have hrewrites := hp.mem
    generalize (Runtime.perform o out s.agent).2.mem = d at hrewrites
    cases hrewrites with
    | still _ hc hn => exact fun k c hx => by rwa [State.Waits, hc] at hx
    | commit w clock hw =>
      subst hw
      refine fun k c => Write.waits_apply fun k outcome error hw => ?_
      subst hw
      exact ho.elim
  -- Nothing is saved while a record is being sent.
  have hfree : s.busy = none ∨ (Runtime.perform o out s.agent).2.journal = s.agent.journal := by
    cases o with
    | take => exact .inl hg
    | commit w =>
      cases w with
      | sourceDone => exact ho.elim
      | _ => exact .inl hg
    | _ => exact .inr rfl
  refine h.shrink hmem (fun _ _ _ hb => hb) ?_
  rcases hp.saved with hj | ⟨hj, -⟩
  · refine hfree.imp_left fun hb => ⟨fun _ _ hx => hj ▸ hx, fun k ht => ?_⟩
    exact (h.told (ht.of_waits (hmem k))).resolve_right (by simp [hb])
  · exact .inr hj

theorem sourceDone (h : Agree s) {error : String} {outcome : SourceOutcome}
    (hg : s.Guard (.commit (.sourceDone key outcome error))) (out : Outcome) :
    Agree (perform (.commit (.sourceDone key outcome error)) out s).2 := by
  obtain ⟨hne, hbusy, -⟩ := hg
  have hp := perform_performs (o := .commit (.sourceDone key outcome error)) (by simp) out s.agent
  have hmem := perform_commit_mem (w := .sourceDone key outcome error) (fun _ => rfl) out s.agent
  have hwaits : ∀ k c,
      (Runtime.perform (.commit (.sourceDone key outcome error)) out s.agent).2.mem.Waits k c →
      s.agent.mem.Waits k c ∧ s.busy ≠ some k := by
    intro k c hc
    rw [hmem] at hc
    refine ⟨Write.waits_apply (fun _ _ _ heq => by cases heq; exact hne) hc, fun hb => ?_⟩
    exact Write.ne_of_waits_sourceDone hne hc (hbusy k hb)
  refine h.shrink (fun k c hc => (hwaits k c hc).1)
    (fun k c hc hb => absurd hb (hwaits k c hc).2) ?_
  rcases hp.saved with hj | ⟨hj, -⟩
  · refine .inl ⟨fun _ _ hx => hj ▸ hx, fun k ht => ?_⟩
    obtain ⟨c, hc, -⟩ := id ht
    exact (h.told (ht.of_waits fun c hc => (hwaits k c hc).1)).resolve_right (hwaits k c hc).2
  · exact .inr hj

theorem mem_note {run : Run} {r : Resource} {w : SourceWire} (h : key ∈ s.sent) :
    key ∈ s.note run r w := by
  unfold note
  split
  · split
    · exact List.mem_cons_of_mem _ h
    · exact h
  · exact h

theorem send (h : Agree s) {run : Run} {r : Resource} {w : SourceWire}
    (hg : s.Guard (.call (.sourceControl run r (some w)))) (out : Outcome) :
    Agree (perform (.call (.sourceControl run r (some w))) out s).2 := by
  obtain ⟨hfree, key, c, hrecord, hc, rfl, hunsent⟩ := hg
  have hsent : ∀ {d : State} {k : String}, (s.Told d k → k ∈ s.sent ∨ s.busy = some k) →
      s.Told d k → k ∈ s.note run r (SourceControl.wire c.request) :=
    fun hd ht => mem_note ((hd ht).resolve_right (by simp [hfree]))
  suffices hd : Agree { (s.deliver (SourceControl.wire c.request) out).2 with
      agent := s.agent
      sent := s.note run r (SourceControl.wire c.request)
      busy := s.record run r (SourceControl.wire c.request) } from
    ⟨hd.told, hd.saved, hd.mem, hd.cross, hd.journal, hd.effect⟩
  rcases deliver_cases s (SourceControl.wire c.request) out with hd | ⟨ack, next, hepoch, happly, hd⟩
  · rw [hd]
    exact ⟨fun ht => .inl (hsent h.told ht), fun ht => hsent (fun ht => .inl (h.saved ht)) ht,
      h.mem, h.cross, h.journal, h.effect⟩
  rw [hd]
  have hepoch : c.request.epoch = s.workload.epoch := hepoch
  rcases Sources.apply_ok happly with ⟨hold, -⟩ | ⟨hnew, source, -, rfl⟩
  · -- A record the workload knows was sent already.
    rcases h.told ⟨c, hc, hepoch, hold⟩ with hk | hk
    · exact absurd hk hunsent
    · simp [hfree] at hk
  have htold : ∀ {d : State} {k : String},
      Told (s.acknowledge (SourceControl.wire c.request)
        (s.workload.record source (SourceControl.wire c.request))) d k →
      s.Told d k ∨ ∃ x, d.Waits k x ∧ x.request.epoch = s.workload.epoch ∧
        SourceControl.wire x.request = SourceControl.wire c.request := by
    rintro d k ⟨x, hx, hxepoch, hknown⟩
    have hknown := (Sources.record_command s.workload source (SourceControl.wire c.request)
      x.request.requestId).symm.trans hknown
    split at hknown
    · exact .inr ⟨x, hx, hxepoch, (Option.some.inj hknown).symm⟩
    · exact .inl ⟨x, hx, hxepoch, hknown⟩
  refine ⟨fun {k} ht => ?_, fun {k} ht => ?_, h.mem, h.cross, h.journal, fun e he => ?_⟩
  · rcases htold ht with ht | ⟨x, hx, hxepoch, hwire⟩
    · exact .inl (hsent h.told ht)
    · rw [h.mem k key x c hx hc hxepoch hwire]
      exact .inr hrecord
  · rcases htold ht with ht | ⟨x, hx, hxepoch, hwire⟩
    · exact hsent (fun ht => .inl (h.saved ht)) ht
    · obtain rfl : k = key := h.cross k key x c hx hc hxepoch hwire
      have hin : s.agent.journal.sourceCommands.contains k = true :=
        TreeMap.mem_iff_contains.1 (TreeMap.mem_iff_isSome_getElem?.2 (by simp [hx.1]))
      show k ∈ s.note run r (SourceControl.wire c.request)
      simp [note, hrecord, hin]
  · rcases List.mem_cons.1 he with rfl | he
    · have hout : s.workload.commands.contains (SourceControl.wire c.request).requestId = false := by
        rw [Bool.eq_false_iff]
        intro hin
        have := TreeMap.mem_iff_isSome_getElem?.1 (TreeMap.mem_iff_contains.2 hin)
        simp [hnew] at this
      simp [hout]
    · exact h.effect e he

theorem perform (h : Agree s) {o : Op} (hg : s.Guard o) (out : Outcome) :
    Agree (Plant.perform o out s).2 := by
  by_cases ho : o.plain
  · exact h.plain ho hg out
  · unfold Op.plain at ho
    split at ho
    · exact h.send hg out
    · exact h.sourceDone hg out
    · exact absurd hg ho
    · exact absurd trivial ho

end Agree

/-! ## Acknowledgements -/

/-- A record of the agent's memory that is acknowledged. -/
def Acknowledged (s : Plant) (key : String) (c : SourceCommand) : Prop :=
  s.agent.mem.sourceCommands[key]? = some c ∧ c.outcome = .acknowledged

/-- A request acknowledges nothing. -/
theorem acknowledged_request {site : Site} {a : Arrival} {c : SourceCommand}
    (h : Acknowledged { s with agent := arrive site a s.agent } key c) : s.Acknowledged key c := by
  obtain ⟨hc, hack⟩ := h
  rcases arrive_command site a s.agent with ⟨hq, -⟩ | ⟨principal, p, draw, x, error, -, -, hnew, heq⟩
  · exact ⟨by rwa [← hq], hack⟩
  · have hc : (arrive site a s.agent).mem.sourceCommands[key]? = some c := hc
    rw [heq, Shared.saveRequest_mem] at hc
    simp only [TreeMap.getElem?_insert, Std.LawfulEqCmp.compare_eq_iff_eq] at hc
    split at hc
    · obtain rfl := Option.some.inj hc
      rw [hnew.waits] at hack
      cases hack
    · exact ⟨hc, hack⟩

/-- What a restart finds acknowledged was acknowledged. -/
theorem acknowledged_restart (hinv : Inv s) {b : Boot} {c : SourceCommand}
    (h : Acknowledged { s with agent := reboot b s.agent, busy := none } key c) :
    s.Acknowledged key c := by
  obtain ⟨hc, hack⟩ := h
  obtain ⟨_, hc', heq⟩ := hinv.kept hc
  obtain rfl := heq (by simp [hack])
  exact ⟨hc', hack⟩

/-- An operation that acknowledges a record does so for a command that was answered. -/
theorem acknowledged_perform {o : Op} (hg : s.Guard o) {out : Outcome} {c : SourceCommand}
    (h : Acknowledged (perform o out s).2 key c) :
    (∃ c', s.Acknowledged key c') ∨
    (c.request.epoch = s.workload.epoch → (perform o out s).2.Answers c.request) := by
  obtain ⟨hc, hack⟩ := h
  by_cases ho : o.plain
  · rw [perform_plain ho] at hc
    have hrewrites := (plain_performs (s := s) ho out).mem
    dsimp only at hc
    generalize (Runtime.perform o out s.agent).2.mem = d at hrewrites hc
    cases hrewrites with
    | still _ hd hn => exact .inl ⟨c, hd ▸ hc, hack⟩
    | commit w clock hw =>
      subst hw
      have hplain : w.plain := by cases w <;> trivial
      rw [Write.apply_command, Option.map_eq_some_iff] at hc
      obtain ⟨c₀, hc₀, rfl⟩ := hc
      rcases Write.plain_onCommand hplain key c₀ with heq | ⟨-, hi⟩
      · exact .inl ⟨c₀, hc₀, heq ▸ hack⟩
      · rw [hi] at hack
        cases hack
  · unfold Op.plain at ho
    split at ho
    · exact .inl ⟨c, hc, hack⟩
    · next k outcome error =>
        obtain ⟨-, -, _, hwaits, hanswers⟩ := hg
        have hc : (Runtime.perform (.commit (.sourceDone k outcome error)) out
          s.agent).2.mem.sourceCommands[key]? = some c := hc
        rw [perform_commit_mem fun _ => rfl, Write.apply_command, Option.map_eq_some_iff] at hc
        obtain ⟨x, hx, rfl⟩ := hc
        by_cases hk : k = key
        · subst hk
          cases hwaits.1.symm.trans hx
          simp only [Write.onCommand, if_pos] at hack ⊢
          exact .inr (hanswers hack)
        · simp only [Write.onCommand, if_neg hk] at hack
          exact .inl ⟨x, hx, hack⟩
    · exact absurd hg ho
    · exact absurd trivial ho

end Plant

/-- No twin is requested under a key that is new to the agent. -/
def NoTwins (site : Site) : Condition Op Ans Failure Plant Arrival Outcome Boot := fun c i =>
  ∀ principal p draw, i = .request (.client principal (.sourceCommand p) draw) →
    p.epoch = c.state.workload.epoch →
    c.state.agent.mem.sourceCommands[site.sourceKey principal p.requestId]? = none →
    ¬ c.state.Twin p

section Reached

variable {site : Site} {epoch : String} {c : Config Op Ans Failure Plant}

theorem Plant.agree_of_noTwins (h : (plant site).Reach (NoTwins site) (Plant.init epoch) c) :
    c.state.Agree := by
  have hinit : (Plant.init epoch).Agree :=
    ⟨fun ht => by simp [Told, State.Waits, init] at ht,
      fun ht => by simp [Told, State.Waits, init] at ht,
      fun _ _ _ _ hc => by simp [State.Waits, init] at hc,
      fun _ _ _ _ hc => by simp [State.Waits, init] at hc,
      fun _ _ _ _ hc => by simp [State.Waits, init] at hc, by simp [init]⟩
  refine (commands site epoch).invariant hinit ?_ ?_ ?_ h
  · rintro c a hok hinv hagree
    exact hagree.request hinv site a fun principal p draw ha => hok principal p draw (by rw [ha])
  · rintro c out o - - hinv hg hagree
    exact hagree.perform hg out
  · rintro c b - - hagree
    exact hagree.restart b

/-- **Source commands.**  Where no twin is requested: no record that was committed is sent
twice; what is sent next is the command of a record that waits and was not sent; at most
eight records wait, and one for each source of a node; and when a record of a command to
this workload becomes acknowledged, that command was the last the workload acknowledged,
and it has set the flag of its source. -/
theorem source_commands (h : (plant site).Reach (NoTwins site) (Plant.init epoch) c) :
    c.state.sent.Nodup ∧
    (∀ run r w, c.thread.nextOp = some (.call (.sourceControl run r (some w))) →
      ∃ key x, c.state.record run r w = some key ∧ c.state.agent.mem.Waits key x ∧
        SourceControl.wire x.request = w ∧ key ∉ c.state.sent) ∧
    (∀ d ∈ [c.state.agent.mem, c.state.agent.journal], pendingCommands d ≤ 8 ∧
      ∀ k k' x x', d.Waits k x → d.Waits k' x' → x.request.Rivals x'.request → k = k') ∧
    ∀ i key x, ((plant site).step c i).state.Acknowledged key x →
      (¬ ∃ y, c.state.Acknowledged key y) → x.request.epoch = c.state.workload.epoch →
      ∃ source rest, SourceId.ofName x.request.source = some source ∧
        ((plant site).step c i).state.answered = (SourceControl.wire x.request, true) :: rest ∧
        ((plant site).step c i).state.workload.paused source = (x.request.action == "pause") := by
  have hcovers := (commands site epoch).sound h
  have hinv : c.state.Inv := hcovers.1
  refine ⟨hinv.once, fun run r w hop => ?_, fun d hd => ?_, fun i key x hack hnot hepoch => ?_⟩
  · obtain ⟨-, key, x, hsend⟩ := (commands site epoch).guard hcovers hop
    exact ⟨key, x, hsend⟩
  · have hd : Orderly d := by
      rcases List.mem_pair.1 hd with rfl | rfl
      · exact hinv.mem
      · exact hinv.journal
    exact ⟨hd.few, fun _ _ _ _ => hd.apart⟩
  · rcases (commands site epoch).step_cases hcovers i with hs | ⟨a, rfl, -, hs⟩ |
      ⟨out, o, rfl, -, hg, hs⟩ | ⟨b, rfl, hs⟩
    · rw [hs] at hack
      exact absurd ⟨x, hack⟩ hnot
    · rw [hs] at hack
      exact absurd ⟨x, Plant.acknowledged_request hack⟩ hnot
    · rw [hs] at hack ⊢
      obtain ⟨set, rest, hanswered, hset⟩ :=
        ((Plant.acknowledged_perform hg hack).resolve_left hnot) hepoch
      have hagree := (Plant.agree_of_noTwins h).perform hg out
      obtain rfl : set = true := hagree.effect (_, set) (hanswered ▸ List.mem_cons_self ..)
      obtain ⟨source, hsource, hflag⟩ := hset rfl
      exact ⟨source, rest, hsource, hanswered, hflag⟩
    · rw [hs] at hack
      exact absurd ⟨x, Plant.acknowledged_restart hinv hack⟩ hnot

end Reached

/-! ## A run with a twin -/

namespace Sample

/-- One container, in which the source `alpha` runs. -/
def station : Site :=
  { site false with
    resolve := fun _ => some
      { topology :=
          { captureRequired := false
            nodes := [("b", { kind := .docker })]
            application := [{ id := "alpha", source := "b" }] } } }

def epoch : String := "0123456789abcdef0123456789abcdef"

/-- What the workload reports. -/
def capability : Capability :=
  { apiVersion := "graphlab.source-control/v1"
    epoch
    sources := [⟨"alpha", "running", "0"⟩, ⟨"beta", "running", "0"⟩] }

/-- Steps of the worker in which the workload answers. -/
def attended (n : ℕ) : List Choice :=
  List.replicate n (.work { reply := { identity := { id := "box" }, capability } })

def command (principal : ℕ) (action requestId : String) : Choice :=
  .request (.client principal (.sourceCommand
    { runId := "a", node := "b", apiVersion := "graphlab.source-control/v1", instanceId := "box",
      epoch, source := "alpha", action, requestId }) { capability })

/-- A run becomes ready, and a pause is about to be recorded as acknowledged. -/
def pausing : List Choice :=
  up ++ start "a" "j" "start-one" :: attended 21 ++ command 0 "pause" "r1" :: attended 11

/-- The source is paused and resumed; then another principal pauses it, with the request
identifier of the first pause. -/
def pausingTwice : List Choice :=
  pausing ++ attended 1 ++ command 0 "resume" "r2" :: attended 12 ++
    command 1 "pause" "r1" :: attended 11

/-- The agent and a workload after a run. -/
def after (is : List Choice) : Config Op Ans Failure Plant :=
  (plant station).run ⟨.init epoch, .down⟩ is

/-- No command is known to the workload or waits when one is requested. -/
def twinless (c : Config Op Ans Failure Plant) : Choice → Bool
  | .request (.client _ (.sourceCommand p) _) =>
    c.state.workload.commands[p.requestId]?.isNone && c.state.agent.mem.waiting.isEmpty
  | _ => true

theorem noTwins_of_twinless (c : Config Op Ans Failure Plant) (i : Choice)
    (h : twinless c i = true) : NoTwins station c i := by
  rintro principal p draw rfl - -
  simp only [twinless, Bool.and_eq_true, Option.isNone_iff_eq_none, List.isEmpty_iff] at h
  rintro (hknown | ⟨key, x, hx, -⟩)
  · simp [h.1] at hknown
  · have := State.mem_waiting.2 ⟨x, hx⟩
    simp [h.2] at this

/-- The record of the pause, as the next step leaves it. -/
def paused : Option SourceCommand :=
  (after (pausing ++ attended 1)).state.agent.mem.sourceCommands["0:r1"]?

end Sample

theorem source_commands_paused : ∃ x, Sample.paused = some x ∧ x.outcome = .acknowledged ∧
    ∃ source rest, SourceId.ofName x.request.source = some source ∧
      (Sample.after (Sample.pausing ++ Sample.attended 1)).state.answered =
        (SourceControl.wire x.request, true) :: rest ∧
      (Sample.after (Sample.pausing ++ Sample.attended 1)).state.workload.paused source =
        (x.request.action == "pause") := by
  have hreach : (plant Sample.station).Reach (NoTwins Sample.station) (.init Sample.epoch)
      (Sample.after Sample.pausing) :=
    Path.of_checks Sample.noTwins_of_twinless .refl _ (by decide)
  have hstep := source_commands hreach |>.2.2.2
    (.work { reply := { identity := { id := "box" }, capability := Sample.capability } }) "0:r1"
  have hbefore : (Sample.after Sample.pausing).state.agent.mem.sourceCommands["0:r1"]?.map
      SourceCommand.outcome = some .requested := by decide
  have hafter : Sample.paused.map (fun x => (x.outcome, x.request.epoch)) =
      some (.acknowledged, (Sample.after Sample.pausing).state.workload.epoch) := by decide
  have hrun : Sample.after (Sample.pausing ++ Sample.attended 1) =
      (plant Sample.station).step (Sample.after Sample.pausing)
        (.work { reply := { identity := { id := "box" }, capability := Sample.capability } }) :=
    run_append ..
  obtain ⟨x, hx, hfields⟩ := Option.map_eq_some_iff.1 hafter
  obtain ⟨hack, hepoch⟩ := Prod.mk.inj hfields
  refine ⟨x, hx, hack, ?_⟩
  rw [Sample.paused, hrun] at hx
  rw [hrun]
  refine hstep x ⟨hx, hack⟩ ?_ hepoch
  rintro ⟨y, hy, hyack⟩
  simp [hy, hyack] at hbefore

/-- The second pause is acknowledged, and the source runs. -/
theorem twin_acknowledged :
    let c := Sample.after Sample.pausingTwice
    let t := Sample.after (Sample.pausingTwice ++ Sample.attended 1)
    c.state.agent.mem.sourceCommands["1:r1"]?.map SourceCommand.outcome = some .requested ∧
    t.state.agent.mem.sourceCommands["1:r1"]?.map (fun x =>
      (x.outcome, x.request.source, x.request.action, x.request.epoch)) =
      some (.acknowledged, "alpha", "pause", t.state.workload.epoch) ∧
    t.state.workload.paused .alpha = false ∧
    t.state.answered.map (fun e => (e.1.action, e.1.requestId, e.2)) =
      [("pause", "r1", false), ("resume", "r2", true), ("pause", "r1", true)] := by
  decide +kernel

end Graphlab.Runtime
