import Graphlab.Node.Loop
import Graphlab.Runtime.SourceControl

/-!
# The ledger of source commands

A node pauses and resumes its two sources by commands.  Each command has an identifier, and the node
keeps the command of each identifier for as long as it lives: one that comes again changes nothing,
however many have come in between, and one with another body is refused.

## Main definitions

* `Sources`, `Sources.apply` — the ledger and one command.
* `Command` — a body that is a command of the epoch.
* `History`, `Sources.run` — any sequence of calls, with what they have accepted.

## Main results

* `ledger_sound` — flags and ledger after any sequence of calls, and what the next call does.
-/

namespace Graphlab.Node

open Lib
open Graphlab.Runtime.SourceControl (repeated wordChar)

/-- `Sources`. -/
structure Sources where
  epoch : String
  paused : Tag → Bool := fun _ => false
  commands : Std.TreeMap String Json := ∅

/-- `p.size()` of an object. -/
def fieldCount : Json → ℕ
  | .object fields => fields.length
  | _ => 0

/-- `p.value(k, "")` of an object. -/
def textOr (p : Json) (k : String) : Except String String :=
  match p.find? k with
  | none => .ok ""
  | some v => v.text

/-- A field that must be a string. -/
def required (p : Json) (k : String) : Except String String :=
  match p.find? k with
  | some (.string v) => .ok v
  | _ => .error "source_contract_invalid"

def isObject : Json → Bool
  | .object _ => true
  | _ => false

def tagOf (source : String) : Option Tag :=
  if source = "alpha" then some .alpha else if source = "beta" then some .beta else none

/-- The checks of `apply` before it looks into the ledger: the identifier, the source and whether
it is paused. -/
def contract (epoch : String) (p : Json) : Except String (String × Tag × Bool) := do
  check "source_contract_invalid" (isObject p && fieldCount p == 5)
  check "source_contract_invalid" ((← textOr p "apiVersion") == "graphlab.source-control/v1")
  let id ← required p "requestId"
  let commandEpoch ← required p "epoch"
  let source ← required p "source"
  let action ← required p "action"
  check "source_request_id_invalid" (repeated wordChar 1 64 id)
  check "source_epoch_changed" (commandEpoch == epoch)
  match tagOf source with
  | none => .error "source_control_unsupported"
  | some tag =>
    check "source_control_unsupported" (action == "pause" || action == "resume")
    return (id, tag, action == "pause")

/-- `Sources::apply`: what is returned or thrown, and the ledger after it. -/
def Sources.apply (s : Sources) (p : Json) : Except String Json × Sources :=
  match contract s.epoch p with
  | .error e => (.error e, s)
  | .ok (id, tag, pausing) =>
    match s.commands[id]? with
    | some old =>
      if old != p then (.error "source_request_conflict", s)
      else (.ok (p.set "outcome" (.string "acknowledged")), s)
    | none =>
      if 256 ≤ s.commands.size then (.error "source_command_capacity", s)
      else (.ok (p.set "outcome" (.string "acknowledged")),
        { s with
          paused := Function.update s.paused tag pausing
          commands := s.commands.insert id p })

/-! ## Commands -/

/-- The body is a command of the epoch, with this identifier, for the source. -/
structure Command (epoch : String) (p : Json) (id : String) (tag : Tag) (pausing : Bool) :
    Prop where
  object : isObject p = true
  fields : fieldCount p = 5
  version : p.find? "apiVersion" = some (.string "graphlab.source-control/v1")
  requestId : p.find? "requestId" = some (.string id)
  form : repeated wordChar 1 64 id = true
  epoch : p.find? "epoch" = some (.string epoch)
  source : p.find? "source" = some (.string tag.text)
  action : p.find? "action" = some (.string (if pausing then "pause" else "resume"))

variable {p : Json} {tag : Tag} {id : String} {pausing : Bool}

theorem required_eq_ok {k v : String} : required p k = .ok v ↔ p.find? k = some (.string v) := by
  unfold required
  split
  · next h => simp [h]
  · next h =>
      refine iff_of_false (by simp) fun hv => h v hv

theorem textOr_eq_ok {k v : String} (hv : v ≠ "") :
    textOr p k = .ok v ↔ p.find? k = some (.string v) := by
  unfold textOr
  split
  · next h => simp [h, hv.symm]
  · next w h => simp [h, Json.text_eq_ok]

theorem tagOf_eq_some {source : String} : tagOf source = some tag ↔ source = tag.text := by
  unfold tagOf
  cases tag <;> split_ifs with ha hb <;> simp_all [Tag.text]

theorem contract_eq_ok {epoch : String} :
    contract epoch p = .ok (id, tag, pausing) ↔ Command epoch p id tag pausing := by
  unfold contract
  simp only [bind_eq_ok, check_eq_ok, required_eq_ok, Bool.and_eq_true, beq_iff_eq]
  constructor
  · rintro ⟨-, ⟨hobject, hfields⟩, version, hversion, -, rfl, id', hid, epoch', hepoch, source,
      hsource, action, haction, -, hform, -, rfl, h⟩
    cases htag : tagOf source with
    | none => simp [htag] at h
    | some =>
      simp only [htag, bind_eq_ok, check_eq_ok, Bool.or_eq_true, beq_iff_eq] at h
      obtain ⟨-, hname, h⟩ := h
      cases h
      refine ⟨hobject, hfields, (textOr_eq_ok (by decide)).mp hversion, hid, hform, hepoch, ?_, ?_⟩
      · rw [hsource, tagOf_eq_some.mp htag]
      · rw [haction]
        rcases hname with rfl | rfl <;> rfl
  · intro h
    refine ⟨(), ⟨h.object, h.fields⟩, _, (textOr_eq_ok (by decide)).mpr h.version, (), rfl, id,
      h.requestId, epoch, h.epoch, tag.text, h.source, _, h.action, (), h.form, (), rfl, ?_⟩
    rw [tagOf_eq_some.mpr rfl]
    cases pausing <;> rfl

/-- What `apply` can do. -/
theorem Sources.apply_cases (s : Sources) (p : Json) :
    (∃ e, s.apply p = (.error e, s)) ∨
    ∃ id tag pausing, Command s.epoch p id tag pausing ∧
      (s.commands[id]? = some p ∧
          s.apply p = (.ok (p.set "outcome" (.string "acknowledged")), s) ∨
        s.commands[id]? = none ∧ s.commands.size < 256 ∧
          s.apply p = (.ok (p.set "outcome" (.string "acknowledged")),
            { s with
              paused := Function.update s.paused tag pausing
              commands := s.commands.insert id p })) := by
  unfold apply
  split
  · exact .inl ⟨_, rfl⟩
  next id tag pausing hcontract =>
  rw [contract_eq_ok] at hcontract
  split
  · next old hold =>
      split
      · exact .inl ⟨_, rfl⟩
      · next heq =>
          obtain rfl : old = p := by simpa using heq
          exact .inr ⟨id, tag, pausing, hcontract, .inl ⟨hold, rfl⟩⟩
  · next hnew =>
      split
      · exact .inl ⟨_, rfl⟩
      · next hroom => exact .inr ⟨id, tag, pausing, hcontract, .inr ⟨hnew, by omega, rfl⟩⟩

theorem Sources.apply_known {s : Sources} (hp : Command s.epoch p id tag pausing)
    (hold : s.commands[id]? = some p) :
    s.apply p = (.ok (p.set "outcome" (.string "acknowledged")), s) := by
  rw [← contract_eq_ok] at hp
  simp [apply, hp, hold]

theorem Sources.apply_new {s : Sources} (hp : Command s.epoch p id tag pausing)
    (hnew : s.commands[id]? = none)
    (hroom : s.commands.size < 256) : (s.apply p).1.isOk = true := by
  have hnot : ¬256 ≤ s.commands.size := by omega
  rw [← contract_eq_ok] at hp
  simp [apply, hp, hnew, hnot, Except.isOk, Except.toBool]

/-- `requestId` of a body. -/
def idOf (p : Json) : Option String :=
  match p.find? "requestId" with
  | some (.string id) => some id
  | _ => none

theorem Command.idOf_eq {epoch : String}
    (h : Command epoch p id tag pausing) : idOf p = some id := by
  rw [idOf, h.requestId]

/-! ## Histories -/

/-- The bodies that were accepted, repetitions included, and the ledger. -/
structure History where
  accepted : List Json := []
  sources : Sources

namespace History

def step (h : History) (p : Json) : History where
  accepted := if (h.sources.apply p).1.isOk then h.accepted ++ [p] else h.accepted
  sources := (h.sources.apply p).2

/-- Any sequence of calls. -/
def run (epoch : String) (ps : List Json) : History :=
  ps.foldl step { sources := { epoch } }

end History

/-- The first body of each identifier. -/
def firsts : List Json → List Json
  | [] => []
  | p :: ps => p :: (firsts ps).filter fun q => idOf q != idOf p

/-- The preference that a body asks for. -/
def prefer (flags : Tag → Bool) (p : Json) : Tag → Bool := fun tag =>
  if p.find? "source" = some (.string tag.text) then p.find? "action" == some (.string "pause")
  else flags tag

/-- One more body: it is first if its identifier is new. -/
theorem firsts_concat (ps : List Json) (p : Json) : firsts (ps ++ [p]) =
    if ∃ q ∈ ps, idOf q = idOf p then firsts ps else firsts ps ++ [p] := by
  induction ps with
  | nil => simp [firsts]
  | cons a ps ih =>
    rw [List.cons_append, firsts, ih]
    by_cases ha : idOf a = idOf p
    · have hold : ∃ q ∈ a :: ps, idOf q = idOf p := ⟨a, List.mem_cons_self .., ha⟩
      rw [if_pos hold, firsts]
      split_ifs with h
      · rfl
      · simp [ha]
    · have hiff : (∃ q ∈ a :: ps, idOf q = idOf p) ↔
          ∃ q ∈ ps, idOf q = idOf p := by simp [ha]
      simp only [hiff, firsts]
      split_ifs with h
      · rfl
      · simp [List.filter_append, Ne.symm ha]

theorem prefer_command {epoch : String} (h : Command epoch p id tag pausing) (flags : Tag → Bool) :
    prefer flags p = Function.update flags tag pausing := by
  funext t
  have hpause : (p.find? "action" == some (.string "pause")) = pausing := by
    rw [h.action]
    cases pausing <;> decide
  rw [prefer, h.source, hpause]
  cases tag <;> cases t <;> simp [Tag.text]

/-! ## The ledger -/

/-- What holds after any sequence of calls. -/
structure Sound (epoch : String) (h : History) : Prop where
  commands : ∀ q ∈ h.accepted, ∃ id tag pausing, Command epoch q id tag pausing
  /-- The flags are those of the accepted bodies, one for each identifier, in order. -/
  flags : h.sources.paused = (firsts h.accepted).foldl prefer fun _ => false
  /-- No identifier that was accepted is forgotten, and no other is known. -/
  retained : ∀ id q, h.sources.commands[id]? = some q ↔ q ∈ h.accepted ∧ idOf q = some id
  count : h.sources.commands.size = (firsts h.accepted).length
  capacity : (firsts h.accepted).length ≤ 256
  epoch : h.sources.epoch = epoch

namespace Sound

variable {epoch : String} {h : History}

theorem start (epoch : String) : Sound epoch { sources := { epoch } } where
  epoch := rfl
  commands := by simp
  flags := rfl
  retained id q := by simp
  count := rfl
  capacity := Nat.zero_le _

/-- An identifier that is not known. -/
theorem new_iff (hs : Sound epoch h) {q : Json} (hid : idOf q = some id) :
    h.sources.commands[id]? = none ↔ ∀ p ∈ h.accepted, idOf p ≠ idOf q := by
  rw [Option.eq_none_iff_forall_ne_some, hid]
  simp only [ne_eq, hs.retained, not_and]

/-- **One call.** -/
theorem step (hs : Sound epoch h) (p : Json) : Sound epoch (h.step p) := by
  have hcommand : ∀ {id tag pausing}, Command h.sources.epoch p id tag pausing →
      ∀ q ∈ h.accepted ++ [p], ∃ id tag pausing, Command epoch q id tag pausing := by
    intro id tag pausing hp q hq
    rcases List.mem_append.mp hq with hq | hq
    · exact hs.commands q hq
    · rw [List.mem_singleton.mp hq]
      exact ⟨id, tag, pausing, hs.epoch ▸ hp⟩
  rcases h.sources.apply_cases p with ⟨e, happly⟩ | ⟨id, tag, pausing, hp, ⟨hold, happly⟩ |
    ⟨hnew, hroom, happly⟩⟩
  · -- refused
    have hstep : h.step p = h := by
      simp [History.step, happly, Except.isOk, Except.toBool]
    rw [hstep]
    exact hs
  · -- accepted before
    have hstep : h.step p = { h with accepted := h.accepted ++ [p] } := by
      simp [History.step, happly, Except.isOk, Except.toBool]
    obtain ⟨hmem, hid⟩ := (hs.retained id p).mp hold
    have hfirsts : firsts (h.accepted ++ [p]) = firsts h.accepted := by
      rw [firsts_concat, if_pos ⟨p, hmem, rfl⟩]
    rw [hstep]
    refine ⟨hcommand hp, ?_, fun id' q => ?_, ?_, ?_, hs.epoch⟩
    · rw [hfirsts]
      exact hs.flags
    · rw [hs.retained]
      constructor
      · rintro ⟨hq, hqid⟩
        exact ⟨List.mem_append_left _ hq, hqid⟩
      · rintro ⟨hq, hqid⟩
        rcases List.mem_append.mp hq with hq | hq
        · exact ⟨hq, hqid⟩
        · obtain rfl := List.mem_singleton.mp hq
          exact ⟨hmem, hqid⟩
    · rw [hfirsts]
      exact hs.count
    · rw [hfirsts]
      exact hs.capacity
  · -- a new identifier
    have hstep : h.step p = { accepted := h.accepted ++ [p], sources := { h.sources with
        paused := Function.update h.sources.paused tag pausing
        commands := h.sources.commands.insert id p } } := by
      simp [History.step, happly, Except.isOk, Except.toBool]
    have hid := hp.idOf_eq
    have hother := (hs.new_iff hid).mp hnew
    have hfirsts : firsts (h.accepted ++ [p]) = firsts h.accepted ++ [p] := by
      rw [firsts_concat, if_neg]
      rintro ⟨q, hq, hqid⟩
      exact hother q hq hqid
    rw [hstep]
    refine ⟨hcommand hp, ?_, fun id' q => ?_, ?_, ?_, hs.epoch⟩
    · rw [hfirsts, List.foldl_append, ← hs.flags]
      exact (prefer_command hp _).symm
    · show (h.sources.commands.insert id p)[id']? = some q ↔ _
      rw [Std.TreeMap.getElem?_insert, List.mem_append, List.mem_singleton]
      split_ifs with hcompare
      · obtain rfl : id = id' := by simpa using hcompare
        constructor
        · intro hq
          obtain rfl := Option.some.inj hq
          exact ⟨.inr rfl, hid⟩
        · rintro ⟨hq | rfl, hqid⟩
          · exact absurd (hqid.trans hid.symm) (hother q hq)
          · rfl
      · rw [hs.retained]
        constructor
        · rintro ⟨hq, hqid⟩
          exact ⟨.inl hq, hqid⟩
        · rintro ⟨hq | rfl, hqid⟩
          · exact ⟨hq, hqid⟩
          · rw [hid] at hqid
            exact absurd (by simpa using hqid) hcompare
    · show (h.sources.commands.insert id p).size = _
      have hcontains : h.sources.commands.contains id = false := by
        rw [Std.TreeMap.contains_eq_isSome_getElem?, hnew]
        rfl
      rw [Std.TreeMap.size_insert, hcontains, hfirsts, List.length_append, hs.count]
      rfl
    · rw [hfirsts, List.length_append, ← hs.count]
      exact hroom

theorem run (epoch : String) (ps : List Json) : Sound epoch (History.run epoch ps) := by
  exact List.foldlRecOn ps History.step (start epoch) fun h hs p _ => hs.step p

/-- Which bodies are accepted next. -/
theorem isOk_apply_iff (hs : Sound epoch h) (q : Json) :
    (h.sources.apply q).1.isOk = true ↔
      (∃ id tag pausing, Command epoch q id tag pausing) ∧
        (q ∈ h.accepted ∨ (∀ p ∈ h.accepted, idOf p ≠ idOf q) ∧
          (firsts h.accepted).length < 256) := by
  constructor
  · intro hok
    rcases h.sources.apply_cases q with ⟨e, happly⟩ | ⟨id, tag, pausing, hq, ⟨hold, -⟩ |
      ⟨hnew, hroom, -⟩⟩
    · rw [happly] at hok
      cases hok
    · exact ⟨⟨id, tag, pausing, hs.epoch ▸ hq⟩, .inl ((hs.retained id q).mp hold).1⟩
    · exact ⟨⟨id, tag, pausing, hs.epoch ▸ hq⟩, .inr ⟨(hs.new_iff hq.idOf_eq).mp hnew,
        hs.count ▸ hroom⟩⟩
  · rintro ⟨⟨id, tag, pausing, hq⟩, hmem | ⟨hnew, hroom⟩⟩
    · have hold := (hs.retained id q).mpr ⟨hmem, hq.idOf_eq⟩
      rw [Sources.apply_known (hs.epoch ▸ hq) hold]
      rfl
    · exact Sources.apply_new (hs.epoch ▸ hq) ((hs.new_iff hq.idOf_eq).mpr hnew)
        (hs.count ▸ hroom)

end Sound

/-- **The ledger after any sequence of calls.**  The next call accepts a body exactly if it is a
command of the epoch that was accepted before, or one with a new identifier while there is room.  A
body that was accepted is acknowledged again and changes nothing, and neither does one that is
refused. -/
theorem ledger_sound (epoch : String) (ps : List Json) :
    let h := History.run epoch ps
    Sound epoch h ∧ ∀ q,
      ((h.sources.apply q).1.isOk = true ↔
        (∃ id tag pausing, Command epoch q id tag pausing) ∧
          (q ∈ h.accepted ∨ (∀ p ∈ h.accepted, idOf p ≠ idOf q) ∧
            (firsts h.accepted).length < 256)) ∧
      (q ∈ h.accepted → h.sources.apply q =
        (.ok (q.set "outcome" (.string "acknowledged")), h.sources)) ∧
      ((h.sources.apply q).1.isOk = false → (h.sources.apply q).2 = h.sources) := by
  intro h
  have hs : Sound epoch h := Sound.run epoch ps
  refine ⟨hs, fun q => ⟨hs.isOk_apply_iff q, fun hmem => ?_, fun hrefused => ?_⟩⟩
  · obtain ⟨id, tag, pausing, hq⟩ := hs.commands q hmem
    exact Sources.apply_known (hs.epoch ▸ hq) ((hs.retained id q).mpr ⟨hmem, hq.idOf_eq⟩)
  · rcases h.sources.apply_cases q with ⟨e, happly⟩ | ⟨id, tag, pausing, -, ⟨-, happly⟩ |
      ⟨-, -, happly⟩⟩
    · rw [happly]
    · rw [happly] at hrefused
      cases hrefused
    · rw [happly] at hrefused
      cases hrefused

end Graphlab.Node
