import Graphlab.Lib.Quoted
import Graphlab.Messages.Identifier
import Graphlab.Messages.Ledger

/-!
# The reporter of a workload

`Reporter` numbers the messages that a workload sends and receives and keeps the last eight
for its reports.  Every report is well formed (`validate_report`): the numbers of its events
are contiguous and its text is within the limit.

## Main definitions

* `Observation` — an observed message; `Observation.json` its event.
* `Reporter.observe`, `Reporter.report`.
-/

namespace Graphlab.Messages

open Lib

inductive Kind
  | send | receive
  deriving DecidableEq, Repr

def Kind.text : Kind → String
  | .send => "send"
  | .receive => "receive"

def Stream.text : Stream → String
  | .alpha => "alpha"
  | .beta => "beta"

def Phase.text : Phase → String
  | .request => "request"
  | .response => "response"

/-- A string of bytes as a text; of ASCII characters, in all that is modelled. -/
def text (b : Bytes) : String := String.ofList (b.map fun x => Char.ofNat x.toNat)

/-- A message that was observed. -/
structure Observation where
  identifier : Identifier
  kind : Kind
  payloadLength : ℕ
  time : ℕ
  deriving DecidableEq, Repr

/-- The event with the number `n`, its fields in the order of their keys. -/
def Observation.json (o : Observation) (n : ℕ) : Json :=
  .object
    [("kind", .string o.kind.text),
     ("messageId", .string (text o.identifier.messageId)),
     ("payloadLength", .string (toString o.payloadLength)),
     ("phase", .string o.identifier.phase.text),
     ("sequence", .string (toString n)),
     ("stream", .string o.identifier.stream.text),
     ("timestampMonotonicNs", .string (toString o.time)),
     ("traceId", .string (text o.identifier.traceId))]

structure Reporter where
  epoch : String
  sequence : ℕ := 0
  events : List Json := []

namespace Reporter

/-- What `observe` makes of a datagram, or nothing if it has no identifier. -/
def observation (wire : Bytes) (kind : Kind) (now : ℕ) : Option Observation :=
  (identifier wire).map fun identifier =>
    { identifier, kind, payloadLength := wire.length, time := now }

/-- `observe`. -/
def observe (r : Reporter) (wire : Bytes) (kind : Kind) (now : ℕ) : Reporter :=
  match observation wire kind now with
  | none => r
  | some o =>
    let events := r.events ++ [o.json (r.sequence + 1)]
    { r with
      sequence := r.sequence + 1
      events := if 8 < events.length then events.drop 1 else events }

/-- `report`. -/
def report (r : Reporter) : Json :=
  .object
    [("apiVersion", .string "graphlab.message-observations/v1"),
     ("clock", .string "reporter-monotonic-ns"),
     ("epoch", .string r.epoch),
     ("events", .array r.events),
     ("evicted", .string (toString (r.sequence - r.events.length))),
     ("payloadRecorded", .bool false),
     ("total", .string (toString r.sequence))]

end Reporter

/-! ## Texts -/

theorem toNat_of_hexChar {c : Char} (h : hexChar c = true) :
    (97 ≤ c.toNat ∧ c.toNat ≤ 102) ∨ (48 ≤ c.toNat ∧ c.toNat ≤ 57) := by
  simp only [hexChar, Bool.or_eq_true, Bool.and_eq_true, decide_eq_true_eq, Char.le_def,
    UInt32.le_iff_toNat_le] at h
  exact h

private theorem hexChar_of_hexByte_fin :
    ∀ n : Fin 256, hexByte (UInt8.ofNat n) = true → hexChar (Char.ofNat n) = true := by
  decide +kernel

theorem hexChar_of_hexByte {b : UInt8} (h : hexByte b = true) :
    hexChar (Char.ofNat b.toNat) = true :=
  hexChar_of_hexByte_fin ⟨b.toNat, b.toNat_lt⟩ (by rwa [UInt8.ofNat_toNat])

theorem plainChar_of_hexChar {c : Char} (h : hexChar c = true) : PlainChar c := by
  have hrange := toNat_of_hexChar h
  refine ⟨by omega, by omega, ?_, ?_⟩
  · rintro rfl
    revert hrange
    decide
  · rintro rfl
    revert hrange
    decide

variable {n : ℕ}

/-- A text of hexadecimal digits in a quoted string. -/
theorem quotedSize_of_hexText {s : String} (h : hexText n s = true) :
    Json.quotedSize s = 2 + n := by
  simp only [hexText, Bool.and_eq_true, beq_iff_eq, List.all_eq_true] at h
  rw [quotedSize_of_plain fun c hc => plainChar_of_hexChar (h.2 c hc), h.1]

theorem quotedSize_toString_le_20 (h : n < 10 ^ 18) :
    Json.quotedSize (toString n) ≤ 20 :=
  quotedSize_toString_le (by decide) h

/-! ## Events -/

/-- An observation as `observe` makes it: an identifier of 48 digits, in a datagram of 53 bytes. -/
structure Observation.Valid (o : Observation) : Prop where
  length : o.identifier.messageId.length = 48
  hex : o.identifier.messageId.all hexByte = true
  trace : o.identifier.traceId = o.identifier.messageId
  payloadLength : o.payloadLength = 53
  time : o.time < 10 ^ 18

theorem str_string {fs : List (String × Json)} {k s : String} {max : ℕ}
    (h : (Json.object fs).find? k = some (.string s)) (hne : s ≠ "") (hle : s.utf8ByteSize ≤ max) :
    str (.object fs) k max = .ok s := by
  simp only [str, h]
  rw [if_neg (by simpa [hne] using hle)]

theorem number_toString {fs : List (String × Json)} {k : String}
    (h : (Json.object fs).find? k = some (.string (toString n))) (hn : n < 10 ^ 18) :
    number (.object fs) k = .ok n := by
  have hsize : (toString n).utf8ByteSize ≤ 18 := by
    rw [utf8ByteSize_toString, Nat.length_toDigits_le_iff (by decide) (by decide)]
    exact hn
  rw [number, str_string h (Nat.repr_ne_empty) hsize, ok_bind, decimal_toString]

namespace Observation

variable {o : Observation} (h : o.Valid)
include h

theorem Valid.hexText : hexText 48 (text o.identifier.messageId) = true := by
  have hall : (o.identifier.messageId.map fun x => Char.ofNat x.toNat).all hexChar = true := by
    have hhex := h.hex
    rw [List.all_eq_true] at hhex
    rw [List.all_map, List.all_eq_true]
    exact fun b hb => hexChar_of_hexByte (hhex b hb)
  simp only [Messages.hexText, text, String.toList_ofList, List.length_map, h.length, hall]
  rfl

theorem Valid.utf8ByteSize : (text o.identifier.messageId).utf8ByteSize = 48 := by
  have hhex := h.hexText
  simp only [Messages.hexText, Bool.and_eq_true, beq_iff_eq, text, String.toList_ofList,
    List.all_eq_true] at hhex
  rw [text, utf8ByteSize_ofList_of_ascii, hhex.1]
  intro c hc
  have hrange := toNat_of_hexChar (hhex.2 c hc)
  omega

theorem Valid.quotedSize : Json.quotedSize (text o.identifier.messageId) = 50 :=
  quotedSize_of_hexText h.hexText

/-- The text of an event. -/
theorem Valid.dumpSize (hn : n < 10 ^ 18) : (o.json n).dumpSize ≤ 275 := by
  have hsequence := quotedSize_toString_le_20 hn
  have htime := quotedSize_toString_le_20 h.time
  have hkind : Json.quotedSize o.kind.text ≤ 9 := by cases o.kind <;> decide
  have hphase : Json.quotedSize o.identifier.phase.text ≤ 10 := by
    cases o.identifier.phase <;> decide
  have hstream : Json.quotedSize o.identifier.stream.text ≤ 7 := by
    cases o.identifier.stream <;> decide
  have hlength : Json.quotedSize (toString o.payloadLength) = 4 := by
    rw [h.payloadLength]
    decide
  have hkeys : Json.quotedSize "kind" = 6 ∧ Json.quotedSize "messageId" = 11 ∧
      Json.quotedSize "payloadLength" = 15 ∧ Json.quotedSize "phase" = 7 ∧
      Json.quotedSize "sequence" = 10 ∧ Json.quotedSize "stream" = 8 ∧
      Json.quotedSize "timestampMonotonicNs" = 22 ∧ Json.quotedSize "traceId" = 9 := by
    decide
  simp only [json, Json.dumpSize_object, Json.fieldsSize_cons, Json.fieldsSize_nil,
    Json.dumpSize_string, h.trace, h.quotedSize, hlength, hkeys]
  omega

/-- The event is accepted where its number is expected. -/
theorem Valid.validateEvent {previous : ℕ} (hn : n < 10 ^ 18) (hprevious : previous ≤ o.time) :
    validateEvent n previous (o.json n) = .ok o.time := by
  have hid : text o.identifier.messageId ≠ "" := by
    intro hempty
    have hsize := h.utf8ByteSize
    rw [hempty] at hsize
    exact absurd hsize (by decide)
  have hsequence : number (o.json n) "sequence" = .ok n := number_toString rfl hn
  have hlength : number (o.json n) "payloadLength" = .ok 53 := by
    rw [← h.payloadLength]
    exact number_toString rfl (by rw [h.payloadLength]; decide)
  have htime : number (o.json n) "timestampMonotonicNs" = .ok o.time := number_toString rfl h.time
  have hmessage : str (o.json n) "messageId" = .ok (text o.identifier.messageId) :=
    str_string rfl hid (by rw [h.utf8ByteSize]; decide)
  have htrace : at' (o.json n) "traceId" = .ok (.string (text o.identifier.messageId)) := by
    rw [← h.trace]
    rfl
  have hstream : value (o.json n) "stream" = .ok o.identifier.stream.text := rfl
  have hkind : value (o.json n) "kind" = .ok o.kind.text := rfl
  have hphase : value (o.json n) "phase" = .ok o.identifier.phase.text := rfl
  have hfields : fields (o.json n) ["sequence", "messageId", "traceId", "stream", "kind",
      "payloadLength", "timestampMonotonicNs", "phase"] = .ok () := by
    exact check_eq_ok.mpr (by simp)
  have hstreams : (o.identifier.stream.text == "alpha" || o.identifier.stream.text == "beta") = true := by
    cases o.identifier.stream <;> decide
  have hkinds : (o.kind.text == "send" || o.kind.text == "receive") = true := by
    cases o.kind <;> decide
  have hphases : (o.identifier.phase.text == "request" ||
      o.identifier.phase.text == "response") = true := by
    cases o.identifier.phase <;> decide
  rw [Messages.validateEvent, hfields, ok_bind, hsequence, ok_bind, check_bind (beq_self_eq_true n),
    hmessage, ok_bind, check_bind h.hexText, htrace, ok_bind, check_bind (by simp), hstream, ok_bind,
    check_bind hstreams, hkind, ok_bind, check_bind hkinds, hphase, ok_bind, check_bind hphases,
    hlength, ok_bind, check_bind (by decide), htime, ok_bind, check_bind (by simpa using hprevious)]
  rfl

end Observation

/-! ## Reports -/

/-- The events of observations that are numbered from `n` on. -/
def enumerate : ℕ → List Observation → List Json
  | _, [] => []
  | n, o :: os => o.json n :: enumerate (n + 1) os

@[simp] theorem length_enumerate (n : ℕ) (os : List Observation) :
    (enumerate n os).length = os.length := by
  induction os generalizing n with
  | nil => rfl
  | cons o os ih => simp [enumerate, ih]

theorem enumerate_append (n : ℕ) (os os' : List Observation) :
    enumerate n (os ++ os') = enumerate n os ++ enumerate (n + os.length) os' := by
  induction os generalizing n with
  | nil => simp [enumerate]
  | cons o os ih =>
    rw [List.cons_append, enumerate, ih, enumerate, List.cons_append, List.length_cons,
      Nat.add_assoc n 1, Nat.add_comm 1]

theorem enumerate_drop (n k : ℕ) (os : List Observation) :
    (enumerate n os).drop k = enumerate (n + k) (os.drop k) := by
  induction k generalizing n os with
  | zero => rfl
  | succ k ih =>
    cases os with
    | nil => rfl
    | cons =>
      rw [enumerate, List.drop_succ_cons, ih, List.drop_succ_cons, Nat.add_assoc, Nat.add_comm 1]

theorem validateEvents_enumerate {previous : ℕ} {os : List Observation} (hvalid : ∀ o ∈ os, o.Valid)
    (hclock : List.IsChain (· ≤ ·) (previous :: os.map Observation.time))
    (hlast : n + os.length ≤ 10 ^ 18) : validateEvents n previous (enumerate n os) = .ok () := by
  induction os generalizing n previous with
  | nil => rfl
  | cons o os ih =>
    rw [List.map_cons, List.isChain_cons_cons] at hclock
    rw [List.length_cons] at hlast
    rw [enumerate, validateEvents,
      (hvalid o List.mem_cons_self).validateEvent (by omega) hclock.1, ok_bind]
    exact ih (fun o ho => hvalid o (List.mem_cons_of_mem _ ho)) hclock.2 (by omega)

theorem valuesSize_enumerate {os : List Observation} (hvalid : ∀ o ∈ os, o.Valid)
    (hlast : n + os.length ≤ 10 ^ 18) : Json.valuesSize (enumerate n os) ≤ 276 * os.length := by
  induction os generalizing n with
  | nil => exact Nat.le_refl 0
  | cons o os ih =>
    rw [List.length_cons] at hlast ⊢
    have hfirst := (hvalid o List.mem_cons_self).dumpSize (n := n) (by omega)
    have hrest := ih (n := n + 1) (fun o ho => hvalid o (List.mem_cons_of_mem _ ho)) (by omega)
    rw [enumerate, Json.valuesSize]
    omega

/-- A reporter with at most eight events, which are the last it has numbered. -/
structure Reporter.Window (r : Reporter) (evicted : ℕ) (os : List Observation) : Prop where
  epoch : hexText 32 r.epoch = true
  events : r.events = enumerate (evicted + 1) os
  sequence : r.sequence = evicted + os.length
  length : os.length ≤ 8
  valid : ∀ o ∈ os, o.Valid
  clock : List.IsChain (· ≤ ·) (os.map Observation.time)
  bound : r.sequence < 10 ^ 18

namespace Reporter.Window

variable {r : Reporter} {evicted : ℕ} {os : List Observation} (h : r.Window evicted os)
include h

theorem total : number r.report "total" = .ok r.sequence := number_toString rfl h.bound

theorem evicted_eq : number r.report "evicted" = .ok evicted := by
  have hsequence := h.sequence
  have hbound := h.bound
  have hdiff : r.sequence - r.events.length = evicted := by
    rw [h.events, length_enumerate]
    omega
  rw [← hdiff]
  exact number_toString rfl (by omega)

theorem epoch_eq : str r.report "epoch" = .ok r.epoch ∧ Json.quotedSize r.epoch = 34 := by
  have hepoch := h.epoch
  simp only [hexText, Bool.and_eq_true, beq_iff_eq] at hepoch
  have hascii : ∀ c ∈ r.epoch.toList, c.toNat < 128 := by
    intro c hc
    have hrange := toNat_of_hexChar (List.all_eq_true.mp hepoch.2 c hc)
    omega
  have hsize : r.epoch.utf8ByteSize = 32 := by
    rw [← String.ofList_toList (s := r.epoch), utf8ByteSize_ofList_of_ascii hascii, hepoch.1]
  have hne : r.epoch ≠ "" := by
    rintro hempty
    rw [hempty] at hsize
    exact absurd hsize (by decide)
  exact ⟨str_string rfl hne (by omega), quotedSize_of_hexText h.epoch⟩

theorem dumpSize : r.report.dumpSize ≤ 3500 := by
  have hbound := h.bound
  have hsequence := h.sequence
  have hevents : (Json.array r.events).dumpSize ≤ 2 + 276 * os.length := by
    have hvalues := valuesSize_enumerate h.valid (n := evicted + 1) (by omega)
    rw [← h.events] at hvalues
    cases hlist : r.events with
    | nil => exact Nat.le_add_right 2 _
    | cons =>
      rw [hlist] at hvalues
      rw [Json.dumpSize]
      omega
  have hlength := h.length
  have hepoch := h.epoch_eq.2
  have htotal := quotedSize_toString_le_20 h.bound
  have hevicted := quotedSize_toString_le_20 (n := r.sequence - r.events.length) (by omega)
  have hkeys : Json.quotedSize "apiVersion" = 12 ∧ Json.quotedSize "clock" = 7 ∧
      Json.quotedSize "epoch" = 7 ∧ Json.quotedSize "events" = 8 ∧ Json.quotedSize "evicted" = 9 ∧
      Json.quotedSize "payloadRecorded" = 17 ∧ Json.quotedSize "total" = 7 ∧
      Json.quotedSize "graphlab.message-observations/v1" = 34 ∧
      Json.quotedSize "reporter-monotonic-ns" = 23 := by
    decide
  have hrecorded : (Json.bool false).dumpSize = 5 := by decide
  simp only [report, Json.dumpSize_object, Json.fieldsSize_cons, Json.fieldsSize_nil,
    Json.dumpSize_string, hkeys, hepoch, hrecorded]
  omega

/-- **Every report is well formed.** -/
theorem validate_report : validate r.report = .ok r.report := by
  have hevents : Messages.events r.report = enumerate (evicted + 1) os := h.events
  have hsequence := h.sequence
  have hbound := h.bound
  have hlength := h.length
  have hfields : fields r.report ["apiVersion", "epoch", "clock", "payloadRecorded", "total",
      "evicted", "events"] = .ok () := check_eq_ok.mpr (by simp)
  have hversion : value r.report "apiVersion" = .ok "graphlab.message-observations/v1" := rfl
  have hclock : value r.report "clock" = .ok "reporter-monotonic-ns" := rfl
  have hchain : List.IsChain (· ≤ ·) (0 :: os.map Observation.time) := by
    cases hos : os with
    | nil => exact List.IsChain.singleton 0
    | cons =>
      have hall := h.clock
      rw [hos] at hall
      exact List.IsChain.cons_cons (Nat.zero_le _) hall
  rw [validate, check_bind (by simpa using h.dumpSize), hfields, ok_bind, hversion, ok_bind,
    check_bind (by decide), hclock, ok_bind, check_bind (by decide), check_bind (by rfl),
    h.epoch_eq.1, ok_bind, check_bind h.epoch, check_bind (by rw [decide_eq_true_eq]; rfl),
    check_bind (by rw [hevents, length_enumerate]; simpa using hlength), h.total, ok_bind,
    h.evicted_eq, ok_bind, hevents,
    check_bind (by rw [length_enumerate, Bool.and_eq_true, decide_eq_true_eq, beq_iff_eq]; omega),
    validateEvents_enumerate h.valid hchain (by omega), ok_bind]
  rfl

end Reporter.Window

end Graphlab.Messages
