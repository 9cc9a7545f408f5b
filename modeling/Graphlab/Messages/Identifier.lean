import Graphlab.Lib.Bytes

/-!
# Message identifiers

The 53 bytes of a fixture message: `GLM1`, the epoch of its origin (32 lowercase
hexadecimal digits), a message sequence (16 digits), and one letter for the stream and
the phase.  The reporter of a workload writes them with its own epoch and a counter; the
node that a request is sent to answers with the same bytes and a small letter.

## Main results

* `identifier_eq_some` — what is recognised.
* `identifiers_round_trip` — what is written is recognised, and its echo.
-/

namespace Graphlab.Messages

open Lib

inductive Stream
  | alpha | beta
  deriving DecidableEq, Repr

inductive Phase
  | request | response
  deriving DecidableEq, Repr

structure Identifier where
  messageId : Bytes
  traceId : Bytes
  stream : Stream
  phase : Phase
  deriving DecidableEq, Repr

/-- `[a-f0-9]`. -/
def hexByte (b : UInt8) : Bool := (97 ≤ b && b ≤ 102) || (48 ≤ b && b ≤ 57)

/-- `GLM1`. -/
def magic : Bytes := [71, 76, 77, 49]

/-- The stream and the phase of a message, by its last byte: `A`, `a`, `B` or `b`. -/
def suffix : UInt8 → Option (Stream × Phase)
  | 65 => some (.alpha, .request)
  | 97 => some (.alpha, .response)
  | 66 => some (.beta, .request)
  | 98 => some (.beta, .response)
  | _ => none

/-- `identifier`. -/
def identifier (wire : Bytes) : Option Identifier :=
  if wire.length != 53 || wire.take 4 != magic then none
  else match wire.getLast?.bind suffix with
    | none => none
    | some (stream, phase) =>
      let id := (wire.drop 4).take 48
      if id.all hexByte then some { messageId := id, traceId := id, stream, phase } else none

/-- The layout of a message. -/
def Glm1 (wire : Bytes) (id : Identifier) : Prop :=
  ∃ hex last, wire = magic ++ hex ++ [last] ∧ hex.length = 48 ∧ (∀ c ∈ hex, hexByte c = true) ∧
    suffix last = some (id.stream, id.phase) ∧ id.messageId = hex ∧ id.traceId = hex

theorem identifier_eq_some {wire : Bytes} {id : Identifier} :
    identifier wire = some id ↔ Glm1 wire id := by
  constructor
  · intro h
    unfold identifier at h
    split_ifs at h with hshape
    simp only [Bool.or_eq_true, bne_iff_ne, ne_eq, not_or, not_not] at hshape
    obtain ⟨hlength, hmagic⟩ := hshape
    cases hlast : wire.getLast? with
    | none => simp [hlast] at h
    | some last =>
      rw [hlast, Option.bind_some] at h
      cases hsuffix : suffix last with
      | none => simp [hsuffix] at h
      | some =>
        simp only [hsuffix, Option.ite_none_right_eq_some, Option.some.injEq,
          List.all_eq_true] at h
        obtain ⟨hhex, rfl⟩ := h
        have hsplit : wire = wire.take 4 ++ (wire.drop 4).take 48 ++ [last] := by
          conv_lhs => rw [← List.dropLast_append_getLast? last hlast, List.dropLast_eq_take, hlength]
          rw [show 53 - 1 = 4 + 48 from rfl, List.take_add]
        exact ⟨_, last, hmagic ▸ hsplit, by simp [hlength], hhex, hsuffix, rfl, rfl⟩
  · obtain ⟨messageId, _, _, _⟩ := id
    rintro ⟨hex, last, rfl, hlength, hhex, hsuffix, hmessage, htrace⟩
    cases hmessage
    cases htrace
    have hid : ((magic ++ messageId ++ [last]).drop 4).take 48 = messageId := by
      rw [List.append_assoc, List.drop_left' (show magic.length = 4 from rfl)]
      exact List.take_left' hlength
    have hall : messageId.all hexByte = true := List.all_eq_true.mpr hhex
    rw [identifier, if_neg (by simp [hlength, magic])]
    simp only [List.getLast?_append, List.getLast?_singleton, Option.some_or, Option.bind_some,
      hsuffix, hid, hall, if_true]

/-! ## Datagrams -/

/-- A hexadecimal digit. -/
def hexDigit (n : ℕ) : UInt8 := UInt8.ofNat (if n < 10 then 48 + n else 87 + n)

/-- The last `k` hexadecimal digits of a number, with leading zeros. -/
def hex : ℕ → ℕ → Bytes
  | 0, _ => []
  | k + 1, n => hex k (n / 16) ++ [hexDigit (n % 16)]

/-- The members of `Reporter` that `datagram` uses. -/
structure Generator where
  epoch : Bytes
  generated : ℕ := 0

namespace Generator

/-- `datagram`; the counter has 64 bits. -/
def datagram (g : Generator) (stream : ℤ) : Bytes × Generator :=
  let generated := (g.generated + 1) % 2 ^ 64
  (magic ++ (g.epoch ++ hex 16 generated) ++ [if stream ≠ 0 then 66 else 65], { g with generated })

/-- The datagrams of some calls. -/
def datagrams (g : Generator) : List ℤ → List Bytes
  | [] => []
  | stream :: rest => (g.datagram stream).1 :: (g.datagram stream).2.datagrams rest

end Generator

/-- The letter of a response. -/
def lower (b : UInt8) : UInt8 := if b = 65 then 97 else if b = 66 then 98 else b

/-- What the node makes of a datagram before it sends it back. -/
def echo (wire : Bytes) : Bytes :=
  if (identifier wire).isSome then wire.dropLast ++ wire.getLast?.toList.map lower else wire

@[simp] theorem length_hex (k n : ℕ) : (hex k n).length = k := by
  induction k generalizing n with
  | zero => rfl
  | succ k ih => simp [hex, ih]

private theorem hexDigit_fin : (∀ n : Fin 16, hexByte (hexDigit n) = true) ∧
    ∀ m n : Fin 16, hexDigit m = hexDigit n → m = n := by
  decide

theorem hexByte_of_mem_hex {k n : ℕ} {c : UInt8} (h : c ∈ hex k n) : hexByte c = true := by
  induction k generalizing n with
  | zero => cases h
  | succ k ih =>
    rcases List.mem_append.mp h with h | h
    · exact ih h
    · rw [List.mem_singleton.mp h]
      exact hexDigit_fin.1 ⟨n % 16, Nat.mod_lt n (by decide)⟩

/-- Numbers that fit in `k` digits have different texts. -/
theorem hex_inj {k m n : ℕ} (hm : m < 16 ^ k) (hn : n < 16 ^ k) (h : hex k m = hex k n) :
    m = n := by
  induction k generalizing m n with
  | zero => omega
  | succ k ih =>
    rw [pow_succ] at hm hn
    obtain ⟨hhigh, hlow⟩ := List.append_inj' h rfl
    have hdigit := congrArg Fin.val (hexDigit_fin.2 ⟨m % 16, Nat.mod_lt m (by decide)⟩
      ⟨n % 16, Nat.mod_lt n (by decide)⟩ (List.singleton_inj.mp hlow))
    have hquotient := ih (by omega) (by omega) hhigh
    have hdigit : m % 16 = n % 16 := hdigit
    omega

/-- The identifier of a request. -/
def Identifier.request (id : Bytes) (stream : ℤ) : Identifier :=
  { messageId := id, traceId := id, stream := if stream = 0 then .alpha else .beta,
    phase := .request }

theorem Generator.identifier_datagram {g : Generator} (hlength : g.epoch.length = 32)
    (hhex : ∀ c ∈ g.epoch, hexByte c = true) (stream : ℤ) : identifier (g.datagram stream).1 =
      some (.request (g.epoch ++ hex 16 ((g.generated + 1) % 2 ^ 64)) stream) := by
  refine identifier_eq_some.mpr ⟨_, _, rfl, by simp [hlength], fun c hc => ?_, ?_, rfl, rfl⟩
  · rcases List.mem_append.mp hc with hc | hc
    · exact hhex c hc
    · exact hexByte_of_mem_hex hc
  · by_cases h : stream = 0
    · simp [Identifier.request, h, suffix]
    · simp [Identifier.request, h, suffix]

/-- The `i`th call, from the start of the counter. -/
theorem Generator.identifier_datagrams {g : Generator} (hlength : g.epoch.length = 32)
    (hhex : ∀ c ∈ g.epoch, hexByte c = true) {calls : List ℤ}
    (hcalls : g.generated + calls.length < 2 ^ 64) :
    (g.datagrams calls).map identifier = calls.mapIdx fun i stream =>
      some (.request (g.epoch ++ hex 16 (g.generated + i + 1)) stream) := by
  induction calls generalizing g with
  | nil => rfl
  | cons stream rest ih =>
    rw [List.length_cons] at hcalls
    have hcount : (g.generated + 1) % 2 ^ 64 = g.generated + 1 := Nat.mod_eq_of_lt (by omega)
    have hnext : (g.datagram stream).2 = { g with generated := g.generated + 1 } := by
      rw [datagram, hcount]
    have hrest := @ih { g with generated := g.generated + 1 } hlength hhex
      (show g.generated + 1 + rest.length < 2 ^ 64 by omega)
    rw [datagrams, List.map_cons, identifier_datagram hlength hhex, hcount, hnext, hrest,
      List.mapIdx_cons]
    simp only [Nat.add_zero, Nat.add_right_comm _ 1]
    rfl

theorem lower_of_suffix {last : UInt8} {stream : Stream} {phase : Phase}
    (h : suffix last = some (stream, phase)) :
    suffix (lower last) = some (stream, .response) ∧ lower (lower last) = lower last := by
  unfold suffix at h
  split at h
  all_goals cases h
  all_goals decide

/-- The echo of a message. -/
theorem echo_glm1 {id : Identifier} {hex : Bytes} {last : UInt8}
    (h : identifier (magic ++ hex ++ [last]) = some id) :
    echo (magic ++ hex ++ [last]) = magic ++ hex ++ [lower last] := by
  rw [echo, h, Option.isSome_some, if_pos rfl, List.dropLast_concat, List.getLast?_concat]
  rfl

/-- **Message identifiers.**  Every call of `datagram` gives a request with the epoch and the
number of the call, and no two calls give one identifier; the echo of what is recognised is the
response to it, and its own echo; nothing else is recognised. -/
theorem identifiers_round_trip {epoch : Bytes} (hlength : epoch.length = 32)
    (hhex : ∀ c ∈ epoch, hexByte c = true) :
    (∀ calls : List ℤ, calls.length < 2 ^ 64 →
      (Generator.datagrams { epoch } calls).map identifier =
        calls.mapIdx fun i stream => some (.request (epoch ++ hex 16 (i + 1)) stream)) ∧
    (∀ calls : List ℤ, calls.length < 2 ^ 64 → ((Generator.datagrams { epoch } calls).map
      fun wire => (identifier wire).map Identifier.messageId).Nodup) ∧
    (∀ wire id, identifier wire = some id →
      identifier (echo wire) = some { id with phase := .response } ∧
        echo (echo wire) = echo wire) ∧
    ∀ wire, (¬∃ hex last, wire = magic ++ hex ++ [last] ∧ hex.length = 48 ∧
      (∀ c ∈ hex, hexByte c = true) ∧ last ∈ [65, 66, 97, 98]) → identifier wire = none := by
  have hcounted : ∀ calls : List ℤ, calls.length < 2 ^ 64 →
      (Generator.datagrams { epoch } calls).map identifier =
        calls.mapIdx fun i stream => some (.request (epoch ++ hex 16 (i + 1)) stream) := by
    intro calls hcalls
    have hidentifiers := Generator.identifier_datagrams (g := { epoch }) hlength hhex
      (show 0 + calls.length < 2 ^ 64 by omega)
    simpa only [Nat.zero_add] using hidentifiers
  refine ⟨hcounted, fun calls hcalls => ?_, fun wire id h => ?_, fun wire h => ?_⟩
  · rw [← Function.comp_def, ← List.map_map, hcounted calls hcalls, List.Nodup,
      List.pairwise_iff_getElem]
    intro i j hi hj hij
    simp only [List.length_map, List.length_mapIdx] at hi hj
    simp only [List.getElem_map, List.getElem_mapIdx, Option.map_some, Identifier.request, ne_eq,
      Option.some.injEq, List.append_cancel_left_eq]
    intro h
    have := hex_inj (by omega) (by omega) h
    omega
  · obtain ⟨hex, last, rfl, hlong, hdigits, hsuffix, hmessage, htrace⟩ := identifier_eq_some.mp h
    obtain ⟨hlower, htwice⟩ := lower_of_suffix hsuffix
    have hecho : identifier (magic ++ hex ++ [lower last]) = some { id with phase := .response } :=
      identifier_eq_some.mpr ⟨hex, lower last, rfl, hlong, hdigits, hlower, hmessage, htrace⟩
    rw [echo_glm1 h]
    exact ⟨hecho, by rw [echo_glm1 hecho, htwice]⟩
  · rw [Option.eq_none_iff_forall_ne_some]
    intro id hid
    obtain ⟨hex, last, rfl, hlong, hdigits, hsuffix, -, -⟩ := identifier_eq_some.mp hid
    refine h ⟨hex, last, rfl, hlong, hdigits, ?_⟩
    unfold suffix at hsuffix
    split at hsuffix
    all_goals simp_all

theorem identifiers_round_trip_zero :
    identifier (Generator.datagram { epoch := List.replicate 32 48 } 1).1 =
      some (.request (List.replicate 32 48 ++ hex 16 1) 1) := by
  have hhex : ∀ c ∈ List.replicate 32 48, hexByte c = true := by
    intro c hc
    rw [List.eq_of_mem_replicate hc]
    rfl
  have h := (@identifiers_round_trip (List.replicate 32 48) (by decide) hhex).1 [1] (by decide)
  exact List.head_eq_of_cons_eq h

end Graphlab.Messages
