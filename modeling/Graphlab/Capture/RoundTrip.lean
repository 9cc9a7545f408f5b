import Graphlab.Capture.Writer
import Graphlab.Packets.Bounds

/-!
# What the writer writes, the decoder reads

A segment is a section header, an interface description, packets and interface
statistics, each in a frame that repeats its length at both ends.  The decoder's loop is
shown to take one frame at a time (`decodeFrom_frame`); each kind of frame is then decoded
by itself, and a list of packets by induction (`decodeFrom_packets`).

## Main results

* `decode_segment` — decoding the bytes of a segment.
* `decode_capture` — the same for what `open`, `packet` and `close` leave.
-/

namespace Graphlab.Capture

open Lib Packets

/-! ## Frames -/

@[simp] theorem length_u16 (v : ℕ) : (u16 v).length = 2 := Bytes.length_little 2 v
@[simp] theorem length_u32 (v : ℕ) : (u32 v).length = 4 := Bytes.length_little 4 v
@[simp] theorem length_u64 (v : ℕ) : (u64 v).length = 8 := by simp [u64]

@[simp] theorem length_frame (type : ℕ) (body : Bytes) :
    (frame type body).length = body.length + 12 := by
  simp only [frame, List.length_append, length_u32]
  omega

theorem length_pad (b : Bytes) : (pad b).length = Bytes.padded b.length := by
  rw [pad, List.length_append, Bytes.add_length_padding]

/-- The field at the position. -/
theorem le_u32 {v : ℕ} (h : v < 2 ^ 32) (rest : Bytes) : le (u32 v ++ rest) 0 = .ok v := by
  have hv : v % 256 ^ 4 = v := Nat.mod_eq_of_lt (by omega)
  simp only [le, u32, Bytes.read_little, hv]

variable {n : ℕ} {c : Config}

/-- A field before the position. -/
theorem le_skip {xs : Bytes} (ys : Bytes) (h : xs.length ≤ n) :
    le (xs ++ ys) n = le ys (n - xs.length) := by
  simp only [le, Bytes.read_append_right ys h]

theorem le_append {xs : Bytes} (ys : Bytes) (h : n + 4 ≤ xs.length) :
    le (xs ++ ys) n = le xs n := by
  simp only [le, Bytes.read_append ys h]

theorem le_body (type : ℕ) {body : Bytes} (h : n + 4 ≤ body.length) :
    le (frame type body) (n + 8) = le body n := by
  have hhead : (u32 type ++ u32 (body.length + 12)).length = 8 := by simp
  rw [frame, List.append_assoc (u32 type ++ u32 (body.length + 12)),
    le_skip _ (by rw [hhead]; omega), hhead, Nat.add_sub_cancel, le_append _ h]

theorem le_trailer (type : ℕ) {body : Bytes} (h : body.length + 12 < 2 ^ 32) :
    le (frame type body) (body.length + 12 - 4) = .ok (body.length + 12) := by
  have hhead : (u32 type ++ u32 (body.length + 12) ++ body).length = body.length + 8 := by
    simp only [List.length_append, length_u32]
    omega
  rw [frame, le_skip _ (by rw [hhead]; omega), hhead,
    show body.length + 12 - 4 - (body.length + 8) = 0 by omega, ← List.append_nil (u32 _), le_u32 h]

/-- **One frame.** -/
theorem decodeFrom_frame (context : Context) (limit left offset : ℕ) {type : ℕ} {body : Bytes}
    (rest : Bytes) (p : Progress) (htype : type < 2 ^ 32) (hfour : body.length % 4 = 0)
    (hlength : body.length + 12 ≤ 1024 * 1024) :
    decodeFrom context limit (left + 1) offset (frame type body ++ rest) p =
      (decodeBlock context limit offset (frame type body) type (body.length + 12) p).bind
        (decodeFrom context limit left (offset + (body.length + 12)) rest) := by
  have hne : frame type body ++ rest ≠ [] := by
    intro hnil
    have := congrArg List.length hnil
    simp only [List.length_append, length_frame, List.length_nil] at this
    omega
  have hsize : (frame type body ++ rest).length = body.length + 12 + rest.length := by simp
  have htake : (frame type body ++ rest).take (body.length + 12) = frame type body :=
    List.take_left' (length_frame type body)
  have hdrop : (frame type body ++ rest).drop (body.length + 12) = rest :=
    List.drop_left' (length_frame type body)
  have hle₀ : le (frame type body ++ rest) 0 = .ok type := by
    simp only [frame, List.append_assoc]
    exact le_u32 htype _
  have hle₄ : le (frame type body ++ rest) 4 = .ok (body.length + 12) := by
    simp only [frame, List.append_assoc]
    rw [le_skip _ (by simp), length_u32]
    exact le_u32 (by omega) _
  have hcheck : (12 ≤ body.length + 12 && (body.length + 12) % 4 == 0 &&
      body.length + 12 ≤ 1024 * 1024 && body.length + 12 ≤ (frame type body ++ rest).length :
      Bool) = true := by
    simp only [hsize, Bool.and_eq_true, decide_eq_true_eq, beq_iff_eq]
    omega
  rw [decodeFrom_of_ne_nil hne, check_bind (decide_eq_true (by omega)), hle₀, ok_bind, hle₄, ok_bind,
    check_bind hcheck, htake, le_trailer type (by omega), ok_bind, check_bind (by simp), hdrop]
  rfl

theorem byte_body (type : ℕ) {body : Bytes} (h : n < body.length) :
    byte (frame type body) (n + 8) = byte body n := by
  have hhead : (u32 type ++ u32 (body.length + 12)).length = 8 := by simp
  have hget : (frame type body)[n + 8]? = body[n]? := by
    rw [frame, List.append_assoc (u32 type ++ u32 (body.length + 12)),
      List.getElem?_append_right (by rw [hhead]; omega), hhead, Nat.add_sub_cancel,
      List.getElem?_append_left h]
  simp only [byte, hget]

/-- A part of the body. -/
theorem part_body (type : ℕ) {body : Bytes} {k : ℕ} (h : n + k ≤ body.length) :
    ((frame type body).drop (n + 8)).take k = (body.drop n).take k := by
  have hhead : (u32 type ++ u32 (body.length + 12)).length = 8 := by simp
  rw [frame, List.append_assoc (u32 type ++ u32 (body.length + 12)), List.drop_append,
    List.drop_eq_nil_of_le (by rw [hhead]; omega), hhead, Nat.add_sub_cancel, List.nil_append,
    List.drop_append_of_le_length (by omega), List.take_append_of_le_length]
  simp only [List.length_drop]
  omega

/-! ## The header blocks -/

theorem decode_section (context : Context) (limit offset : ℕ) :
    decodeBlock context limit offset (frame 0x0a0d0d0a sectionBody) 0x0a0d0d0a
      (sectionBody.length + 12) {} = .ok { hasSection := true } := rfl

/-- An option, padded by itself. -/
def optionField (key : ℕ) (value : Bytes) : Bytes :=
  u16 key ++ u16 value.length ++ value ++ Bytes.padding value.length

theorem length_optionField (key : ℕ) (value : Bytes) :
    (optionField key value).length = 4 + Bytes.padded value.length := by
  simp only [optionField, List.length_append, length_u16, ← Bytes.add_length_padding value.length]
  omega

theorem pad_field {b : Bytes} (hb : b.length % 4 = 0) (key : ℕ) (value : Bytes) :
    pad (b ++ u16 key ++ u16 value.length ++ value) = b ++ optionField key value := by
  have hpadding : Bytes.padding (b ++ u16 key ++ u16 value.length ++ value).length =
      Bytes.padding value.length := by
    simp only [Bytes.padding, List.length_append, length_u16]
    congr 1
    omega
  rw [pad, hpadding]
  simp only [optionField, List.append_assoc]

theorem option_eq {b value : Bytes} (hb : b.length % 4 = 0) (hvalue : value.length ≤ 65535)
    (key : ℕ) : option b key value = .ok (b ++ optionField key value) := by
  rw [option, if_neg (by omega), pad_field hb]

/-- The options of the interface description. -/
def interfaceOptions (c : Config) : Bytes :=
  optionField 2 c.interface ++ (optionField 3 (c.edge ++ remark) ++ (optionField 9 [6] ++ u32 0))

/-- The writer accepts the names. -/
def Config.Named (c : Config) : Prop :=
  c.interface.length ≤ 65535 ∧ (c.edge ++ remark).length ≤ 65535

instance decidableNamed (c : Config) : Decidable c.Named := inferInstanceAs (Decidable (_ ∧ _))

theorem interfaceBody_eq (h : c.Named) :
    interfaceBody c = .ok (u16 1 ++ (u16 0 ++ (u32 c.snaplen ++ interfaceOptions c))) := by
  have hfour : ∀ key value, (optionField key value).length % 4 = 0 := by
    intro key value
    rw [length_optionField, Bytes.padded]
    omega
  have hone : ∀ b : Bytes, b.length % 4 = 0 → pad (b ++ u16 9 ++ u16 1 ++ [6]) =
      b ++ optionField 9 [6] := fun b hb => pad_field hb 9 [6]
  rw [interfaceBody, option_eq (by simp) h.1, ok_bind, option_eq _ h.2, ok_bind, hone]
  · simp only [interfaceOptions, List.append_assoc]
    rfl
  · simp only [List.length_append, length_u16, length_u32]
    have := hfour 2 c.interface
    have := hfour 3 (c.edge ++ remark)
    omega
  · simp only [List.length_append, length_u16, length_u32]
    have := hfour 2 c.interface
    omega

/-- The writer accepts the names it describes. -/
theorem Config.named_of_interfaceBody {description : Bytes}
    (h : interfaceBody c = .ok description) : c.Named := by
  have hoption : ∀ {b value b' : Bytes} {key : ℕ}, option b key value = .ok b' →
      value.length ≤ 65535 := by
    intro b value b' key hb
    unfold option at hb
    split at hb
    · cases hb
    · omega
  obtain ⟨_, hb, hrest⟩ := bind_eq_ok.1 h
  obtain ⟨_, hb', -⟩ := bind_eq_ok.1 hrest
  exact ⟨hoption hb, hoption hb'⟩

/-- The loop over options takes one field. -/
theorem options_field {key : ℕ} {value : Bytes} (rest : Bytes) (hkey : key < 65536)
    (hvalue : value.length ≤ 65535) (hzero : key ≠ 0) (hoffset : key ≠ 14)
    (hnine : key = 9 → value = [6]) :
    options (optionField key value ++ rest) = options rest := by
  have hcons : optionField key value ++ rest =
      UInt8.ofNat key :: UInt8.ofNat (key / 256) :: UInt8.ofNat value.length ::
        UInt8.ofNat (value.length / 256) :: (value ++ Bytes.padding value.length ++ rest) := by
    simp [optionField, u16, Bytes.little]
  have hnumber : ∀ n < 65536, (UInt8.ofNat n).toNat + (UInt8.ofNat (n / 256)).toNat * 256 = n := by
    intro n hn
    simp only [UInt8.toNat_ofNat']
    omega
  have hdrop : (value ++ Bytes.padding value.length ++ rest).drop (Bytes.padded value.length) =
      rest := by
    refine List.drop_left' ?_
    rw [List.length_append, Bytes.add_length_padding]
  rw [hcons, options, hnumber key hkey, hnumber value.length (by omega)]
  rw [if_neg (by simp only [List.length_append]; omega), if_neg (by simpa using hzero),
    if_neg ?_, if_neg (by simpa using hoffset), hdrop]
  intro hbad
  simp only [Bool.and_eq_true, beq_iff_eq] at hbad
  have := hnine hbad.1
  simp [this] at hbad

theorem options_interface (h : c.Named) : options (interfaceOptions c) = .ok () := by
  rw [interfaceOptions, options_field _ (by omega) h.1 (by omega) (by omega) (by omega),
    options_field _ (by omega) h.2 (by omega) (by omega) (by omega),
    options_field _ (by omega) (by simp) (by omega) (by omega) (fun _ => rfl)]
  rw [show u32 0 = [0, 0, 0, 0] from rfl]
  simp [options]

theorem length_interfaceOptions (c : Config) :
    (interfaceOptions c).length =
      20 + Bytes.padded c.interface.length + Bytes.padded (c.edge ++ remark).length := by
  simp only [interfaceOptions, List.length_append, length_optionField, length_u32, Bytes.padded,
    List.length_singleton]
  omega

theorem decode_interface (context : Context) (limit offset : ℕ) (h : c.Named)
    (hsnaplen : 0 < c.snaplen ∧ c.snaplen ≤ 65535) {body : Bytes}
    (hbody : interfaceBody c = .ok body) :
    decodeBlock context limit offset (frame 1 body) 1 (body.length + 12) { hasSection := true } =
      .ok { hasSection := true, hasInterface := true, snaplen := c.snaplen } := by
  rw [interfaceBody_eq h] at hbody
  obtain rfl := Except.ok.inj hbody
  set body := u16 1 ++ (u16 0 ++ (u32 c.snaplen ++ interfaceOptions c)) with hdef
  have hlength : body.length = 8 + (interfaceOptions c).length := by
    simp only [hdef, List.length_append, length_u16, length_u32]
    omega
  have hfirst : byte (frame 1 body) 8 = some 1 := byte_body 1 (n := 0) (by omega)
  have hsecond : byte (frame 1 body) 9 = some 0 := byte_body 1 (n := 1) (by omega)
  have hsnap : le (frame 1 body) 12 = .ok c.snaplen := by
    rw [show (12 : ℕ) = 4 + 8 by rfl, le_body 1 (by omega), hdef, ← List.append_assoc, le_skip _ (by simp),
      show 4 - (u16 1 ++ u16 0).length = 0 by simp, le_u32 (by omega)]
  have hoptions : ((frame 1 body).drop 16).take (body.length + 12 - 20) = interfaceOptions c := by
    have hdrop : body.drop 8 = interfaceOptions c := by
      rw [hdef, ← List.append_assoc, ← List.append_assoc]
      exact List.drop_left' (by simp)
    rw [show (16 : ℕ) = 8 + 8 by rfl, part_body 1 (by omega), hdrop]
    exact List.take_of_length_le (by omega)
  have hroom : 20 ≤ body.length + 12 := by omega
  show decodeInterface (frame 1 body) (body.length + 12) { hasSection := true } = _
  simp only [decodeInterface, hfirst, hsecond, hsnap, hoptions, options_interface h, unchecked,
    ok_bind]
  rw [check_bind (by simpa using hroom), check_bind (by rfl), check_bind (by simpa using hsnaplen)]
  rfl

/-! ## Packets -/

/-- The arguments of `Writer::packet`. -/
structure Packet where
  micros : ℕ
  bytes : Bytes
  original : ℕ

namespace Packet

/-- The arguments fit their types and the writer accepts them. -/
structure Fits (q : Packet) (snaplen : ℕ) : Prop where
  micros : q.micros < 2 ^ 64
  captured : q.bytes.length ≤ snaplen
  whole : q.bytes.length ≤ q.original
  original : q.original < 2 ^ 32

instance decidableFits (q : Packet) (snaplen : ℕ) : Decidable (q.Fits snaplen) :=
  decidable_of_iff (q.micros < 2 ^ 64 ∧ q.bytes.length ≤ snaplen ∧
      q.bytes.length ≤ q.original ∧ q.original < 2 ^ 32)
    ⟨fun h => ⟨h.1, h.2.1, h.2.2.1, h.2.2.2⟩, fun h => ⟨h.1, h.2, h.3, h.4⟩⟩

def body (q : Packet) : Bytes := packetBody q.micros q.bytes q.original

def frame (q : Packet) : Bytes := Capture.frame 6 q.body

/-- The row of the packet with this index, whose block stands at `offset`. -/
def row (context : Context) (index offset : ℕ) (q : Packet) : Row where
  context := context
  packetIndex := toString index
  blockOffset := toString offset
  timestampUnixMicros := toString q.micros
  capturedLength := q.bytes.length
  originalLength := q.original
  truncated := q.bytes.length < q.original
  headers := (protocol q.bytes context.decodeMessageIdentifiers).getD {}

variable {q : Packet} {snaplen : ℕ}

theorem length_body (q : Packet) : q.body.length = 20 + Bytes.padded q.bytes.length := by
  simp only [body, packetBody, length_pad, List.length_append, length_u32, Bytes.padded]
  omega

/-- The fields of a packet. -/
theorem body_eq (q : Packet) : q.body = u32 0 ++ (u32 (q.micros / 2 ^ 32) ++ (u32 q.micros ++
    (u32 q.bytes.length ++ (u32 q.original ++ (q.bytes ++ Bytes.padding (20 + q.bytes.length)))))) := by
  simp only [body, packetBody, pad, List.append_assoc, List.length_append, length_u32,
    ← Nat.add_assoc, Nat.reduceAdd]

/-- The low half of a number is written as it is. -/
theorem le_low (v : ℕ) (rest : Bytes) : le (u32 v ++ rest) 0 = .ok (v % 2 ^ 32) := by
  have hpow : (256 : ℕ) ^ 4 = 2 ^ 32 := by norm_num
  simp only [le, u32, Bytes.read_little, hpow]

/-- What the decoder reads in a packet. -/
theorem read_body (h : q.Fits snaplen) :
    le (Capture.frame 6 q.body) 8 = .ok 0 ∧
    le (Capture.frame 6 q.body) 12 = .ok (q.micros / 2 ^ 32) ∧
    le (Capture.frame 6 q.body) 16 = .ok (q.micros % 2 ^ 32) ∧
    le (Capture.frame 6 q.body) 20 = .ok q.bytes.length ∧
    le (Capture.frame 6 q.body) 24 = .ok q.original ∧
    slice (Capture.frame 6 q.body) 28 q.bytes.length = some q.bytes := by
  have hlength := q.length_body
  have hpadded : q.bytes.length ≤ Bytes.padded q.bytes.length := by
    rw [Bytes.padded]
    omega
  have hmicros := h.micros
  have hwhole := h.whole
  have horiginal := h.original
  have hskip : ∀ (v : ℕ) (rest : Bytes) (n : ℕ), le (u32 v ++ rest) (n + 4) = le rest n := by
    intro v rest n
    rw [le_skip _ (by simp), length_u32, Nat.add_sub_cancel]
  refine ⟨?_, ?_, ?_, ?_, ?_, ?_⟩
  · rw [le_body 6 (n := 0) (by omega), body_eq, le_u32 (by omega)]
  · rw [le_body 6 (n := 4) (by omega), body_eq, hskip _ _ 0, le_u32 (by omega)]
  · rw [le_body 6 (n := 8) (by omega), body_eq, hskip _ _ 4, hskip _ _ 0, le_low]
  · rw [le_body 6 (n := 12) (by omega), body_eq, hskip _ _ 8, hskip _ _ 4, hskip _ _ 0,
      le_u32 (by omega)]
  · rw [le_body 6 (n := 16) (by omega), body_eq, hskip _ _ 12, hskip _ _ 8, hskip _ _ 4,
      hskip _ _ 0, le_u32 (by omega)]
  · have hdrop : q.body.drop 20 = q.bytes ++ Bytes.padding (20 + q.bytes.length) := by
      rw [body_eq]
      rfl
    rw [slice, if_pos (by rw [Capture.length_frame]; omega), part_body 6 (n := 20) (by omega), hdrop,
      List.take_left' rfl]

/-- What the decoder has after a packet. -/
def seen (context : Context) (limit offset : ℕ) (q : Packet) (p : Progress) : Progress :=
  { p with
    packets := p.packets + 1
    items := if p.items.length < limit then p.items ++ [q.row context p.packets offset]
      else p.items }

theorem decode_frame (context : Context) (limit offset : ℕ) {p : Progress}
    (hp : p.hasSection = true ∧ p.hasInterface = true) (h : q.Fits p.snaplen) :
    decodeBlock context limit offset q.frame 6 (q.body.length + 12) p =
      .ok (q.seen context limit offset p) := by
  obtain ⟨hid, hhigh, hlow, hcaptured, horiginal, hslice⟩ := read_body h
  obtain ⟨_, hheaders⟩ := protocol_isSome q.bytes context.decodeMessageIdentifiers
  have hlengths : (decide (q.bytes.length ≤ q.original) && decide (q.bytes.length ≤ p.snaplen) &&
      32 + Bytes.padded q.bytes.length == q.body.length + 12) = true := by
    simp only [Bool.and_eq_true, decide_eq_true_eq, beq_iff_eq, length_body]
    exact ⟨⟨h.whole, h.captured⟩, by omega⟩
  have hroom : (p.hasInterface && decide (32 ≤ q.body.length + 12)) = true := by
    rw [hp.2, Bool.true_and, length_body]
    exact decide_eq_true (by omega)
  have hmicros : q.micros / 2 ^ 32 * 2 ^ 32 + q.micros % 2 ^ 32 = q.micros := by omega
  have hpacket : decodeBlock context limit offset q.frame 6 (q.body.length + 12) p =
      decodePacket context limit offset q.frame (q.body.length + 12) p := by
    simp only [decodeBlock, hp.1]
    rfl
  rw [hpacket, decodePacket, frame, check_bind hroom, hid, ok_bind, check_bind (by rfl), hcaptured,
    ok_bind, horiginal, ok_bind, check_bind hlengths]
  unfold seen
  split
  · rw [hhigh, ok_bind, hlow, ok_bind, hslice, unchecked, ok_bind, hheaders, unchecked, ok_bind,
      hmicros]
    simp only [row, hheaders, Option.getD_some]
    rfl
  · rfl

end Packet

/-! ## What follows the header blocks -/

theorem length_counter (code : ℕ) (n : Option ℕ) : (counter code n).length % 4 = 0 := by
  cases n with
  | none => rfl
  | some => simp [counter]

theorem length_statisticsBody (now : ℕ) (stats : Statistics) :
    (statisticsBody now stats).length % 4 = 0 ∧ 16 ≤ (statisticsBody now stats).length ∧
      (statisticsBody now stats).length ≤ 40 := by
  have hcounter : ∀ code n, (counter code n).length ≤ 12 := by
    intro code n
    cases n <;> simp [counter]
  have h₁ := length_counter 6 stats.received
  have h₂ := length_counter 7 stats.dropped
  have h₃ := hcounter 6 stats.received
  have h₄ := hcounter 7 stats.dropped
  simp only [statisticsBody, List.length_append, length_u32]
  omega

/-- A block after the header blocks. -/
inductive Entry
  | packet (q : Packet)
  | statistics (now : ℕ) (stats : Statistics)

namespace Entry

def type : Entry → ℕ
  | packet _ => 6
  | statistics _ _ => 5

def body : Entry → Bytes
  | packet q => q.body
  | statistics now stats => statisticsBody now stats

def frame (e : Entry) : Bytes := Capture.frame e.type e.body

/-- A packet fits; statistics do anyway. -/
def Fits (snaplen : ℕ) : Entry → Prop
  | packet q => q.Fits snaplen
  | statistics _ _ => True

/-- What the decoder has after a block. -/
def seen (context : Context) (limit offset : ℕ) : Entry → Progress → Progress
  | packet q, p => q.seen context limit offset p
  | statistics _ _, p => p

theorem length_body {e : Entry} {snaplen : ℕ} (hsnaplen : snaplen ≤ 65535) (h : e.Fits snaplen) :
    e.body.length % 4 = 0 ∧ e.body.length + 12 ≤ 1024 * 1024 := by
  cases e with
  | packet q =>
    have hcaptured := Packet.Fits.captured h
    simp only [body, q.length_body, Bytes.padded]
    omega
  | statistics now stats =>
    have := length_statisticsBody now stats
    simp only [body]
    omega

theorem decode_frame (context : Context) (limit offset : ℕ) {e : Entry} {p : Progress}
    (hp : p.hasSection = true ∧ p.hasInterface = true) (h : e.Fits p.snaplen) :
    decodeBlock context limit offset e.frame e.type (e.body.length + 12) p =
      .ok (e.seen context limit offset p) := by
  cases e with
  | packet q => exact q.decode_frame context limit offset hp h
  | statistics now stats =>
    have hlength := length_statisticsBody now stats
    have hid : le (Capture.frame 5 (statisticsBody now stats)) 8 = .ok 0 := by
      rw [le_body 5 (n := 0) (by omega)]
      simp only [statisticsBody, List.append_assoc]
      exact le_u32 (by omega) _
    have hroom : (p.hasInterface && decide (24 ≤ (statisticsBody now stats).length + 12)) =
        true := by
      rw [hp.2, Bool.true_and]
      exact decide_eq_true (by omega)
    have hstats : decodeBlock context limit offset (frame (statistics now stats)) 5
        ((statisticsBody now stats).length + 12) p =
        decodeStatistics (Capture.frame 5 (statisticsBody now stats))
          ((statisticsBody now stats).length + 12) p := by
      simp only [decodeBlock, hp.1]
      rfl
    show decodeBlock context limit offset (frame (statistics now stats)) 5
      ((statisticsBody now stats).length + 12) p = .ok p
    rw [hstats, decodeStatistics, check_bind hroom, hid, ok_bind, check_bind (by rfl)]
    rfl

/-- A list of blocks. -/
def frames (es : List Entry) : Bytes := es.flatMap frame

/-- What the decoder has after several blocks, the first of which stands at `offset`. -/
def seenAll (context : Context) (limit : ℕ) : ℕ → List Entry → Progress → Progress
  | _, [], p => p
  | offset, e :: es, p =>
    seenAll context limit (offset + e.frame.length) es (e.seen context limit offset p)

/-- **Several blocks.** -/
theorem decodeFrom_frames (context : Context) (limit left offset : ℕ) {es : List Entry}
    (rest : Bytes) {p : Progress} (hp : p.hasSection = true ∧ p.hasInterface = true)
    (hsnaplen : p.snaplen ≤ 65535) (h : ∀ e ∈ es, e.Fits p.snaplen) :
    decodeFrom context limit (left + es.length) offset (frames es ++ rest) p =
      decodeFrom context limit left (offset + (frames es).length) rest
        (seenAll context limit offset es p) := by
  induction es generalizing offset p with
  | nil => rfl
  | cons e es ih =>
    have he : e.Fits p.snaplen := h e (List.mem_cons_self ..)
    obtain ⟨hfour, hlength⟩ := length_body hsnaplen he
    have hsplit : frames (e :: es) ++ rest = Capture.frame e.type e.body ++ (frames es ++ rest) := by
      simp only [frames, List.flatMap_cons, List.append_assoc]
      rfl
    have htype : e.type < 2 ^ 32 := by
      cases e <;> simp [type]
    have hnext : offset + (e.body.length + 12) = offset + e.frame.length := by
      rw [frame, Capture.length_frame]
    -- A block changes neither flags nor the snapshot length.
    have hkept : ((e.seen context limit offset p).hasSection = true ∧
        (e.seen context limit offset p).hasInterface = true) ∧
        (e.seen context limit offset p).snaplen = p.snaplen := by
      cases e with
      | packet => exact ⟨hp, rfl⟩
      | statistics => exact ⟨hp, rfl⟩
    rw [hsplit, List.length_cons, ← Nat.add_assoc,
      decodeFrom_frame _ _ _ _ _ _ htype hfour hlength,
      show Capture.frame e.type e.body = e.frame from rfl, decode_frame context limit offset hp he]
    show decodeFrom context limit (left + es.length) (offset + (e.body.length + 12))
      (frames es ++ rest) (e.seen context limit offset p) = _
    rw [hnext, ih (offset + e.frame.length) hkept.1 (hkept.2 ▸ hsnaplen)
      fun x hx => hkept.2 ▸ h x (List.mem_cons_of_mem e hx)]
    simp only [frames, List.flatMap_cons, List.length_append, seenAll, Nat.add_assoc]

theorem seenAll_append (context : Context) (limit offset : ℕ) (es fs : List Entry) (p : Progress) :
    seenAll context limit offset (es ++ fs) p =
      seenAll context limit (offset + (frames es).length) fs
        (seenAll context limit offset es p) := by
  induction es generalizing offset p with
  | nil => rfl
  | cons e es ih =>
    simp only [List.cons_append, seenAll, ih, frames, List.flatMap_cons, List.length_append,
      Nat.add_assoc]

@[simp] theorem seenAll_statistics (context : Context) (limit offset now : ℕ) (stats : Statistics)
    (p : Progress) : seenAll context limit offset [statistics now stats] p = p := rfl

/-- The packets among the blocks. -/
def packets (es : List Entry) : List Packet :=
  es.filterMap fun
    | packet q => some q
    | statistics _ _ => none

theorem seenAll_packets (context : Context) (limit offset : ℕ) (es : List Entry) (p : Progress) :
    (seenAll context limit offset es p).packets = p.packets + (packets es).length := by
  induction es generalizing offset p with
  | nil => rfl
  | cons e es ih =>
    cases e with
    | packet =>
      simp only [seenAll, ih, seen, Packet.seen, packets, List.filterMap_cons,
        List.length_cons]
      omega
    | statistics => simp only [seenAll, ih, seen, packets, List.filterMap_cons]

/-- The flags stay, as does the snapshot length. -/
theorem seenAll_flags (context : Context) (limit offset : ℕ) (es : List Entry) (p : Progress) :
    (seenAll context limit offset es p).hasSection = p.hasSection ∧
      (seenAll context limit offset es p).hasInterface = p.hasInterface := by
  induction es generalizing offset p with
  | nil => exact ⟨rfl, rfl⟩
  | cons e es ih =>
    obtain ⟨hs, hi⟩ := ih (offset + e.frame.length) (e.seen context limit offset p)
    cases e with
    | packet => exact ⟨hs, hi⟩
    | statistics => exact ⟨hs, hi⟩

end Entry

/-! ## Segments -/

/-- The header blocks. -/
def preamble (description : Bytes) : Bytes :=
  frame 0x0a0d0d0a sectionBody ++ frame 1 description

/-- A file of the header blocks and `es`. -/
def file (description : Bytes) (es : List Entry) : Bytes := preamble description ++ Entry.frames es

/-- What the decoder has after the header blocks. -/
def Config.begun (c : Config) : Progress :=
  { hasSection := true, hasInterface := true, snaplen := c.snaplen }

/-- **The bytes of a segment.** -/
theorem decode_file (hnamed : c.Named) (hsnaplen : 0 < c.snaplen ∧ c.snaplen ≤ 65535)
    {description : Bytes} (hdescription : interfaceBody c = .ok description) {es : List Entry}
    (hfits : ∀ e ∈ es, e.Fits c.snaplen) (hblocks : es.length + 2 ≤ 1000000) (context : Context)
    {limit : ℕ} (hlimit : limit ≤ 2000) :
    decode (file description es) context limit =
      .ok
        { items := (Entry.seenAll context limit (preamble description).length es c.begun).items
          packetCount := toString (Entry.packets es).length
          omittedRecords := toString ((Entry.packets es).length -
            (Entry.seenAll context limit (preamble description).length es c.begun).items.length) } := by
  have hlength : description.length % 4 = 0 ∧ description.length + 12 ≤ 1024 * 1024 := by
    rw [interfaceBody_eq hnamed] at hdescription
    obtain rfl := Except.ok.inj hdescription
    obtain ⟨_, _⟩ := hnamed
    simp only [List.length_append, length_u16, length_u32, length_interfaceOptions,
      Bytes.padded] at *
    omega
  obtain ⟨k, hk⟩ : ∃ k, 1000000 = k + es.length + 1 + 1 := ⟨1000000 - es.length - 2, by omega⟩
  have hloop : decodeFrom context limit 1000000 0 (file description es) {} =
      .ok (Entry.seenAll context limit (preamble description).length es c.begun) := by
    rw [hk, file, preamble, List.append_assoc,
      decodeFrom_frame _ _ _ _ _ _ (by decide) (by rfl) (by decide), decode_section]
    show decodeFrom context limit (k + es.length + 1) (0 + (sectionBody.length + 12))
      (frame 1 description ++ Entry.frames es) { hasSection := true } = _
    rw [decodeFrom_frame _ _ _ _ _ _ (by decide) hlength.1 hlength.2,
      decode_interface context limit _ hnamed hsnaplen hdescription]
    show decodeFrom context limit (k + es.length)
      (0 + (sectionBody.length + 12) + (description.length + 12)) (Entry.frames es) c.begun = _
    rw [← List.append_nil (Entry.frames es),
      Entry.decodeFrom_frames context limit k _ [] ⟨rfl, rfl⟩ hsnaplen.2 hfits]
    simp only [List.length_append, length_frame, Nat.zero_add]
    cases k <;> rfl
  obtain ⟨hs, hi⟩ := Entry.seenAll_flags context limit (preamble description).length es c.begun
  have hpackets := Entry.seenAll_packets context limit (preamble description).length es c.begun
  rw [decode, check_bind (decide_eq_true hlimit), hloop, ok_bind, hs, hi, check_bind (by rfl),
    hpackets]
  simp only [Config.begun, Nat.zero_add]
  rfl

/-! ## Rows -/

namespace Packet

/-- The rows of packets, the first of which has this index and stands at `offset`. -/
def rows (context : Context) : ℕ → ℕ → List Packet → List Row
  | _, _, [] => []
  | index, offset, q :: qs =>
    q.row context index offset :: rows context (index + 1) (offset + q.frame.length) qs

@[simp] theorem length_rows (context : Context) (index offset : ℕ) (qs : List Packet) :
    (rows context index offset qs).length = qs.length := by
  induction qs generalizing index offset with
  | nil => rfl
  | cons q qs ih => simp [rows, ih]

theorem rows_getElem? (context : Context) (index offset : ℕ) (qs : List Packet) (i : ℕ) :
    (rows context index offset qs)[i]? = qs[i]?.map fun q =>
      q.row context (index + i) (offset + ((qs.take i).flatMap frame).length) := by
  induction qs generalizing index offset i with
  | nil => rfl
  | cons q qs ih =>
    cases i with
    | zero => simp [rows]
    | succ =>
      simp only [rows, List.getElem?_cons_succ, ih, List.take_succ_cons, List.flatMap_cons,
        List.length_append]
      congr 1
      funext x
      congr 1 <;> omega

theorem seenAll_eq (context : Context) (limit offset : ℕ) (qs : List Packet) (p : Progress) :
    (Entry.seenAll context limit offset (qs.map .packet) p).items =
      p.items ++ (rows context p.packets offset qs).take (limit - p.items.length) := by
  induction qs generalizing offset p with
  | nil => simp [Entry.seenAll, rows]
  | cons q qs ih =>
    simp only [List.map_cons, Entry.seenAll, ih, Entry.seen, seen, rows]
    split
    · next hroom =>
        obtain ⟨k, hk⟩ : ∃ k, limit - p.items.length = k + 1 :=
          ⟨limit - p.items.length - 1, by omega⟩
        rw [List.length_append, List.length_singleton, hk, List.take_succ_cons, List.append_assoc,
          show limit - (p.items.length + 1) = k by omega]
        rfl
    · next hfull =>
        rw [show limit - p.items.length = 0 by omega]
        simp

end Packet

/-! ## The calls of the writer -/

/-- The file after `open`. -/
theorem Writer.content_opened (w : Writer) (description : Bytes) :
    ((w.created.wrote (frame 0x0a0d0d0a sectionBody)).wrote (frame 1 description)).content =
      file description [] := by
  simp [file, preamble, Entry.frames]

/-- What `close` publishes. -/
theorem Writer.files_unlinked (w : Writer) :
    w.linked.unlinked.files w.closedName = some w.content := by
  show Function.update (Function.update w.files w.closedName (some w.content)) w.partialName none
    w.closedName = _
  rw [Function.update_of_ne (w.partialName_ne w).symm, Function.update_self]

/-- Nothing fails in `open`. -/
structure Opening.Fine (o : Opening) : Prop where
  created : o.created = true
  header : Lib.Fine o.header
  description : Lib.Fine o.description
  synced : o.synced = true

/-- Nothing fails in `close`. -/
structure Closing.Fine (o : Closing) (hash : String) : Prop where
  writes : Lib.Fine o.writes
  synced : o.synced = true
  linked : o.linked = true
  unlinked : o.unlinked = true
  directorySynced : o.directorySynced = true
  hash : o.hash = some hash

/-- The writer `w`, which was `w₀`, has packets `qs` in its open file. -/
structure Holds (w₀ w : Writer) (description : Bytes) (qs : List Packet) : Prop where
  fd : w.fd = true
  config : w.config = w₀.config
  total : w.total = w₀.total
  sequence : w.sequence = w₀.sequence
  segments : w.segments = w₀.segments
  unpublished : w.files w.closedName = none
  content : w.content = file description (qs.map .packet)
  bytes : w.bytes = w.content.length
  packets : w.packets = qs.length
  capturedBytes : w.capturedBytes = (qs.map fun q => q.bytes.length).sum
  originalBytes : w.originalBytes = (qs.map fun q => q.original).sum
  truncatedPackets : w.truncatedPackets = qs.countP fun q => q.bytes.length < q.original

namespace Holds

variable {w₀ w : Writer} {description : Bytes} {qs : List Packet}

/-- `open`. -/
theorem of_open {o : Opening} (ho : o.Fine) (hfd : w₀.fd = false) (hsequence : w₀.sequence < 1024)
    (hdraft : w₀.files w₀.partialName = none) (hclosed : w₀.files w₀.closedName = none)
    (hdescription : interfaceBody w₀.config = .ok description)
    (hbudget : w₀.total + (preamble description).length ≤ w₀.config.byteBudget) :
    ∃ w, w₀.open' o = (.ok (), w) ∧ Holds w₀ w description [] := by
  have hlength : (preamble description).length =
      (frame 0x0a0d0d0a sectionBody).length + (frame 1 description).length := List.length_append
  have hfirst := @Writer.block_ok w₀.created 0x0a0d0d0a sectionBody o.header rfl
    (by show w₀.total + 0 + _ ≤ w₀.config.byteBudget; omega) ho.header
  have hsecond := @Writer.block_ok (w₀.created.wrote (frame 0x0a0d0d0a sectionBody))
    1 description o.description rfl
    (by show w₀.total + (0 + _) + _ ≤ w₀.config.byteBudget; omega) ho.description
  have hpublished : w₀.created.files w₀.created.closedName = none :=
    (Function.update_of_ne (w₀.partialName_ne w₀).symm ..).trans hclosed
  refine ⟨(w₀.created.wrote (frame 0x0a0d0d0a sectionBody)).wrote (frame 1 description), ?_, ?_⟩
  · have hconfig : interfaceBody (w₀.created.wrote (frame 0x0a0d0d0a sectionBody)).config =
        .ok description := hdescription
    rw [Writer.open', if_neg (by simp [hfd, hsequence]), if_neg (by simp [hdraft, ho.created]),
      Writer.openBlocks, hfirst]
    dsimp only
    rw [hconfig]
    dsimp only
    rw [hsecond]
    dsimp only
    rw [Writer.sync, if_neg (by simp [ho.synced]; rfl)]
  · refine ⟨rfl, rfl, rfl, rfl, rfl, ?_, w₀.content_opened description, ?_, rfl, rfl, rfl, rfl⟩
    · rw [Writer.wrote_closed, Writer.wrote_closed, hpublished]
    · rw [Writer.content_opened, file, List.length_append, hlength]
      exact congrArg (· + _) (Nat.zero_add _)

/-- `packet`. -/
theorem packet (h : Holds w₀ w description qs) {q : Packet} (hq : q.Fits w₀.config.snaplen)
    {writes : List Wrote} (hwrites : Lib.Fine writes)
    (hbudget : w₀.total + (file description ((qs ++ [q]).map .packet)).length ≤
      w₀.config.byteBudget) :
    ∃ w', w.packet q.micros q.bytes q.original writes = (.ok (), w') ∧
      Holds w₀ w' description (qs ++ [q]) := by
  have hfile : file description ((qs ++ [q]).map .packet) = w.content ++ frame 6 q.body := by
    simp only [h.content, file, List.map_append, List.map_singleton, Entry.frames,
      List.flatMap_append, List.flatMap_singleton, List.append_assoc]
    rfl
  have hblock := @Writer.block_ok w 6 q.body _ h.fd
    (by
      rw [h.total, h.bytes, h.config, Nat.add_assoc, ← List.length_append, ← hfile]
      exact hbudget) hwrites
  have hlengths : ¬ (decide (w.config.snaplen < q.bytes.length) ||
      decide (q.original < q.bytes.length)) = true := by
    have hcaptured := hq.captured
    have hwhole := hq.whole
    rw [h.config]
    simp only [Bool.or_eq_true, decide_eq_true_eq]
    omega
  refine ⟨(w.wrote (frame 6 q.body)).counted q.bytes.length q.original, ?_, ?_⟩
  · rw [Writer.packet, if_neg hlengths, show packetBody q.micros q.bytes q.original = q.body from rfl,
      hblock]
  · refine ⟨h.fd, h.config, h.total, h.sequence, h.segments, ?_, ?_, ?_, ?_, ?_, ?_, ?_⟩
    · exact (w.wrote_closed (frame 6 q.body)).trans h.unpublished
    · exact (w.content_wrote (frame 6 q.body)).trans hfile.symm
    · show w.bytes + (frame 6 q.body).length = (w.wrote (frame 6 q.body)).content.length
      rw [w.content_wrote, List.length_append, h.bytes]
    · show w.packets + 1 = _
      rw [h.packets, List.length_append, List.length_singleton]
    · show w.capturedBytes + _ = _
      rw [h.capturedBytes, List.map_append, List.sum_append, List.map_singleton, List.sum_singleton]
    · show w.originalBytes + _ = _
      rw [h.originalBytes, List.map_append, List.sum_append, List.map_singleton, List.sum_singleton]
    · show w.truncatedPackets + _ = _
      rw [h.truncatedPackets, List.countP_append, List.countP_singleton]
      simp only [decide_eq_true_eq]

/-- `close`. -/
theorem close (h : Holds w₀ w description qs) {stats : Statistics} {out : Closing} {hash : String}
    (hout : out.Fine hash)
    (hbudget : w₀.total +
        (file description (qs.map .packet ++ [.statistics out.now stats])).length ≤
      w₀.config.byteBudget) :
    ∃ w', w.close stats out = (.ok (), w') ∧
      w'.segments = w₀.segments ++ [
        { sequence := toString w₀.sequence
          file := w₀.closedName
          size := toString
            (file description (qs.map .packet ++ [.statistics out.now stats])).length
          packets := toString qs.length
          sha256 := hash
          statistics := stats
          capturedBytes := toString (qs.map fun q => q.bytes.length).sum
          originalBytes := toString (qs.map fun q => q.original).sum
          truncatedPackets := toString (qs.countP fun q => q.bytes.length < q.original)
          snaplen := w₀.config.snaplen
          interface := w₀.config.interface
          closedAt := out.closedAt }] ∧
      w'.files w₀.closedName =
        some (file description (qs.map .packet ++ [.statistics out.now stats])) := by
  set body := statisticsBody out.now stats
  have hfile : file description (qs.map .packet ++ [.statistics out.now stats]) =
      w.content ++ frame 5 body := by
    simp only [h.content, file, Entry.frames, List.flatMap_append, List.flatMap_singleton,
      List.append_assoc]
    rfl
  have hblock := @Writer.block_ok w 5 body _ h.fd
    (by
      rw [h.total, h.bytes, h.config, Nat.add_assoc, ← List.length_append, ← hfile]
      exact hbudget) hout.writes
  set v : Writer := { w.wrote (frame 5 body) with fd := false } with hv
  have hclosed : v.files v.closedName = none := (w.wrote_closed (frame 5 body)).trans h.unpublished
  have hname : v.closedName = w₀.closedName := by
    show toString w.sequence ++ ".pcapng" = _
    rw [h.sequence, Writer.closedName]
  have hcontent : v.content = w.content ++ frame 5 body := w.content_wrote (frame 5 body)
  have hbytes : v.bytes = (w.content ++ frame 5 body).length := by
    rw [List.length_append, ← h.bytes]
    rfl
  refine ⟨v.linked.unlinked.recorded stats hash out.closedAt, ?_, ?_, ?_⟩
  · have hsync : (w.wrote (frame 5 body)).sync out.synced = (.ok (), w.wrote (frame 5 body)) := by
      rw [Writer.sync, if_neg]
      simp only [hout.synced, show (w.wrote (frame 5 body)).fd = true from h.fd]
      decide
    have hpublish : v.publish stats out =
        (.ok (), v.linked.unlinked.recorded stats hash out.closedAt) := by
      rw [Writer.publish, if_neg (by simp [hclosed, hout.linked]), if_neg (by simp [hout.unlinked]),
        if_neg (by simp [hout.directorySynced]), hout.hash]
    rw [Writer.close, if_neg (by simp [h.fd]), hblock]
    dsimp only
    rw [hsync]
    exact hpublish
  · show w.segments ++ [v.linked.unlinked.segment stats hash out.closedAt] = _
    have hsegment : v.linked.unlinked.segment stats hash out.closedAt =
        v.segment stats hash out.closedAt := rfl
    rw [h.segments, hfile, hsegment, Writer.segment, hname, hbytes,
      show v.sequence = w₀.sequence from h.sequence, show v.packets = qs.length from h.packets,
      show v.config = w₀.config from h.config, show v.capturedBytes = _ from h.capturedBytes,
      show v.originalBytes = _ from h.originalBytes,
      show v.truncatedPackets = _ from h.truncatedPackets]
  · rw [← hname, hfile, ← hcontent]
    exact v.files_unlinked

end Holds

/-- The calls that write packets. -/
def packetCalls (qs : List (Packet × List Wrote)) : List Call :=
  qs.map fun q => .packet q.1.micros q.1.bytes q.1.original q.2

theorem Holds.packets_attempt {w₀ w : Writer} {description : Bytes} {done : List Packet}
    (h : Holds w₀ w description done) {qs : List (Packet × List Wrote)} (cs : List Call)
    (hfits : ∀ q ∈ qs, q.1.Fits w₀.config.snaplen ∧ Fine q.2)
    (hbudget : w₀.total +
        (file description ((done ++ qs.map Prod.fst).map .packet)).length ≤ w₀.config.byteBudget) :
    ∃ w', w.attempt (packetCalls qs ++ cs) = w'.attempt cs ∧
      Holds w₀ w' description (done ++ qs.map Prod.fst) := by
  induction qs generalizing w done with
  | nil => exact ⟨w, rfl, by simpa using h⟩
  | cons q qs ih =>
    obtain ⟨hq, hwrites⟩ := hfits q (List.mem_cons_self ..)
    have happend : done ++ (q :: qs).map Prod.fst = done ++ [q.1] ++ qs.map Prod.fst := by simp
    have hroom : w₀.total + (file description ((done ++ [q.1]).map .packet)).length ≤
        w₀.config.byteBudget := by
      have hsplit : (done ++ (q :: qs).map Prod.fst).map Entry.packet =
          (done ++ [q.1]).map Entry.packet ++ (qs.map Prod.fst).map Entry.packet := by simp
      rw [hsplit] at hbudget
      simp only [file, Entry.frames, List.length_append, List.flatMap_append] at hbudget ⊢
      omega
    obtain ⟨_, hcall, hw₁⟩ := h.packet hq hwrites hroom
    obtain ⟨w', hrun, hw'⟩ := ih hw₁ (fun x hx => hfits x (List.mem_cons_of_mem q hx))
      (happend ▸ hbudget)
    refine ⟨w', ?_, happend ▸ hw'⟩
    rw [← hrun]
    exact Writer.attempt_ok (c := .packet q.1.micros q.1.bytes q.1.original q.2) hcall _

/-- The bytes of a segment with these packets and final statistics. -/
def segmentFile (description : Bytes) (qs : List Packet) (now : ℕ) (stats : Statistics) : Bytes :=
  file description (qs.map .packet ++ [.statistics now stats])

/-- The position of a packet's block. -/
def blockOffset (description : Bytes) (qs : List Packet) (i : ℕ) : ℕ :=
  (preamble description).length + ((qs.take i).flatMap Packet.frame).length

theorem frames_packets (qs : List Packet) :
    Entry.frames (qs.map .packet) = qs.flatMap Packet.frame := by
  induction qs with
  | nil => rfl
  | cons q qs ih =>
    simp only [Entry.frames, List.map_cons, List.flatMap_cons] at ih ⊢
    rw [ih]
    rfl

/-- The block of a packet is where its row says. -/
theorem frame_at_blockOffset (description : Bytes) {qs : List Packet} (now : ℕ) (stats : Statistics)
    {i : ℕ} {q : Packet} (hq : qs[i]? = some q) :
    q.frame <+: (segmentFile description qs now stats).drop (blockOffset description qs i) := by
  obtain ⟨_, hget⟩ := List.getElem?_eq_some_iff.1 hq
  have hqs : qs = qs.take i ++ q :: qs.drop (i + 1) := by
    rw [← hget, List.cons_getElem_drop_succ, List.take_append_drop]
  have hfile : segmentFile description qs now stats =
      (preamble description ++ (qs.take i).flatMap Packet.frame) ++
        (q.frame ++ ((qs.drop (i + 1)).flatMap Packet.frame ++
          Entry.frames [.statistics now stats])) := by
    have hframes : qs.flatMap Packet.frame =
        (qs.take i).flatMap Packet.frame ++
          (q.frame ++ (qs.drop (i + 1)).flatMap Packet.frame) := by
      conv => lhs; rw [hqs]
      rw [List.flatMap_append, List.flatMap_cons]
    rw [segmentFile, file, Entry.frames, List.flatMap_append, ← Entry.frames, ← Entry.frames,
      frames_packets, hframes]
    simp only [List.append_assoc]
  rw [hfile, List.drop_left' (by rw [List.length_append, blockOffset])]
  exact List.prefix_append ..

/-- **The decoder reads what the writer writes.**  A writer whose file is closed opens a
segment, writes packets and closes it, and nothing fails.  The segment is published, its
entry has the true sums, and the decoder accepts it and returns the first packets. -/
theorem decode_capture {w : Writer} {o : Opening} {qs : List (Packet × List Wrote)}
    {stats : Statistics} {out : Closing} {hash : String} {context : Context} {limit : ℕ}
    (hsnaplen : 0 < w.config.snaplen ∧ w.config.snaplen ≤ 65535) (hnamed : w.config.Named)
    (hpackets : ∀ q ∈ qs, q.1.Fits w.config.snaplen) (hblocks : qs.length + 3 ≤ 1000000)
    (hbudget : ∀ description, interfaceBody w.config = .ok description → w.total +
      (segmentFile description (qs.map Prod.fst) out.now stats).length ≤ w.config.byteBudget)
    (hlimit : limit ≤ 2000) (hfd : w.fd = false) (hsequence : w.sequence < 1024)
    (hdraft : w.files w.partialName = none) (hclosed : w.files w.closedName = none)
    (ho : o.Fine) (hwrites : ∀ q ∈ qs, Fine q.2) (hout : out.Fine hash) :
    ∃ w' segment bytes decoded description,
      w.attempt (.open' o :: packetCalls qs ++ [.close stats out]) = (.ok (), w') ∧
      w'.segments = w.segments ++ [segment] ∧ w'.files segment.file = some bytes ∧
      interfaceBody w.config = .ok description ∧
      segment.size = toString bytes.length ∧ segment.packets = toString qs.length ∧
      segment.capturedBytes = toString (qs.map fun q => q.1.bytes.length).sum ∧
      segment.originalBytes = toString (qs.map fun q => q.1.original).sum ∧
      segment.truncatedPackets =
        toString (qs.countP fun q => q.1.bytes.length < q.1.original) ∧
      decode bytes context limit = .ok decoded ∧ decoded.packetCount = toString qs.length ∧
      decoded.items.length = min qs.length limit ∧
      ∀ i q, i < limit → qs[i]? = some q → ∃ row, decoded.items[i]? = some row ∧
        row.timestampUnixMicros = toString q.1.micros ∧
        row.capturedLength = q.1.bytes.length ∧ row.originalLength = q.1.original ∧
        row.truncated = decide (q.1.bytes.length < q.1.original) ∧
        row.blockOffset = toString (blockOffset description (qs.map Prod.fst) i) ∧
        q.1.frame <+: bytes.drop (blockOffset description (qs.map Prod.fst) i) := by
  set ps := qs.map Prod.fst with hps
  set description := u16 1 ++ (u16 0 ++ (u32 w.config.snaplen ++ interfaceOptions w.config))
  have hdescription : interfaceBody w.config = .ok description := interfaceBody_eq hnamed
  have hroom := hbudget description hdescription
  -- The calls.
  have hsize : (segmentFile description ps out.now stats).length =
      (file description (ps.map .packet)).length +
        (Entry.frames [.statistics out.now stats]).length := by
    simp only [segmentFile, file, Entry.frames, List.flatMap_append, List.length_append,
      Nat.add_assoc]
  have hfile : (file description (ps.map .packet)).length =
      (preamble description).length + (Entry.frames (ps.map .packet)).length := List.length_append
  obtain ⟨_, hopen, hw₁⟩ := Holds.of_open ho hfd hsequence hdraft hclosed hdescription (by omega)
  obtain ⟨_, hrun, hw₂⟩ := hw₁.packets_attempt [.close stats out]
    (fun q hq => ⟨hpackets q hq, hwrites q hq⟩) (by rw [List.nil_append, ← hps]; omega)
  rw [List.nil_append] at hw₂
  obtain ⟨w', hclose, hsegments, hpublished⟩ := hw₂.close hout hroom
  -- The bytes.
  have hfits : ∀ e ∈ ps.map Entry.packet ++ [.statistics out.now stats],
      e.Fits w.config.snaplen := by
    intro e he
    rcases List.mem_append.1 he with he | he
    · obtain ⟨_, hp, rfl⟩ := List.mem_map.1 he
      obtain ⟨q, hq, rfl⟩ := List.mem_map.1 hp
      exact hpackets q hq
    · rw [List.mem_singleton.1 he]
      trivial
  have hlength : ps.length = qs.length := List.length_map ..
  have hdecode := decode_file hnamed hsnaplen hdescription hfits (by simp [hlength]; omega) context
    hlimit
  have hcount : Entry.packets (ps.map Entry.packet ++ [.statistics out.now stats]) = ps := by
    simp [Entry.packets, List.filterMap_append, List.filterMap_map]
  have hitems : (Entry.seenAll context limit (preamble description).length
      (ps.map Entry.packet ++ [.statistics out.now stats]) w.config.begun).items =
      (Packet.rows context 0 (preamble description).length ps).take limit := by
    rw [Entry.seenAll_append, Entry.seenAll_statistics, Packet.seenAll_eq]
    rfl
  rw [hcount, hitems, hlength] at hdecode
  refine ⟨w', _, _, _, description, ?_, hsegments, hpublished, hdescription, rfl, ?_, ?_, ?_, ?_,
    hdecode, rfl, ?_, fun i q hi hq => ?_⟩
  · rw [List.cons_append, Writer.attempt_ok (c := .open' o) hopen, hrun,
      Writer.attempt_ok (c := .close stats out) hclose]
    rfl
  · rw [hlength]
  · show toString (ps.map fun q => q.bytes.length).sum = _
    rw [hps, List.map_map]
    rfl
  · show toString (ps.map fun q => q.original).sum = _
    rw [hps, List.map_map]
    rfl
  · show toString (ps.countP fun q => q.bytes.length < q.original) = _
    rw [hps, List.countP_map]
    rfl
  · rw [List.length_take, Packet.length_rows, hlength, min_comm]
  · have hq' : ps[i]? = some q.1 := by rw [hps, List.getElem?_map, hq]; rfl
    refine ⟨q.1.row context (0 + i) (blockOffset description ps i), ?_, rfl, rfl, rfl, rfl, rfl,
      frame_at_blockOffset description out.now stats hq'⟩
    dsimp only
    rw [List.getElem?_take_of_lt hi, Packet.rows_getElem?, hq']
    rfl

namespace Sample

/-- A writer in an empty directory. -/
def writer (byteBudget : ℕ) : Writer :=
  { config := { snaplen := 4, interface := [97], edge := [98], byteBudget }, files := fun _ => none }

/-- A whole packet and a truncated one. -/
def packets : List (Packet × List Wrote) :=
  [(⟨2 ^ 40 + 7, [1, 2, 3], 3⟩, [.bytes 4, .interrupted]), (⟨2 ^ 40 + 9, [1, 2, 3, 4], 60⟩, [])]

end Sample

theorem decode_capture_two : ∃ w' segment bytes decoded,
    (Sample.writer 300).attempt
      (.open' {} :: packetCalls Sample.packets ++ [.close { received := some 2 } {}]) =
      (.ok (), w') ∧
    w'.segments = [segment] ∧ segment.capturedBytes = "7" ∧ segment.originalBytes = "63" ∧
    segment.truncatedPackets = "1" ∧ w'.files segment.file = some bytes ∧
    decode bytes {} 1 = .ok decoded ∧ decoded.packetCount = "2" ∧ decoded.items.length = 1 := by
  obtain ⟨w', segment, bytes, decoded, _, hrun, hsegments, hfile, -, -, -, hcaptured, horiginal,
    htruncated, hdecode, hcount, hlength, -⟩ :=
    @decode_capture (Sample.writer 300) {} Sample.packets { received := some 2 } {} "" {} 1
      (by decide) (by decide) (by decide) (by decide)
      (by
        intro d hd
        rw [interfaceBody_eq (by decide)] at hd
        obtain rfl := Except.ok.inj hd
        decide +kernel)
      (by decide) rfl (by decide) rfl rfl ⟨rfl, by decide, by decide, rfl⟩ (by decide)
      ⟨by decide, rfl, rfl, rfl, rfl, rfl⟩
  exact ⟨w', segment, bytes, decoded, hrun, hsegments, hcaptured, horiginal, htruncated, hfile,
    hdecode, hcount, hlength⟩

end Graphlab.Capture
