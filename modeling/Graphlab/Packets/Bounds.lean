import Graphlab.Packets.Decoder
import Graphlab.Packets.Reference

/-!
# The reads of the packet decoder

The decoder takes lengths from the file and reads at positions that it computes of them.  A read
that the source does not check is an error of its own in the model, and no file is rejected with
it.  What is accepted is a sequence of whole blocks: nothing of the file is skipped or read twice.

## Main definitions

* `IsBlock` — a block whose length stands at both ends.
* `optionsAt` — the loop over options as the source has it, by index.

## Main results

* `decodeFrom_eq_ok` — how the decoder accepts, block by block.
* `decode_accounts` — no read lies outside, and a file that is accepted is its blocks.
-/

namespace Graphlab.Packets

open Lib

/-! ## Whole blocks -/

/-- A block of the type, with its length at both ends. -/
structure IsBlock (b : Bytes) (type : ℕ) : Prop where
  least : 12 ≤ b.length
  four : b.length % 4 = 0
  most : b.length ≤ 1024 * 1024
  type : le b 0 = .ok type
  length : le b 4 = .ok b.length
  trailer : le b (b.length - 4) = .ok b.length

theorem le_take {b : Bytes} {n k : ℕ} (h : n + 4 ≤ k) (hk : k ≤ b.length) :
    le (b.take k) n = le b n := by
  have hread : Bytes.read 4 b n = Bytes.read 4 (b.take k) n := by
    conv_lhs => rw [← List.take_append_drop k b]
    exact Bytes.read_append _ (by rw [List.length_take]; omega)
  simp only [le, hread]

/-- The loop of the decoder at bytes to come. -/
theorem decodeFrom_of_ne_nil {bytes : Bytes} (h : bytes ≠ []) (context : Context)
    (limit left offset : ℕ) (p : Progress) :
    decodeFrom context limit (left + 1) offset bytes p = (do
      require (12 ≤ bytes.length)
      let type ← le bytes 0
      let length ← le bytes 4
      require (12 ≤ length && length % 4 == 0 && length ≤ 1024 * 1024 && length ≤ bytes.length)
      require ((← le (bytes.take length) (length - 4)) == length)
      let p ← decodeBlock context limit offset (bytes.take length) type length p
      decodeFrom context limit left (offset + length) (bytes.drop length) p) := by
  cases bytes with
  | nil => exact absurd rfl h
  | cons => rfl

variable {context : Context} {limit left offset : ℕ} {bytes : Bytes} {p p' : Progress}

/-- **One block after the other.** -/
theorem decodeFrom_eq_ok (hne : bytes ≠ []) :
    decodeFrom context limit left offset bytes p = .ok p' ↔
      ∃ b type rest left' q, bytes = b ++ rest ∧ left = left' + 1 ∧ IsBlock b type ∧
        decodeBlock context limit offset b type b.length p = .ok q ∧
        decodeFrom context limit left' (offset + b.length) rest q = .ok p' := by
  cases left with
  | zero =>
    obtain ⟨_, _, rfl⟩ := List.exists_cons_of_ne_nil hne
    simp [decodeFrom]
  | succ left =>
    rw [decodeFrom_of_ne_nil hne]
    simp only [bind_eq_ok, check_eq_ok, Bool.and_eq_true, decide_eq_true_eq, beq_iff_eq]
    constructor
    · rintro ⟨_, hfew, type, htype, length, hlength, _, ⟨⟨⟨hleast, hfour⟩, hmost⟩, hfits⟩,
        trailer, htrailer, _, heq, q, hq, h⟩
      subst heq
      have hb : (bytes.take trailer).length = trailer := by rw [List.length_take]; omega
      refine ⟨bytes.take trailer, type, bytes.drop trailer, left, q,
        (List.take_append_drop _ _).symm, rfl, ⟨?_, ?_, ?_, ?_, ?_, ?_⟩, ?_, ?_⟩
      · rw [hb]
        exact hleast
      · rw [hb]
        exact hfour
      · rw [hb]
        exact hmost
      · rw [le_take (by omega) hfits, htype]
      · rw [le_take (by omega) hfits, hb, hlength]
      · rw [hb]
        exact htrailer
      · rw [hb]
        exact hq
      · rw [hb]
        exact h
    · rintro ⟨b, type, rest, left', q, rfl, hleft, hb, hq, h⟩
      cases hleft
      have hlong : b.length ≤ (b ++ rest).length := by simp
      have hsame : ∀ n, n + 4 ≤ b.length → le (b ++ rest) n = le b n := by
        intro n hn
        rw [← le_take hn hlong, List.take_left]
      refine ⟨(), by have := hb.least; omega, type, ?_, b.length, ?_, (), ?_, b.length, ?_, (), rfl,
        q, ?_, ?_⟩
      · rw [hsame 0 (by have := hb.least; omega), hb.type]
      · rw [hsame 4 (by have := hb.least; omega), hb.length]
      · exact ⟨⟨⟨hb.least, hb.four⟩, hb.most⟩, hlong⟩
      · rw [List.take_left, hb.trailer]
      · rw [List.take_left, hq]
      · rw [List.drop_left, h]

/-! ## Options by index -/

/-- The loop over the options of the block `b`, from `i` up to `stop`, with its reads by index. -/
def optionsAt (b : Bytes) (stop i : ℕ) : Except String Unit :=
  if i + 4 ≤ stop then do
    let code := (← unchecked (byte b i)) + (← unchecked (byte b (i + 1))) * 256
    let size := (← unchecked (byte b (i + 2))) + (← unchecked (byte b (i + 3))) * 256
    require (i + 4 + size ≤ stop)
    if code == 0 then require (size == 0)
    else
      -- the value is read only if there is one byte of it
      if code == 9 then
        if size == 1 then require ((← unchecked (byte b (i + 4))) == 6)
        else .error "invalid_pcapng"
      if code == 14 then .error "unsupported_timestamp_offset"
      else optionsAt b stop (i + 4 + Bytes.padded size)
  else .ok ()
termination_by stop - i

/-- The part of a block between two positions. -/
theorem area_cons {b : Bytes} {stop i : ℕ} (hi : i < stop) (hstop : stop ≤ b.length) :
    ∃ x, byte b i = some x.toNat ∧ (b.drop i).take (stop - i) =
      x :: (b.drop (i + 1)).take (stop - (i + 1)) := by
  have hlt : i < b.length := by omega
  refine ⟨b[i], by simp [byte, hlt], ?_⟩
  rw [List.drop_eq_getElem_cons hlt, show stop - i = stop - (i + 1) + 1 by omega,
    List.take_succ_cons]

theorem options_of_short {area : Bytes} (h : area.length < 4) : options area = .ok () := by
  match area, h with
  | [], _ => rw [options]; simp
  | [_], _ => rw [options]; simp
  | [_, _], _ => rw [options]; simp
  | [_, _, _], _ => rw [options]; simp

/-- **The loop by index reads inside the block, and does the same.** -/
theorem optionsAt_eq {b : Bytes} {stop : ℕ} (hstop : stop ≤ b.length) (i : ℕ) :
    optionsAt b stop i = options ((b.drop i).take (stop - i)) := by
  fun_induction optionsAt b stop i with
  | case1 i hi ih =>
    obtain ⟨c₀, hc₀, harea₀⟩ := area_cons (i := i) (by omega) hstop
    obtain ⟨c₁, hc₁, harea₁⟩ := area_cons (i := i + 1) (by omega) hstop
    obtain ⟨s₀, hs₀, harea₂⟩ := area_cons (i := i + 2) (by omega) hstop
    obtain ⟨s₁, hs₁, harea₃⟩ := area_cons (i := i + 3) (by omega) hstop
    rw [harea₀, harea₁, harea₂, harea₃]
    have hrest : ∀ k, ((b.drop (i + 4)).take (stop - (i + 4))).drop k =
        (b.drop (i + 4 + k)).take (stop - (i + 4 + k)) := by
      intro k
      rw [List.drop_take, List.drop_drop, Nat.sub_sub]
    have hlength : ((b.drop (i + 4)).take (stop - (i + 4))).length = stop - (i + 4) := by
      rw [List.length_take, List.length_drop]
      omega
    have hnext := ih s₀.toNat s₁.toNat
    simp only [hc₀, hc₁, hs₀, hs₁, unchecked, ok_bind]
    rw [options, hrest]
    dsimp only at hnext ⊢
    generalize c₀.toNat + c₁.toNat * 256 = code
    generalize s₀.toNat + s₁.toNat * 256 = size at hnext ⊢
    rw [hnext, hlength]
    by_cases hsize : i + 4 + size ≤ stop
    · rw [check_bind (decide_eq_true hsize), if_neg (show ¬stop - (i + 4) < size by omega)]
      by_cases hnine : code = 9
      · subst hnine
        by_cases hone : size = 1
        · -- the value is the first byte of what is left
          obtain ⟨v, hv, harea⟩ := area_cons (i := i + 4) (by omega) hstop
          have hbyte : v.toNat = 6 ↔ v = 6 := by
            rw [← UInt8.toNat_inj]
            rfl
          by_cases hsix : v = 6 <;> simp [hone, hv, harea, check, hbyte, hsix]
        · simp [hone]
      · simp [hnine]
    · rw [if_pos (show stop - (i + 4) < size by omega)]
      simp [check, hsize]
  | case2 i hi =>
    rw [options_of_short]
    rw [List.length_take]
    omega

/-! ## No read lies outside -/

/-- The model's answer to a read outside a block or a frame. -/
abbrev Safe {α : Type} (x : Except String α) : Prop := Avoids "out_of_bounds" x

theorem safe_require (condition : Bool) : Safe (require condition) := .check (by decide) condition

theorem safe_le (b : Bytes) (n : ℕ) : Safe (le b n) := by
  rw [le]
  split
  · exact .ok _ _
  · exact .error (by decide)

theorem safe_unchecked {α : Type} {x : Option α} (h : ∃ a, x = some a) : Safe (unchecked x) := by
  obtain ⟨a, rfl⟩ := h
  exact .ok _ a

theorem safe_options (area : Bytes) : Safe (options area) := by
  fun_induction options area with
  | case1 => exact .error (by decide)
  | case2 => exact safe_require _
  | case3 => exact .error (by decide)
  | case4 => exact .error (by decide)
  | case5 _ _ _ _ _ _ _ _ _ _ _ ih => exact ih
  | case6 => exact .ok _ _

variable {b : Bytes} {type : ℕ}

theorem safe_decodeSection : Safe (decodeSection b type b.length p) := by
  refine (safe_require _).bind fun _ _ => (safe_le b 8).bind fun _ _ => ?_
  exact (safe_le b 12).bind fun _ _ => (safe_require _).bind fun _ _ => .ok _ _

theorem safe_decodeInterface : Safe (decodeInterface b b.length p) := by
  refine (safe_require _).bind fun _ hlength => ?_
  simp only [check_eq_ok, Bool.and_eq_true, decide_eq_true_eq] at hlength
  refine (safe_unchecked (byte_isSome (by omega))).bind fun _ _ => ?_
  refine (safe_unchecked (byte_isSome (by omega))).bind fun _ _ => (safe_require _).bind fun _ _ => ?_
  refine (safe_le b 12).bind fun _ _ => (safe_require _).bind fun _ _ => ?_
  exact (safe_options _).bind fun _ _ => .ok _ _

theorem safe_decodePacket : Safe (decodePacket context limit offset b b.length p) := by
  refine (safe_require _).bind fun _ _ => (safe_le b 8).bind fun _ _ => ?_
  refine (safe_require _).bind fun _ _ => (safe_le b 20).bind fun captured _ => ?_
  refine (safe_le b 24).bind fun original _ => (safe_require _).bind fun _ hlengths => ?_
  simp only [check_eq_ok, Bool.and_eq_true, decide_eq_true_eq, beq_iff_eq] at hlengths
  split
  · have hframe : 28 + captured ≤ b.length := by
      have := hlengths.2
      rw [Bytes.padded] at this
      omega
    refine (safe_le b 12).bind fun _ _ => (safe_le b 16).bind fun _ _ => ?_
    refine (safe_unchecked (slice_isSome hframe)).bind fun frame _ => ?_
    exact (safe_unchecked (protocol_isSome frame _)).bind fun _ _ => .ok _ _
  · exact .ok _ _

theorem safe_decodeStatistics : Safe (decodeStatistics b b.length p) :=
  (safe_require _).bind fun _ _ => (safe_le b 8).bind fun _ _ => (safe_require _).bind fun _ _ =>
    .ok _ _

theorem safe_decodeBlock : Safe (decodeBlock context limit offset b type b.length p) := by
  unfold decodeBlock
  split
  · exact safe_decodeSection
  split
  · exact safe_decodeInterface
  split
  · exact safe_decodePacket
  split
  · exact safe_decodeStatistics
  · exact .error (by decide)

theorem safe_decodeFrom : ∀ (left offset : ℕ) (bytes : Bytes) (p : Progress),
    Safe (decodeFrom context limit left offset bytes p)
  | _, _, [], p => by
      rw [decodeFrom]
      exact .ok _ p
  | 0, _, _ :: _, _ => .error (by decide)
  | left + 1, offset, x :: xs, p => by
      rw [decodeFrom_of_ne_nil (List.cons_ne_nil x xs)]
      refine (safe_require _).bind fun _ _ => (safe_le _ 0).bind fun type _ => ?_
      refine (safe_le _ 4).bind fun length _ => (safe_require _).bind fun _ hlength => ?_
      simp only [check_eq_ok, Bool.and_eq_true, decide_eq_true_eq] at hlength
      have hb : ((x :: xs).take length).length = length := by
        rw [List.length_take]
        omega
      refine (safe_le _ _).bind fun _ _ => (safe_require _).bind fun _ _ => ?_
      refine Avoids.bind ?_ fun q _ => safe_decodeFrom left _ _ q
      have hblock := @safe_decodeBlock context limit offset p ((x :: xs).take length) type
      rwa [hb] at hblock

theorem safe_decode (bytes : Bytes) (context : Context) (limit : ℕ) :
    Safe (decode bytes context limit) :=
  (safe_require _).bind fun _ _ => (safe_decodeFrom _ _ _ _).bind fun _ _ =>
    (safe_require _).bind fun _ _ => .ok _ _

/-! ## What is accepted -/

/-- What the decoder has found of a block, and what it does with it. -/
inductive Took (limit : ℕ) (b : Bytes) (type : ℕ) (p : Progress) : Progress → Prop
  | section (hnew : p.hasSection = false) (htype : type = 0x0a0d0d0a) (hlength : b.length = 28)
      (hmagic : le b 8 = .ok 0x1a2b3c4d) : Took limit b type p { p with hasSection := true }
  | interface (hold : p.hasSection = true) (htype : type = 1) (hlength : 20 ≤ b.length)
      {snaplen : ℕ} (hsnaplen : 0 < snaplen ∧ snaplen ≤ 65535) :
      Took limit b type p { p with hasInterface := true, snaplen }
  | packet (hold : p.hasSection = true) (htype : type = 6) (hinterface : p.hasInterface = true)
      (hlength : 32 ≤ b.length) (hid : le b 8 = .ok 0) {captured original : ℕ}
      (hcaptured : le b 20 = .ok captured) (horiginal : le b 24 = .ok original)
      (hle : captured ≤ original) (hfits : 32 + Bytes.padded captured = b.length)
      {items : List Row} (hitems : items = p.items ∧ limit ≤ p.items.length ∨
        ∃ row, row.packetIndex = toString p.packets ∧ items = p.items ++ [row]) :
      Took limit b type p { p with packets := p.packets + 1, items }
  | statistics (hold : p.hasSection = true) (htype : type = 5) : Took limit b type p p

/-- **What the decoder can do with a block.** -/
theorem took_of_decodeBlock {q : Progress}
    (h : decodeBlock context limit offset b type b.length p = .ok q) : Took limit b type p q := by
  unfold decodeBlock at h
  split at h
  · next hnew =>
      simp only [decodeSection, bind_eq_ok, check_eq_ok, Bool.and_eq_true, beq_iff_eq] at h
      obtain ⟨-, ⟨htype, hlength⟩, _, hmagic, -, -, -, ⟨rfl, -⟩, h⟩ := h
      cases h
      exact .section (by simpa using hnew) htype hlength hmagic
  next hold =>
  have hold : p.hasSection = true := by simpa using hold
  split at h
  · next htype =>
      simp only [decodeInterface, bind_eq_ok, check_eq_ok, Bool.and_eq_true, decide_eq_true_eq] at h
      obtain ⟨-, ⟨-, hlength⟩, -, -, -, -, -, -, _, -, -, hsnaplen, -, -, h⟩ := h
      cases h
      exact .interface hold (beq_iff_eq.mp htype) hlength hsnaplen
  split at h
  · next htype =>
      simp only [decodePacket, bind_eq_ok, check_eq_ok, Bool.and_eq_true, decide_eq_true_eq,
        beq_iff_eq] at h
      obtain ⟨-, ⟨hinterface, hlength⟩, -, hid, -, rfl, captured, hcaptured, original, horiginal, -,
        ⟨⟨hle, -⟩, hfits⟩, h⟩ := h
      split_ifs at h with hroom
      · simp only [bind_eq_ok] at h
        obtain ⟨_, -, _, -, _, -, _, -, h⟩ := h
        cases h
        exact .packet hold (beq_iff_eq.mp htype) hinterface hlength hid hcaptured horiginal hle hfits
          (.inr ⟨_, rfl, rfl⟩)
      · cases h
        exact .packet hold (beq_iff_eq.mp htype) hinterface hlength hid hcaptured horiginal hle hfits
          (.inl ⟨rfl, Nat.le_of_not_lt hroom⟩)
  split at h
  · next htype =>
      simp only [decodeStatistics, bind_eq_ok] at h
      obtain ⟨-, -, -, -, -, -, h⟩ := h
      cases h
      exact .statistics hold (beq_iff_eq.mp htype)
  · cases h

/-- Whether a block is one of a packet. -/
def isPacket (b : Bytes) : Bool :=
  match le b 0 with
  | .ok type => type == 6
  | .error _ => false

/-- The packets that a block adds. -/
theorem Took.packets {q : Progress} (h : Took limit b type p q) (htype : le b 0 = .ok type) :
    q.packets = p.packets + if isPacket b then 1 else 0 := by
  cases h <;> simp_all [isPacket]

/-- Whole blocks that the loop takes one after the other, with so many left. -/
inductive Reads (context : Context) (limit : ℕ) : ℕ → ℕ → Progress → List Bytes → Progress → Prop
  | nil (left offset : ℕ) (p : Progress) : Reads context limit left offset p [] p
  | cons {left offset type : ℕ} {p q p' : Progress} {b : Bytes} {bs : List Bytes}
      (hb : IsBlock b type) (hq : decodeBlock context limit offset b type b.length p = .ok q)
      (h : Reads context limit left (offset + b.length) q bs p') :
      Reads context limit (left + 1) offset p (b :: bs) p'

theorem decodeFrom_nil : decodeFrom context limit left offset [] p = .ok p := by
  cases left <;> rfl

/-- **The blocks of a file.** -/
theorem decodeFrom_iff_reads : decodeFrom context limit left offset bytes p = .ok p' ↔
    ∃ blocks : List Bytes, blocks.flatten = bytes ∧ Reads context limit left offset p blocks p' := by
  constructor
  · intro h
    induction left generalizing offset bytes p with
    | zero =>
      cases bytes with
      | nil =>
        cases h
        exact ⟨[], rfl, .nil _ _ _⟩
      | cons => cases h
    | succ left ih =>
      by_cases hne : bytes = []
      · subst hne
        cases h
        exact ⟨[], rfl, .nil _ _ _⟩
      · obtain ⟨b, type, _, _, q, rfl, hleft, hb, hq, hrest⟩ :=
          (decodeFrom_eq_ok hne).mp h
        cases hleft
        obtain ⟨blocks, rfl, hblocks⟩ := ih hrest
        exact ⟨b :: blocks, rfl, .cons hb hq hblocks⟩
  · rintro ⟨blocks, rfl, h⟩
    induction h with
    | nil => exact decodeFrom_nil
    | @cons left offset type p q p' b bs hb hq _ ih =>
      have hne : (b :: bs).flatten ≠ [] := by
        intro hnil
        have hleast := hb.least
        have hlength := congrArg List.length hnil
        simp only [List.flatten_cons, List.length_append, List.length_nil] at hlength
        omega
      exact (decodeFrom_eq_ok hne).mpr ⟨b, type, bs.flatten, left, q, rfl, rfl, hb, hq, ih⟩

namespace Reads

variable {blocks : List Bytes}

theorem whole (h : Reads context limit left offset p blocks p') :
    ∀ b ∈ blocks, ∃ type, IsBlock b type := by
  induction h with
  | nil => simp
  | cons hb _ _ ih =>
    intro c hc
    rcases List.mem_cons.mp hc with rfl | hc
    · exact ⟨_, hb⟩
    · exact ih c hc

theorem packets (h : Reads context limit left offset p blocks p') :
    p'.packets = p.packets + blocks.countP isPacket := by
  induction h with
  | nil => rfl
  | cons hb hq _ ih =>
    rw [ih, (took_of_decodeBlock hq).packets hb.type, List.countP_cons]
    omega

/-- What every block keeps, a file keeps. -/
theorem invariant {J : Progress → Prop} (h : Reads context limit left offset p blocks p')
    (hJ : ∀ {b type p q}, Took limit b type p q → J p → J q) (hp : J p) : J p' := by
  induction h with
  | nil => exact hp
  | cons _ hq _ ih => exact ih (hJ (took_of_decodeBlock hq) hp)

end Reads

/-- How the decoder accepts a file. -/
theorem decode_iff_reads {d : Decoded} :
    decode bytes context limit = .ok d ↔ limit ≤ 2000 ∧ ∃ blocks p, blocks.flatten = bytes ∧
      Reads context limit 1000000 0 {} blocks p ∧ p.hasSection = true ∧ p.hasInterface = true ∧
      d = { items := p.items, packetCount := toString p.packets,
            omittedRecords := toString (p.packets - p.items.length) } := by
  unfold decode
  simp only [bind_eq_ok, check_eq_ok, decide_eq_true_eq, Bool.and_eq_true, decodeFrom_iff_reads]
  constructor
  · rintro ⟨-, hlimit, p, ⟨blocks, hflatten, hp⟩, -, hflags, h⟩
    cases h
    exact ⟨hlimit, blocks, p, hflatten, hp, hflags.1, hflags.2, rfl⟩
  · rintro ⟨hlimit, blocks, p, hflatten, hp, hsection, hinterface, rfl⟩
    exact ⟨(), hlimit, p, ⟨blocks, hflatten, hp⟩, (), ⟨hsection, hinterface⟩, rfl⟩

/-- There are no more rows than packets. -/
theorem Took.rows {q : Progress} (h : Took limit b type p q) (hp : p.items.length ≤ p.packets) :
    q.items.length ≤ q.packets := by
  cases h with
  | packet _ _ _ _ _ _ _ _ _ hitems =>
    rcases hitems with ⟨rfl, -⟩ | ⟨row, -, rfl⟩
    · exact Nat.le_succ_of_le hp
    · simpa using hp
  | _ => exact hp

/-- If no record is omitted, there is a row for each packet. -/
theorem packetCount_of_decode {d : Decoded} (h : decode bytes context limit = .ok d)
    (hnone : d.omittedRecords = "0") : d.packetCount = toString d.items.length := by
  obtain ⟨-, _, q, -, hq, -, -, rfl⟩ := decode_iff_reads.mp h
  have hrows := hq.invariant Took.rows (Nat.le_refl 0)
  have hzero : q.packets - q.items.length = 0 := toString_inj hnone
  rw [Nat.le_antisymm hrows (Nat.sub_eq_zero_iff_le.mp hzero)]

/-- The bytes are whole blocks, one after the other, and each packet of them is in a row or
omitted. -/
structure Accounted (bytes : Bytes) (d : Decoded) (blocks : List Bytes) : Prop where
  flatten : blocks.flatten = bytes
  whole : ∀ b ∈ blocks, ∃ type, IsBlock b type
  packets : ∃ omitted, d.omittedRecords = toString omitted ∧
    d.packetCount = toString (d.items.length + omitted) ∧
    blocks.countP isPacket = d.items.length + omitted

/-- **No read of the decoder lies outside, and a file that it accepts is its blocks.**  The loop over
the options of an interface block is the one by index. -/
theorem decode_accounts (bytes : Bytes) (context : Context) (limit : ℕ) :
    Safe (decode bytes context limit) ∧
      (∀ b : Bytes, 20 ≤ b.length →
        optionsAt b (b.length - 4) 16 = options ((b.drop 16).take (b.length - 20))) ∧
      ∀ d, decode bytes context limit = .ok d → ∃ blocks, Accounted bytes d blocks ∧
        (blocks.map List.length).sum = bytes.length := by
  refine ⟨safe_decode bytes context limit, fun b hb => ?_, fun d h => ?_⟩
  · rw [optionsAt_eq (Nat.sub_le _ _)]
    rfl
  · obtain ⟨-, blocks, q, hflatten, hblocks, -, -, rfl⟩ := decode_iff_reads.mp h
    have hrows := hblocks.invariant Took.rows (Nat.le_refl 0)
    have hsum : q.items.length + (q.packets - q.items.length) = q.packets :=
      Nat.add_sub_cancel' hrows
    refine ⟨blocks, ⟨hflatten, hblocks.whole, _, rfl, ?_, ?_⟩, ?_⟩
    · rw [hsum]
    · rw [hsum, hblocks.packets]
      exact (Nat.zero_add _).symm
    · rw [← hflatten, List.length_flatten]

end Graphlab.Packets
