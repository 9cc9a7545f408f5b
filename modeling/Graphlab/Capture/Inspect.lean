import Graphlab.Capture.Segments

/-!
# The valid beginning of a file

`inspect_partial` reads a file that was left open, block by block, until a block is cut off or is
not one that the writer writes.  It has its own checks, fewer than those of the decoder: a file that
the decoder accepts is read to its end.  A cut through a segment loses the block that was cut and
nothing before it.

## Main definitions

* `validPrefix` — the length of what is valid; `inspectPartial` the report.
* `Writer.Leaves` — the segments that calls of the writer leave.

## Main results

* `validPrefix_of_decode`, `validPrefix_take` — whole files and cuts.
* `readers_agree` — the two readers over the segments of the writer.
-/

namespace Graphlab.Capture

open Lib Packets

/-! ## The reader -/

/-- `read32`.  The source checks the length of the block before each read. -/
def read32 (b : Bytes) (n : ℕ) : ℕ := (Bytes.read 4 b n).getD 0

/-- The blocks that were found. -/
structure Found where
  hasSection : Bool := false
  hasInterface : Bool := false

/-- The checks of a whole block. -/
def Found.take (f : Found) (b : Bytes) (type : ℕ) : Option Found :=
  if !f.hasSection then
    if type != 0x0a0d0d0a || b.length < 28 || read32 b 8 != 0x1a2b3c4d then none
    else some { f with hasSection := true }
  else if type == 1 then
    if b.length < 20 then none else some { f with hasInterface := true }
  else if type == 6 then
    if !f.hasInterface || b.length < 32 || read32 b 8 != 0 || read32 b 24 < read32 b 20 ||
      b.length - 32 < read32 b 20 then none
    else some f
  else some f

/-- One round of the loop: the length of the block, or nothing where the loop ends. -/
def inspectBlock (rest : Bytes) (f : Found) : Option (ℕ × Found) :=
  if rest.length < 8 then none
  else
    let type := read32 rest 0
    let length := read32 rest 4
    if length < 12 || length % 4 != 0 || 1024 * 1024 < length then none
    else
      let b := rest.take length
      if b.length != length || read32 b (length - 4) != length then none
      else (f.take b type).map fun f => (length, f)

/-! ## Blocks -/

variable {b description : Bytes} {type limit : ℕ} {context : Context} {blocks : List Bytes}
    {w w' : Writer} {es : List Entry}

theorem le_eq_ok {n v : ℕ} (h : n + 4 ≤ b.length) : le b n = .ok v ↔ read32 b n = v := by
  obtain ⟨_, hx⟩ := Bytes.read_isSome h
  simp [le, read32, hx]

variable {f f' : Found} {bytes : Bytes} {n : ℕ}

/-- A round takes one whole block. -/
theorem inspectBlock_eq_some : inspectBlock bytes f = some (n, f') ↔
    ∃ b type rest, bytes = b ++ rest ∧ b.length = n ∧ IsBlock b type ∧ f.take b type = some f' := by
  unfold inspectBlock
  dsimp only
  constructor
  · intro h
    split_ifs at h with hshort hlength hwhole
    simp only [Bool.or_eq_true, decide_eq_true_eq, bne_iff_ne, not_or, not_lt, not_not] at hlength
    simp only [Bool.or_eq_true, bne_iff_ne, not_or, not_not] at hwhole
    obtain ⟨⟨hleast, _⟩, _⟩ := hlength
    obtain ⟨hb, htrailer⟩ := hwhole
    simp only [Option.map_eq_some_iff, Prod.mk.injEq] at h
    obtain ⟨_, hg, hn, rfl⟩ := h
    have hfits : read32 bytes 4 ≤ bytes.length := by
      rw [List.length_take] at hb
      omega
    refine ⟨bytes.take (read32 bytes 4), read32 bytes 0, bytes.drop (read32 bytes 4),
      (List.take_append_drop _ _).symm, hb.trans hn, ⟨by omega, by omega, by omega, ?_, ?_, ?_⟩, hg⟩
    · rw [le_take (by omega) hfits, le_eq_ok (by omega)]
    · rw [le_take (by omega) hfits, le_eq_ok (by omega), hb]
    · rw [hb, le_eq_ok (by omega), htrailer]
  · rintro ⟨b, type, rest, rfl, rfl, hb, hf⟩
    have hleast := hb.least
    have hsame : ∀ k, k + 4 ≤ b.length → ∀ v, le b k = .ok v → read32 (b ++ rest) k = v := by
      intro k hk v hv
      rw [← le_eq_ok (by simp; omega), ← le_take hk (by simp), List.take_left, hv]
    rw [if_neg (by simp; omega), hsame 0 (by omega) type hb.type, hsame 4 (by omega) _ hb.length,
      if_neg (by simp [hb.four, hb.most, hleast]), List.take_left,
      if_neg (by simp [(le_eq_ok (by omega)).mp hb.trailer]), hf]
    rfl

/-- The loop of `inspect_partial`: the length of the blocks that it takes. -/
def inspectFrom (rest : Bytes) (f : Found) : ℕ :=
  match _hround : inspectBlock rest f with
  | none => 0
  | some (length, f') => length + inspectFrom (rest.drop length) f'
termination_by rest.length
decreasing_by
  obtain ⟨_, _, _, rfl, rfl, hb, -⟩ := inspectBlock_eq_some.mp _hround
  have := hb.least
  simp only [List.length_drop, List.length_append]
  omega

/-- `valid`. -/
def validPrefix (bytes : Bytes) : ℕ := inspectFrom bytes {}

/-- The report on a file. -/
structure Inspection where
  state : String := "partial"
  size : String
  validPrefixBytes : String
  formatScope : String :=
    "Graphlab little-endian PCAPNG structural prefix; original bytes preserved"
  deriving DecidableEq, Repr

/-- `inspect_partial`, on a file that may not be there. -/
def inspectPartial (file : Option Bytes) : Except String Inspection :=
  match file with
  | none => .error "partial_unavailable"
  | some bytes => .ok {
      size := toString bytes.length
      validPrefixBytes := toString (validPrefix bytes) }

/-! ## What is valid -/

theorem inspectFrom_block {rest : Bytes} (hb : IsBlock b type) (hf : f.take b type = some f') :
    inspectFrom (b ++ rest) f = b.length + inspectFrom rest f' := by
  have hround : inspectBlock (b ++ rest) f = some (b.length, f') :=
    inspectBlock_eq_some.mpr ⟨b, type, rest, rfl, rfl, hb, hf⟩
  rw [inspectFrom]
  split
  · next h =>
      rw [hround] at h
      cases h
  · next length g h =>
      rw [hround] at h
      cases h
      rw [List.drop_left]

theorem inspectFrom_stop (h : inspectBlock bytes f = none) : inspectFrom bytes f = 0 := by
  rw [inspectFrom]
  split
  · rfl
  · next h' =>
      rw [h] at h'
      cases h'

/-- What is taken, and where the loop ends. -/
theorem inspectFrom_cases (bytes : Bytes) (f : Found) : inspectFrom bytes f = 0 ∨
    ∃ b type rest f', bytes = b ++ rest ∧ IsBlock b type ∧ f.take b type = some f' ∧
      inspectFrom bytes f = b.length + inspectFrom rest f' := by
  cases h : inspectBlock bytes f with
  | none => exact .inl (inspectFrom_stop h)
  | some found =>
    obtain ⟨_, f'⟩ := found
    obtain ⟨b, type, rest, rfl, rfl, hb, hf⟩ := inspectBlock_eq_some.mp h
    exact .inr ⟨b, type, rest, f', rfl, hb, hf, inspectFrom_block hb hf⟩

/-- **The valid beginning is valid.** -/
theorem inspectFrom_take (bytes : Bytes) (f : Found) :
    inspectFrom (bytes.take (inspectFrom bytes f)) f = inspectFrom bytes f := by
  induction hlength : bytes.length using Nat.strong_induction_on generalizing bytes f with
  | h length ih =>
    rcases inspectFrom_cases bytes f with h | ⟨b, type, rest, f', rfl, hb, hf, h⟩
    · rw [h, List.take_zero]
      exact inspectFrom_stop rfl
    · have hleast := hb.least
      rw [List.length_append] at hlength
      rw [h, List.take_append, List.take_of_length_le (by omega), Nat.add_sub_cancel_left,
        inspectFrom_block hb hf, ih rest.length (by omega) rest f' rfl]

/-! ## Files that the decoder accepts -/

/-- What the decoder has found. -/
def Found.of (p : Progress) : Found := ⟨p.hasSection, p.hasInterface⟩

/-- A block that the decoder accepts passes the checks. -/
theorem take_of_took {p q : Progress} (h : Took limit b type p q) :
    (Found.of p).take b type = some (Found.of q) := by
  cases h with
  | «section» hnew htype hlength hmagic =>
    simp [Found.take, Found.of, hnew, htype, hlength, (le_eq_ok (by omega)).mp hmagic]
  | interface hold htype hlength =>
    simp [Found.take, Found.of, hold, htype, hlength]
  | packet hold htype hinterface hlength hid hcaptured horiginal hle hfits =>
    have hid := (le_eq_ok (by omega)).mp hid
    have hcaptured := (le_eq_ok (by omega)).mp hcaptured
    have horiginal := (le_eq_ok (by omega)).mp horiginal
    have hroom : ¬b.length - 32 < read32 b 20 := by
      rw [Bytes.padded] at hfits
      omega
    simp [Found.take, Found.of, hold, htype, hinterface, hlength, hid, hcaptured, horiginal, hle,
      hcaptured ▸ hroom]
  | statistics hold htype =>
    simp [Found.take, Found.of, hold, htype]

/-- Bytes that are whole blocks, one after the other. -/
def Blocks (bytes : Bytes) : Prop :=
  ∃ blocks : List Bytes, blocks.flatten = bytes ∧ ∀ b ∈ blocks, ∃ type, IsBlock b type

/-- The block at the beginning of a string. -/
theorem eq_of_isBlock {c : Bytes} {type' : ℕ} (hb : IsBlock b type) (hc : IsBlock c type')
    (hbx : b <+: bytes) (hcx : c <+: bytes) : b = c := by
  have hread : ∀ {d : Bytes} {type : ℕ}, IsBlock d type → d <+: bytes →
      le bytes 4 = .ok d.length := by
    intro d type hd hdx
    have hleast := hd.least
    rw [← le_take (by omega) hdx.length_le, ← List.prefix_iff_eq_take.mp hdx, hd.length]
  have hlength : b.length = c.length := by
    have h := (hread hb hbx).symm.trans (hread hc hcx)
    simpa using h
  exact (List.prefix_of_prefix_length_le hbx hcx hlength.le).eq_of_length hlength

/-- Blocks at the beginning of a string. -/
theorem Blocks.cases {k : ℕ} (h : Blocks (bytes.take k)) (hk : k ≤ bytes.length) :
    k = 0 ∨ ∃ b type rest, IsBlock b type ∧ bytes.take k = b ++ rest ∧ b <+: bytes ∧ Blocks rest := by
  obtain ⟨blocks, hflatten, hblocks⟩ := h
  cases blocks with
  | nil =>
    have hlength := congrArg List.length hflatten
    rw [List.length_take, min_eq_left hk] at hlength
    exact .inl hlength.symm
  | cons b bs =>
    obtain ⟨type, hb⟩ := hblocks b (List.mem_cons_self ..)
    have hprefix : b <+: bytes := by
      refine (List.prefix_append b bs.flatten).trans ?_
      rw [← List.flatten_cons, hflatten]
      exact List.take_prefix ..
    exact .inr ⟨b, type, bs.flatten, hb, hflatten.symm, hprefix, bs, rfl,
      fun c hc => hblocks c (List.mem_cons_of_mem b hc)⟩

/-- A part of a block does not begin with a block. -/
theorem not_prefix_of_lt {c : Bytes} {type' : ℕ} (hb : IsBlock b type) (hn : n < b.length)
    (hc : IsBlock c type') : ¬c <+: b.take n := by
  intro hprefix
  have heq := eq_of_isBlock hb hc List.prefix_rfl ( hprefix.trans (List.take_prefix ..))
  have hlength := hprefix.length_le
  rw [List.length_take, ← heq] at hlength
  omega

/-- **A cut through blocks that the decoder accepts.** -/
theorem inspectFrom_cut {left offset : ℕ} {p p' : Progress}
    (h : Reads context limit left offset p blocks p') (n : ℕ) :
    ∃ m, inspectFrom (blocks.flatten.take n) (.of p) = (blocks.take m).flatten.length ∧
      (blocks.take m).flatten <+: blocks.flatten.take n ∧
      ∀ k ≤ (blocks.flatten.take n).length, Blocks ((blocks.flatten.take n).take k) →
        k ≤ (blocks.take m).flatten.length := by
  induction h generalizing n with
  | nil =>
    refine ⟨0, ?_, ?_, ?_⟩
    · rw [List.flatten_nil, List.take_nil]
      exact inspectFrom_stop rfl
    · exact List.nil_prefix
    · intro k hk _
      simpa using hk
  | @cons left offset type p q p' b bs hb hq _ ih =>
    have htake := take_of_took (took_of_decodeBlock hq)
    rw [List.flatten_cons]
    by_cases hn : n < b.length
    · -- the cut goes through the block
      rw [List.take_append_of_le_length hn.le]
      refine ⟨0, ?_, List.nil_prefix, fun k hk hblocks => ?_⟩
      · rcases inspectFrom_cases (b.take n) (.of p) with hstop | ⟨c, type', rest, f', hc, hblock, -⟩
        · exact hstop
        · exact absurd (hc ▸ List.prefix_append ..) (not_prefix_of_lt hb hn hblock)
      · rcases hblocks.cases hk with rfl | ⟨c, type', rest, hc, -, hprefix, -⟩
        · exact Nat.zero_le _
        · exact absurd hprefix (not_prefix_of_lt hb hn hc)
    · obtain ⟨m, hvalid, hprefix, hgreatest⟩ := ih (n - b.length)
      have hcut : (b ++ bs.flatten).take n = b ++ bs.flatten.take (n - b.length) := by
        rw [List.take_append, List.take_of_length_le (by omega)]
      rw [hcut]
      refine ⟨m + 1, ?_, ?_, fun k hk hblocks => ?_⟩
      · rw [inspectFrom_block hb htake, hvalid, List.take_succ_cons, List.flatten_cons,
          List.length_append]
      · rw [List.take_succ_cons, List.flatten_cons]
        exact (List.prefix_append_right_inj b).mpr hprefix
      · rw [List.take_succ_cons, List.flatten_cons, List.length_append]
        rcases hblocks.cases hk with rfl | ⟨c, type', rest, hc, hcut, hcb, hrest⟩
        · exact Nat.zero_le _
        · obtain rfl := eq_of_isBlock hb hc (List.prefix_append ..) hcb
          have hlength := congrArg List.length hcut
          rw [List.length_append, List.length_take] at hlength
          rw [List.take_append, List.take_of_length_le (by omega),
            List.append_cancel_left_eq] at hcut
          rw [List.length_append] at hk
          have := hgreatest (k - b.length) (by omega) (hcut ▸ hrest)
          omega

/-! ### Parts of a file -/

theorem reads_take {left offset : ℕ} {p p' : Progress}
    (h : Reads context limit left offset p blocks p') (m : ℕ) :
    ∃ q, Reads context limit left offset p (blocks.take m) q := by
  induction h generalizing m with
  | nil => exact ⟨_, by simpa using .nil _ _ _⟩
  | cons hb hq _ ih =>
    cases m with
    | zero => exact ⟨_, .nil _ _ _⟩
    | succ m =>
      obtain ⟨q', h'⟩ := ih m
      exact ⟨q', .cons hb hq h'⟩

/-- There is an interface block. -/
def HasInterface (blocks : List Bytes) : Prop := ∃ b ∈ blocks, le b 0 = .ok 1

theorem flags_of_took {p q : Progress} (h : Took limit b type p q) :
    q.hasSection = true ∧ (p.hasInterface = true ∨ type = 1 → q.hasInterface = true) := by
  cases h <;> simp_all

theorem flags_of_reads {left offset : ℕ} {p p' : Progress}
    (h : Reads context limit left offset p blocks p') :
    (p.hasSection = true ∨ blocks ≠ [] → p'.hasSection = true) ∧
      (p.hasInterface = true ∨ HasInterface blocks → p'.hasInterface = true) := by
  induction h with
  | nil =>
    refine ⟨?_, ?_⟩
    · rintro (h | h)
      · exact h
      · exact absurd rfl h
    · rintro (h | ⟨b, hb, -⟩)
      · exact h
      · cases hb
  | cons hb hq _ ih =>
    obtain ⟨hsection, hinterface⟩ := flags_of_took (took_of_decodeBlock hq)
    refine ⟨fun _ => ih.1 (.inl hsection), ?_⟩
    rintro (h | ⟨c, hc, hone⟩)
    · exact ih.2 (.inl (hinterface (.inl h)))
    · rcases List.mem_cons.mp hc with rfl | hc
      · rw [hb.type] at hone
        exact ih.2 (.inl (hinterface (.inr (by simpa using hone))))
      · exact ih.2 (.inr ⟨c, hc, hone⟩)

theorem flatten_cons_ne_nil (hb : IsBlock b type) (bs : List Bytes) : (b :: bs).flatten ≠ [] := by
  have hleast := hb.least
  rw [List.flatten_cons]
  exact List.append_ne_nil_of_left_ne_nil (List.ne_nil_of_length_pos (by omega)) _

/-- The blocks of a string are determined. -/
theorem blocks_unique {bs cs : List Bytes} (hbs : ∀ b ∈ bs, ∃ type, IsBlock b type)
    (hcs : ∀ c ∈ cs, ∃ type, IsBlock c type) (h : bs.flatten = cs.flatten) : bs = cs := by
  induction bs generalizing cs with
  | nil =>
    cases cs with
    | nil => rfl
    | cons c cs =>
      obtain ⟨type, hc⟩ := hcs c (List.mem_cons_self ..)
      exact absurd h.symm (flatten_cons_ne_nil hc cs)
  | cons b bs ih =>
    obtain ⟨_, hb⟩ := hbs b (List.mem_cons_self ..)
    cases cs with
    | nil => exact absurd h (flatten_cons_ne_nil hb bs)
    | cons c cs =>
      obtain ⟨_, hc⟩ := hcs c (List.mem_cons_self ..)
      rw [List.flatten_cons, List.flatten_cons] at h
      obtain rfl := eq_of_isBlock hb hc (List.prefix_append b bs.flatten)
        (h ▸ List.prefix_append c cs.flatten)
      rw [ih (fun x hx => hbs x (List.mem_cons_of_mem _ hx))
        (fun x hx => hcs x (List.mem_cons_of_mem _ hx)) (List.append_cancel_left h)]

/-! ### The two readers -/

/-- **A file that the decoder accepts is valid.** -/
theorem validPrefix_of_decode {d : Decoded}
    (h : decode bytes context limit = .ok d) : validPrefix bytes = bytes.length := by
  obtain ⟨-, blocks, _, rfl, hp, -⟩ := decode_iff_reads.mp h
  obtain ⟨m, hvalid, hprefix, hgreatest⟩ := inspectFrom_cut hp blocks.flatten.length
  rw [List.take_length] at hvalid hprefix hgreatest
  have hvalid : validPrefix blocks.flatten = (blocks.take m).flatten.length := hvalid
  refine le_antisymm (hvalid.trans_le hprefix.length_le) ?_
  rw [hvalid]
  refine hgreatest _ le_rfl ?_
  rw [List.take_length]
  exact ⟨blocks, rfl, hp.whole⟩

/-- What both readers say of the first `n` bytes of a file with these blocks. -/
structure CutAt (bytes : Bytes) (blocks : List Bytes) (n : ℕ) : Prop where
  longest : IsGreatest {k | k ≤ (bytes.take n).length ∧ Blocks ((bytes.take n).take k)}
    (validPrefix (bytes.take n))
  decoded : ∃ m, (blocks.take m).flatten = (bytes.take n).take (validPrefix (bytes.take n)) ∧
    (HasInterface (blocks.take m) → ∀ context limit, limit ≤ 2000 →
      ∃ d, decode ((bytes.take n).take (validPrefix (bytes.take n))) context limit = .ok d ∧
        d.packetCount = toString ((blocks.take m).countP isPacket))

/-- **A cut through a file that the decoder accepts.** -/
theorem cutAt_of_decode
    (h : ∀ context limit, limit ≤ 2000 → ∃ d, decode bytes context limit = .ok d) :
    ∃ blocks : List Bytes, blocks.flatten = bytes ∧ (∀ b ∈ blocks, ∃ type, IsBlock b type) ∧
      ∀ n, CutAt bytes blocks n := by
  obtain ⟨_, hd⟩ := h {} 0 (Nat.zero_le _)
  obtain ⟨-, blocks, _, rfl, hp, -⟩ := decode_iff_reads.mp hd
  refine ⟨blocks, rfl, hp.whole, fun n => ?_⟩
  obtain ⟨m, hvalid, hprefix, hgreatest⟩ := inspectFrom_cut hp n
  have hvalid : validPrefix (blocks.flatten.take n) = (blocks.take m).flatten.length := hvalid
  have hpart : (blocks.take m).flatten =
      (blocks.flatten.take n).take (validPrefix (blocks.flatten.take n)) := by
    rw [hvalid]
    exact List.prefix_iff_eq_take.mp hprefix
  have hwhole : ∀ b ∈ blocks.take m, ∃ type, IsBlock b type :=
    fun b hb => hp.whole b (List.mem_of_mem_take hb)
  constructor
  · refine ⟨⟨hvalid.trans_le hprefix.length_le, ?_⟩, fun k hk => ?_⟩
    · rw [← hpart]
      exact ⟨_, rfl, hwhole⟩
    · rw [hvalid]
      exact hgreatest k hk.1 hk.2
  · refine ⟨m, hpart, fun hinterface context limit hlimit => ?_⟩
    -- the decoder finds the same blocks, whatever it is asked for
    obtain ⟨_, hd'⟩ := h context limit hlimit
    obtain ⟨-, blocks', _, hflatten, hp', -⟩ := decode_iff_reads.mp hd'
    obtain rfl := blocks_unique hp'.whole hp.whole hflatten
    obtain ⟨q, hq⟩ := reads_take hp' m
    have hne : blocks'.take m ≠ [] := by
      intro hnil
      obtain ⟨_, hb, -⟩ := hinterface
      rw [hnil] at hb
      cases hb
    obtain ⟨hsection, hinterface⟩ := flags_of_reads hq
    refine ⟨_, decode_iff_reads.mpr ⟨hlimit, blocks'.take m, q, hpart, hq, hsection (.inr hne),
      hinterface (.inr ‹_›), rfl⟩, ?_⟩
    rw [hq.packets]
    exact congrArg toString (Nat.zero_add _)

/-! ## The segments of the writer -/

/-- A call that writes to the open segment, with arguments that fit their types. -/
def Call.Writes : Call → Prop
  | .packet micros _ original _ => micros < 2 ^ 64 ∧ original < 2 ^ 32
  | .sync _ => True
  | _ => False

/-- A segment that calls of the writer leave if none of them throws, open or published, and its
number of blocks. -/
inductive Writer.Leaves (w : Writer) (segment : Bytes) (blocks : ℕ) : Prop
  | opened {o : Opening} {calls : List Call} {w' : Writer} (hcalls : ∀ c ∈ calls, c.Writes)
      (h : w.attempt (.open' o :: calls) = (.ok (), w')) (hsegment : w'.content = segment)
      (hblocks : w'.blocks = blocks)
  | closed {o : Opening} {calls : List Call} {stats : Statistics} {out : Closing} {w' : Writer}
      (hcalls : ∀ c ∈ calls, c.Writes)
      (h : w.attempt (.open' o :: (calls ++ [.close stats out])) = (.ok (), w'))
      (hsegment : w'.files w.closedName = some segment) (hblocks : w'.blocks = blocks)

theorem attempt_cons {c : Call} {cs : List Call} :
    w.attempt (c :: cs) = (.ok (), w') ↔
      ∃ v, w.call c = (.ok (), v) ∧ v.attempt cs = (.ok (), w') := by
  rw [Writer.attempt]
  split
  · next e v hcall => simp [hcall]
  · next v hcall => simp [hcall]

theorem attempt_append {cs ds : List Call} :
    w.attempt (cs ++ ds) = (.ok (), w') ↔
      ∃ v, w.attempt cs = (.ok (), v) ∧ v.attempt ds = (.ok (), w') := by
  induction cs generalizing w with
  | nil => simp [Writer.attempt]
  | cons c cs ih =>
    simp only [List.cons_append, attempt_cons, ih]
    constructor
    · rintro ⟨u, hu, v, hv, h⟩
      exact ⟨v, ⟨u, hu, hv⟩, h⟩
    · rintro ⟨v, ⟨u, hu, hv⟩, h⟩
      exact ⟨u, hu, v, hv, h⟩

/-- The open file of `w'`, which `w` has opened, has the header blocks and then `es`. -/
structure Open (w w' : Writer) (description : Bytes) (es : List Entry) : Prop where
  fd : w'.fd = true
  config : w'.config = w.config
  sequence : w'.sequence = w.sequence
  begun : ∃ k, Begun w' k description es

theorem block_eq_ok {body : Bytes} {writes : List Wrote}
    (h : w.block type body writes = (.ok (), w')) :
    w.fd = true ∧ w' = w.wrote (frame type body) := by
  rcases w.block_cases type body writes with ⟨e, hb⟩ | ⟨hfd, -, ⟨e, part, -, -, hb⟩ | hb⟩
  · rw [hb] at h
    cases h
  · rw [hb] at h
    cases h
  · rw [hb] at h
    cases h
    exact ⟨hfd, rfl⟩

theorem sync_eq_ok {synced : Bool} (h : w.sync synced = (.ok (), w')) : w' = w := by
  rcases w.sync_cases synced with hs | hs
  · rw [hs] at h
    cases h
  · rw [hs] at h
    cases h
    rfl

theorem publish_eq_ok {stats : Statistics} {out : Closing}
    (h : w.publish stats out = (.ok (), w')) :
    ∃ hash, w' = w.linked.unlinked.recorded stats hash out.closedAt := by
  unfold Writer.publish at h
  split at h
  · cases h
  split at h
  · cases h
  split at h
  · cases h
  split at h
  · cases h
  next hash _ =>
  cases h
  exact ⟨hash, rfl⟩

theorem Open.of_open {o : Opening} (h : w.open' o = (.ok (), w')) :
    ∃ description, Open w w' description [] := by
  unfold Writer.open' at h
  split at h
  · cases h
  split at h
  · cases h
  unfold Writer.openBlocks at h
  split at h
  · cases h
  next v hsection =>
  obtain ⟨-, rfl⟩ := block_eq_ok hsection
  split at h
  · cases h
  next description hdescription =>
  split at h
  · cases h
  next u hinterface =>
  obtain ⟨-, rfl⟩ := block_eq_ok hinterface
  obtain rfl := sync_eq_ok h
  exact ⟨description, rfl, rfl, rfl, 0, hdescription, w.content_opened description, by simp, rfl, rfl⟩

theorem Open.call {v : Writer} (hv : Open w v description es) {c : Call} (hc : c.Writes)
    (h : v.call c = (.ok (), w')) : ∃ es', Open w w' description es' := by
  cases c with
  | open' => exact hc.elim
  | close => exact hc.elim
  | sync =>
    obtain rfl := sync_eq_ok h
    exact ⟨es, hv⟩
  | packet micros bytes original writes =>
    simp only [Writer.call, Writer.packet] at h
    split at h
    · cases h
    next hlengths =>
    simp only [Bool.or_eq_true, decide_eq_true_eq, not_or, Nat.not_lt] at hlengths
    split at h
    · cases h
    next u hblock =>
    obtain ⟨-, rfl⟩ := block_eq_ok hblock
    cases h
    obtain ⟨_, hbegun⟩ := hv.begun
    have hfits : Entry.Fits v.config.snaplen (.packet ⟨micros, bytes, original⟩) :=
      ⟨hc.1, hlengths.1, hlengths.2, hc.2⟩
    obtain ⟨hdescribed, hcontent, hall, hpackets, hblocks⟩ := hbegun.wrote hfits
    exact ⟨_, hv.fd, hv.config, hv.sequence, _, hdescribed, hcontent, hall, hpackets, hblocks⟩

theorem Open.attempt {v : Writer} (hv : Open w v description es) {calls : List Call}
    (hcalls : ∀ c ∈ calls, c.Writes)
    (h : v.attempt calls = (.ok (), w')) : ∃ es', Open w w' description es' := by
  induction calls generalizing v es with
  | nil =>
    cases h
    exact ⟨es, hv⟩
  | cons c cs ih =>
    obtain ⟨_, hcall, hrest⟩ := attempt_cons.mp h
    obtain ⟨_, hu⟩ := hv.call (hcalls c (List.mem_cons_self ..)) hcall
    exact ih hu (fun d hd => hcalls d (List.mem_cons_of_mem c hd)) hrest

/-- What `close` publishes. -/
theorem Open.close {v : Writer} (hv : Open w v description es) {stats : Statistics} {out : Closing}
    (h : v.close stats out = (.ok (), w')) :
    ∃ k u, Begun u k description (es ++ [.statistics out.now stats]) ∧ u.config = w.config ∧
      w'.files w.closedName = some u.content ∧ w'.blocks = u.blocks := by
  obtain ⟨_, hbegun⟩ := hv.begun
  unfold Writer.close at h
  rw [if_neg (by simp [hv.fd])] at h
  split at h
  · cases h
  next u hblock =>
  obtain ⟨-, rfl⟩ := block_eq_ok hblock
  split at h
  · cases h
  next x hsync =>
  obtain rfl := sync_eq_ok hsync
  have hend := hbegun.wrote (e := .statistics out.now stats) trivial
  set u := v.wrote (Entry.frame (.statistics out.now stats)) with hu
  obtain ⟨_, rfl⟩ := publish_eq_ok h
  refine ⟨_, u, hend, hv.config, ?_, rfl⟩
  have hname : w.closedName = u.closedName := by
    show toString w.sequence ++ ".pcapng" = toString v.sequence ++ ".pcapng"
    rw [hv.sequence]
  rw [hname]
  exact u.files_unlinked

/-- The decoder accepts the segments of the writer. -/
theorem Writer.Leaves.accepted {segment : Bytes} {blocks : ℕ} (h : w.Leaves segment blocks)
    (hsnaplen : 0 < w.config.snaplen ∧ w.config.snaplen ≤ 65535) (hblocks : blocks < 1000000)
    (context : Context) (hlimit : limit ≤ 2000) : ∃ d, decode segment context limit = .ok d := by
  cases h with
  | @opened o calls w' hcalls h hsegment hcount =>
    obtain ⟨v, hopen, hrest⟩ := attempt_cons.mp h
    obtain ⟨description, hv⟩ := Open.of_open hopen
    obtain ⟨es, hw'⟩ := hv.attempt hcalls hrest
    obtain ⟨k, hbegun⟩ := hw'.begun
    obtain ⟨d, hd, -⟩ := hbegun.sound (hw'.config ▸ hsnaplen) (by omega) context hlimit
    exact ⟨d, hsegment ▸ hd⟩
  | @closed o calls stats out w' hcalls h hsegment hcount =>
    obtain ⟨_, hopen, hrest⟩ := attempt_cons.mp h
    obtain ⟨_, hv⟩ := Open.of_open hopen
    obtain ⟨_, hpackets, hclose⟩ := attempt_append.mp hrest
    obtain ⟨_, hu⟩ := hv.attempt hcalls hpackets
    obtain ⟨_, hx, hnil⟩ := attempt_cons.mp hclose
    cases hnil
    obtain ⟨_, _, hbegun, hconfig, hfile, _⟩ := hu.close hx
    obtain ⟨d, hd, -⟩ := hbegun.sound (hconfig ▸ hsnaplen) (by omega) context hlimit
    rw [hsegment] at hfile
    exact ⟨d, by rw [Option.some.inj hfile, hd]⟩

/-- **The two readers agree.** -/
theorem readers_agree {w : Writer} {segment : Bytes} {blocks : ℕ}
    (hsegment : w.Leaves segment blocks)
    (hsnaplen : 0 < w.config.snaplen ∧ w.config.snaplen ≤ 65535) (hblocks : blocks < 1000000) :
    (∀ (bytes : Bytes) (context : Context) (limit : ℕ) (d : Decoded),
      decode bytes context limit = .ok d → validPrefix bytes = bytes.length) ∧
    (∃ blocks : List Bytes, blocks.flatten = segment ∧ (∀ b ∈ blocks, ∃ type, IsBlock b type) ∧
      ∀ n, CutAt segment blocks n) ∧
    ∀ bytes : Bytes, validPrefix (bytes.take (validPrefix bytes)) = validPrefix bytes := by
  refine ⟨fun bytes context limit d h => validPrefix_of_decode h, cutAt_of_decode ?_,
    fun bytes => inspectFrom_take bytes {}⟩
  intro context limit hlimit
  exact hsegment.accepted hsnaplen hblocks context hlimit

/-- The calls of a segment with two packets. -/
def Sample.calls : List Call :=
  .open' {} :: (packetCalls Sample.packets ++ [.close { received := some 2 } {}])

theorem readers_agree_two : ∃ segment blocks, (Sample.writer 300).Leaves segment 5 ∧
    blocks.flatten = segment ∧ CutAt segment blocks 200 := by
  have hrun : ((Sample.writer 300).attempt Sample.calls).1.isOk = true ∧
      ((Sample.writer 300).attempt Sample.calls).2.blocks = 5 ∧
      (((Sample.writer 300).attempt Sample.calls).2.files "0.pcapng").isSome = true := by
    decide +kernel
  rcases h : (Sample.writer 300).attempt Sample.calls with ⟨result, w'⟩
  rw [h] at hrun
  obtain ⟨hok, hblocks, hfile⟩ := hrun
  obtain ⟨_, rfl⟩ := exists_of_isOk hok
  obtain ⟨segment, hsegment⟩ := Option.isSome_iff_exists.mp hfile
  have hleaves : (Sample.writer 300).Leaves segment 5 :=
    .closed (by simp [packetCalls, Sample.packets, Call.Writes]) h hsegment hblocks
  obtain ⟨-, ⟨blocks, hflatten, -, hcut⟩, -⟩ := readers_agree hleaves (by decide) (by decide)
  exact ⟨segment, blocks, hleaves, hflatten, hcut 200⟩

end Graphlab.Capture
