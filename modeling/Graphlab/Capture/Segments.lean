import Graphlab.Capture.RoundTrip

/-!
# Segments after failed writes

A caller of the writer may go on after an exception; the capture worker closes the segment
in its error handler.  `close` does not look at what `open` and `packet` have left.  When a
write has left a part of a block, or `open` has not written the interface description,
`close` appends its statistics all the same and publishes a file that the decoder rejects.

`Writer.Intact` is what `close` would have to ask for.  When it is called on intact
segments only, every published segment is sound (`segments_sound`), whatever fails.

## Main results

* `Inv`, `Inv.call` — what holds between two calls, and that a call keeps it.
* `segments_sound` — published segments are sound, and the budget is kept.
* `torn_segment` — a torn block and a missing interface description that are published.
-/

namespace Graphlab.Capture

open Lib Packets

/-! ## The open file -/

/-- The file has the header blocks and then `es`, among them `k` packets. -/
structure Begun (w : Writer) (k : ℕ) (description : Bytes) (es : List Entry) : Prop where
  described : interfaceBody w.config = .ok description
  content : w.content = file description es
  fits : ∀ e ∈ es, e.Fits w.config.snaplen
  packets : (Entry.packets es).length = k
  blocks : w.blocks = es.length + 2

/-- The file has whole blocks, but no interface description. -/
def Lacks (w : Writer) : Prop :=
  ∃ es, w.content = Entry.frames es ∨ w.content = frame 0x0a0d0d0a sectionBody ++ Entry.frames es

/-- What is known of an open file with `k` packets: if it is as long as it is recorded to
be, it has whole blocks. -/
structure Tracks (w : Writer) (k : ℕ) : Prop where
  bytes : w.bytes ≤ w.content.length
  whole : w.bytes = w.content.length → (∃ description es, Begun w k description es) ∨ Lacks w

/-- The segment may be closed: the file is as long as it is recorded to be, and begins
with both header blocks. -/
def Writer.Intact (w : Writer) : Prop :=
  w.bytes = w.content.length ∧
  ∃ description, interfaceBody w.config = .ok description ∧ preamble description <+: w.content

instance Writer.decidableIntact (w : Writer) : Decidable w.Intact :=
  match h : interfaceBody w.config with
  | .ok d =>
    decidable_of_iff (w.bytes = w.content.length ∧ preamble d <+: w.content)
      ⟨fun hw => ⟨hw.1, d, h, hw.2⟩, fun hw => ⟨hw.1, by
        obtain ⟨_, hd', hprefix⟩ := hw.2
        rw [h] at hd'
        exact Except.ok.inj hd' ▸ hprefix⟩⟩
  | .error e => isFalse fun hw => by
      obtain ⟨_, hd, -⟩ := hw.2
      rw [h] at hd
      cases hd

/-- The first byte of a block after the header blocks. -/
theorem Entry.head_frames (es : List Entry) :
    (Entry.frames es).head? = none ∨ (Entry.frames es).head? = some 5 ∨
      (Entry.frames es).head? = some 6 := by
  cases es with
  | nil => exact .inl rfl
  | cons e es =>
    cases e with
    | packet => exact .inr (.inr rfl)
    | statistics => exact .inr (.inl rfl)

/-- A file without an interface description does not begin with the header blocks. -/
theorem Lacks.not_preamble {w : Writer} (h : Lacks w) (description : Bytes) :
    ¬ preamble description <+: w.content := by
  rintro ⟨rest, hrest⟩
  obtain ⟨es, hcontent | hcontent⟩ := h
  · have hhead := congrArg List.head? (hrest.trans hcontent)
    have hten : (preamble description ++ rest).head? = some 10 := rfl
    rw [hten] at hhead
    rcases Entry.head_frames es with h | h | h <;> rw [h] at hhead <;> simp at hhead
  · rw [hcontent, preamble, List.append_assoc] at hrest
    have hhead := congrArg List.head? (List.append_cancel_left hrest)
    have hone : (frame 1 description ++ rest).head? = some 1 := rfl
    rw [hone] at hhead
    rcases Entry.head_frames es with h | h | h <;> rw [h] at hhead <;> simp at hhead

variable {k : ℕ}

theorem Tracks.begun {w : Writer} (h : Tracks w k) (hintact : w.Intact) :
    ∃ description es, Begun w k description es := by
  obtain ⟨hbytes, description, -, hpreamble⟩ := hintact
  exact (h.whole hbytes).resolve_right fun hlacks => hlacks.not_preamble description hpreamble

/-- A part of a block that is no block is left in the file. -/
theorem Tracks.append {w : Writer} (h : Tracks w k) (part : Bytes) : Tracks (w.append part) k := by
  have hcontent := w.content_append part
  refine ⟨?_, fun heq => ?_⟩
  · rw [hcontent, List.length_append]
    exact h.bytes.trans (Nat.le_add_right ..)
  · have hlength : w.bytes = w.content.length + part.length := by
      rw [← List.length_append, ← hcontent]
      exact heq
    have hbytes := h.bytes
    obtain rfl : part = [] := List.length_eq_zero_iff.1 (by omega)
    rw [List.append_nil] at hcontent
    refine (h.whole (by simpa using hlength)).imp ?_ ?_
    · rintro ⟨description, es, hb⟩
      exact ⟨description, es, hb.described, hcontent.trans hb.content, hb.fits, hb.packets,
        hb.blocks⟩
    · rintro ⟨es, hes⟩
      exact ⟨es, hes.imp hcontent.trans hcontent.trans⟩

/-- One more block after the header blocks. -/
theorem Begun.wrote {w : Writer} {description : Bytes} {es : List Entry}
    (h : Begun w k description es) {e : Entry} (he : e.Fits w.config.snaplen) :
    Begun (w.wrote e.frame) (k + (Entry.packets [e]).length) description (es ++ [e]) := by
  refine ⟨h.described, ?_, fun x hx => ?_, ?_, ?_⟩
  · rw [Writer.content_wrote, h.content, file, file, List.append_assoc]
    simp [Entry.frames]
  · rcases List.mem_append.1 hx with hx | hx
    · exact h.fits x hx
    · rw [List.mem_singleton.1 hx]
      exact he
  · rw [Entry.packets, List.filterMap_append, List.length_append, ← Entry.packets, h.packets]
    rfl
  · show w.blocks + 1 = _
    rw [h.blocks, List.length_append, List.length_singleton]

/-- The decoder accepts a file of whole blocks. -/
theorem Begun.sound {w : Writer} {description : Bytes} {es : List Entry}
    (h : Begun w k description es) (hsnaplen : 0 < w.config.snaplen ∧ w.config.snaplen ≤ 65535)
    (hblocks : w.blocks ≤ 1000000) (context : Context) {limit : ℕ} (hlimit : limit ≤ 2000) :
    ∃ decoded, decode w.content context limit = .ok decoded ∧
      decoded.packetCount = toString k := by
  have hnamed := Config.named_of_interfaceBody h.described
  refine ⟨_, h.content ▸ decode_file hnamed hsnaplen h.described h.fits (h.blocks ▸ hblocks) context
    hlimit, ?_⟩
  dsimp only
  rw [h.packets]

/-- A block after the header blocks. -/
theorem Tracks.wrote {w : Writer} (h : Tracks w k) {e : Entry} (he : e.Fits w.config.snaplen) :
    Tracks (w.wrote e.frame) (k + (Entry.packets [e]).length) := by
  have hcontent := w.content_wrote e.frame
  refine ⟨?_, fun heq => ?_⟩
  · rw [hcontent, List.length_append]
    exact Nat.add_le_add_right h.bytes _
  · have hlength : w.bytes = w.content.length := by
      rw [hcontent, List.length_append] at heq
      exact Nat.add_right_cancel heq
    have hframes : ∀ es : List Entry, Entry.frames es ++ e.frame = Entry.frames (es ++ [e]) := by
      intro es
      simp [Entry.frames]
    refine (h.whole hlength).imp ?_ ?_
    · rintro ⟨description, es, hb⟩
      exact ⟨description, es ++ [e], hb.wrote he⟩
    · rintro ⟨es, hes | hes⟩
      · exact ⟨es ++ [e], .inl (by rw [hcontent, hes, hframes])⟩
      · exact ⟨es ++ [e], .inr (by rw [hcontent, hes, List.append_assoc, hframes])⟩

/-! ## The invariant -/

/-- The entry names a published file, with its size, which the decoder accepts. -/
def Sound (files : String → Option Bytes) (segment : Segment) : Prop :=
  ∃ bytes, files segment.file = some bytes ∧ segment.size = toString bytes.length ∧
    ∀ context limit, limit ≤ 2000 →
      ∃ decoded, decode bytes context limit = .ok decoded ∧ decoded.packetCount = segment.packets

/-- What holds between two calls. -/
structure Inv (w : Writer) : Prop where
  snaplen : 0 < w.config.snaplen ∧ w.config.snaplen ≤ 65535
  tracks : w.fd = true → Tracks w w.packets
  sound : ∀ segment ∈ w.segments, Sound w.files segment
  named : ∀ segment ∈ w.segments, ∃ v : Writer, segment.file = v.closedName
  sizes : ∃ sizes : List ℕ, w.segments.map Segment.size = sizes.map toString ∧ sizes.sum = w.total
  budget : w.total + w.bytes ≤ w.config.byteBudget

namespace Inv

variable {w : Writer}

/-- The files of a directory change, but not the published ones. -/
theorem sound_of {segments : List Segment} {files files' : String → Option Bytes}
    (h : ∀ segment ∈ segments, Sound files segment)
    (hfiles : ∀ segment ∈ segments, ∀ bytes, files segment.file = some bytes →
      files' segment.file = some bytes) : ∀ segment ∈ segments, Sound files' segment := by
  intro segment hmem
  obtain ⟨bytes, hbytes, hrest⟩ := h segment hmem
  exact ⟨bytes, hfiles segment hmem bytes hbytes, hrest⟩

/-- The published files are not the partial one. -/
theorem sound_update (h : Inv w) (bytes : Option Bytes) :
    ∀ segment ∈ w.segments, Sound (Function.update w.files w.partialName bytes) segment := by
  refine sound_of h.sound fun segment hmem content hcontent => ?_
  obtain ⟨v, hv⟩ := h.named segment hmem
  rw [hv] at hcontent ⊢
  rw [Function.update_of_ne (w.partialName_ne v).symm]
  exact hcontent

/-- A part of a block. -/
theorem append (h : Inv w) (hfd : w.fd = true) (part : Bytes) : Inv (w.append part) :=
  ⟨h.snaplen, fun _ => (h.tracks hfd).append part, h.sound_update _, h.named, h.sizes, h.budget⟩

/-- A block of a kind that is not a packet. -/
theorem wrote (h : Inv w) {b : Bytes}
    (hbudget : w.total + w.bytes + b.length ≤ w.config.byteBudget)
    (htracks : Tracks (w.wrote b) w.packets) : Inv (w.wrote b) :=
  ⟨h.snaplen, fun _ => htracks, h.sound_update _, h.named, h.sizes, by
    show w.total + (w.bytes + b.length) ≤ _
    rw [← Nat.add_assoc]
    exact hbudget⟩

/-- `open`. -/
theorem open' (h : Inv w) (o : Opening) : Inv (w.open' o).2 := by
  unfold Writer.open'
  split
  · exact h
  split
  · exact h
  have hcontent := w.content_created
  have hcreated : Inv w.created := by
    refine ⟨h.snaplen, fun _ => ⟨Nat.zero_le _, fun _ => .inr ⟨[], .inl hcontent⟩⟩, h.sound_update _, h.named,
      h.sizes, ?_⟩
    exact (Nat.le_add_right _ _).trans h.budget
  unfold Writer.openBlocks
  rcases w.created.block_cases 0x0a0d0d0a sectionBody o.header with ⟨e, hb⟩ | ⟨-, hbudget, ⟨e, part,
    -, -, hb⟩ | hb⟩
  · rw [hb]
    exact hcreated
  · rw [hb]
    exact hcreated.append rfl part
  rw [hb]
  dsimp only
  have hsection : Inv (w.created.wrote (frame 0x0a0d0d0a sectionBody)) := by
    refine hcreated.wrote hbudget ⟨?_, fun _ => .inr ⟨[], .inr ?_⟩⟩
    · rw [Writer.content_wrote, hcontent]
      exact (Nat.zero_add _).le
    · rw [Writer.content_wrote, hcontent, List.nil_append]
      exact (List.append_nil _).symm
  split
  · exact hsection
  next description hdescription =>
  rcases (w.created.wrote (frame 0x0a0d0d0a sectionBody)).block_cases 1 description
    o.description with ⟨e, hb⟩ | ⟨-, hbudget, ⟨e, part, -, -, hb⟩ | hb⟩
  · rw [hb]
    exact hsection
  · rw [hb]
    exact hsection.append rfl part
  rw [hb]
  dsimp only
  have hopened : Inv ((w.created.wrote (frame 0x0a0d0d0a sectionBody)).wrote
      (frame 1 description)) := by
    have hfile := w.content_opened description
    refine hsection.wrote hbudget ⟨?_, fun _ => .inl ⟨description, [], hdescription, hfile, by simp,
      rfl, rfl⟩⟩
    rw [hfile]
    show 0 + (frame 0x0a0d0d0a sectionBody).length + (frame 1 description).length ≤ _
    rw [Nat.zero_add, file, preamble, List.append_assoc, List.length_append, List.length_append]
    omega
  rwa [Writer.sync_snd]

/-- `packet`. -/
theorem packet (h : Inv w) {q : Packet} (hmicros : q.micros < 2 ^ 64) (horiginal : q.original < 2 ^ 32)
    (writes : List Wrote) : Inv (w.packet q.micros q.bytes q.original writes).2 := by
  unfold Writer.packet
  split
  · exact h
  next hlengths =>
  simp only [Bool.or_eq_true, decide_eq_true_eq, not_or, Nat.not_lt] at hlengths
  have hq : q.Fits w.config.snaplen := ⟨hmicros, hlengths.1, hlengths.2, horiginal⟩
  rcases w.block_cases 6 (packetBody q.micros q.bytes q.original) writes with ⟨e, hb⟩ | ⟨hfd,
    hbudget, ⟨e, part, -, -, hb⟩ | hb⟩
  · rw [hb]
    exact h
  · rw [hb]
    exact h.append hfd part
  · rw [hb]
    have htracks : Tracks (w.wrote q.frame) (w.packets + 1) := (h.tracks hfd).wrote (e := .packet q) hq
    exact ⟨h.snaplen, fun _ => ⟨htracks.bytes, fun heq => (htracks.whole heq).imp
      (fun hb => hb.imp fun _ hb => hb.imp fun _ hb => ⟨hb.1, hb.2, hb.3, hb.4, hb.5⟩) id⟩,
      h.sound_update _, h.named, h.sizes, by
        show w.total + (w.bytes + _) ≤ _
        rw [← Nat.add_assoc]
        exact hbudget⟩

/-- `close` after the file was closed. -/
theorem publish (h : Inv w) (hfd : w.fd = false) (hbytes : w.bytes = w.content.length)
    (hdecode : ∀ context limit, limit ≤ 2000 → ∃ decoded,
      decode w.content context limit = .ok decoded ∧ decoded.packetCount = toString w.packets)
    (stats : Statistics) (out : Closing) : Inv (w.publish stats out).2 := by
  have hshut : ∀ {v : Writer} {p : Prop}, v.fd = w.fd → v.fd = true → p := by
    intro v p hv hopen
    rw [hv, hfd] at hopen
    cases hopen
  unfold Writer.publish
  split
  · exact h
  next hnew =>
  simp only [Bool.or_eq_true, not_or, Bool.not_eq_true, Option.isSome_eq_false_iff,
    Option.isNone_iff_eq_none] at hnew
  -- Nothing was published under the name.
  have hkept : ∀ segment ∈ w.segments, Sound w.linked.files segment := by
    refine sound_of h.sound fun segment _ bytes hfile => ?_
    have hne : segment.file ≠ w.closedName := by
      intro heq
      rw [heq, hnew.1] at hfile
      cases hfile
    exact (Function.update_of_ne hne ..).trans hfile
  have hlinked : Inv w.linked := ⟨h.snaplen, hshut rfl, hkept, h.named, h.sizes, h.budget⟩
  split
  · exact hlinked
  have hunlinked : Inv w.linked.unlinked :=
    ⟨h.snaplen, hshut rfl, hlinked.sound_update none, h.named, h.sizes, h.budget⟩
  split
  · exact hunlinked
  split
  · exact ⟨h.snaplen, hshut rfl, hunlinked.sound, h.named, h.sizes, h.budget⟩
  next hash _ =>
  refine ⟨h.snaplen, hshut rfl, fun segment hmem => ?_, fun segment hmem => ?_, ?_, ?_⟩
  · rcases List.mem_append.1 hmem with hmem | hmem
    · exact hunlinked.sound segment hmem
    · rw [List.mem_singleton.1 hmem]
      exact ⟨w.content, w.files_unlinked, congrArg toString hbytes, hdecode⟩
  · rcases List.mem_append.1 hmem with hmem | hmem
    · exact h.named segment hmem
    · exact ⟨w, by rw [List.mem_singleton.1 hmem]; rfl⟩
  · obtain ⟨sizes, hsizes, hsum⟩ := h.sizes
    refine ⟨sizes ++ [w.bytes], ?_, ?_⟩
    · show (w.segments ++ [_]).map Segment.size = _
      rw [List.map_append, List.map_append, hsizes]
      rfl
    · rw [List.sum_append, List.sum_singleton, hsum]
      rfl
  · exact h.budget

/-- `close`. -/
theorem close (h : Inv w)
    (hintact : w.fd = true → w.Intact ∧ w.blocks + 1 < 1000000) (stats : Statistics)
    (out : Closing) : Inv (w.close stats out).2 := by
  unfold Writer.close
  split
  · exact h
  next hopen =>
  have hfd : w.fd = true := by simpa using hopen
  rcases w.block_cases 5 (statisticsBody out.now stats) out.writes with ⟨e, hb⟩ | ⟨-, hbudget,
    ⟨e, part, -, -, hb⟩ | hb⟩
  · rw [hb]
    exact h
  · rw [hb]
    exact h.append hfd part
  rw [hb]
  dsimp only
  obtain ⟨hwhole, _⟩ := hintact hfd
  obtain ⟨_, _, hbegun⟩ := (h.tracks hfd).begun hwhole
  have hend := hbegun.wrote (e := .statistics out.now stats) trivial
  have htracks : Tracks (w.wrote (frame 5 (statisticsBody out.now stats))) w.packets :=
    (h.tracks hfd).wrote (e := .statistics out.now stats) trivial
  have hwrote : Inv (w.wrote (frame 5 (statisticsBody out.now stats))) := h.wrote hbudget htracks
  rcases Writer.sync_cases (w.wrote (frame 5 (statisticsBody out.now stats))) out.synced with
    hs | hs
  · rw [hs]
    exact hwrote
  rw [hs]
  dsimp only
  have hshut : Inv { w.wrote (frame 5 (statisticsBody out.now stats)) with fd := false } :=
    ⟨h.snaplen, fun hopen => absurd hopen Bool.false_ne_true, hwrote.sound, hwrote.named, hwrote.sizes,
      hwrote.budget⟩
  refine hshut.publish rfl ?_ ?_ stats out
  · show w.bytes + (frame 5 (statisticsBody out.now stats)).length =
      (w.wrote (frame 5 (statisticsBody out.now stats))).content.length
    rw [Writer.content_wrote, List.length_append, hwhole.1]
  · exact fun context limit hlimit => hend.sound h.snaplen (by show w.blocks + 1 ≤ _; omega) context
      hlimit

end Inv

/-! ## Runs -/

/-- The arguments of a call fit their types, and a segment is closed when it is intact and
has fewer than 1,000,000 blocks with its last. -/
def Writer.Permits (w : Writer) : Call → Prop
  | .packet micros _ original _ => micros < 2 ^ 64 ∧ original < 2 ^ 32
  | .close _ _ => w.fd = true → w.Intact ∧ w.blocks + 1 < 1000000
  | _ => True

/-- Every call of a run is permitted where it comes. -/
def Writer.PermitsAll (w : Writer) : List Call → Prop
  | [] => True
  | c :: cs => w.Permits c ∧ (w.call c).2.PermitsAll cs

instance Writer.decidablePermits (w : Writer) : (c : Call) → Decidable (w.Permits c)
  | .open' _ => isTrue trivial
  | .packet .. => inferInstanceAs (Decidable (_ ∧ _))
  | .sync _ => isTrue trivial
  | .close .. => inferInstanceAs (Decidable (_ → _))

instance Writer.decidablePermitsAll (w : Writer) : (cs : List Call) → Decidable (w.PermitsAll cs)
  | [] => isTrue trivial
  | c :: cs =>
    have := decidablePermitsAll (w.call c).2 cs
    inferInstanceAs (Decidable (_ ∧ _))

/-- **One call.** -/
theorem Inv.call {w : Writer} (h : Inv w) {c : Call} (hc : w.Permits c) : Inv (w.call c).2 := by
  cases c with
  | open' out => exact h.open' out
  | packet micros bytes original writes =>
    exact h.packet (q := ⟨micros, bytes, original⟩) hc.1 hc.2 writes
  | sync synced =>
    show Inv (w.sync synced).2
    rwa [Writer.sync_snd]
  | close stats out => exact h.close hc stats out

theorem Inv.run {w : Writer} (h : Inv w) {cs : List Call} (hcs : w.PermitsAll cs) :
    Inv (w.run cs) := by
  induction cs generalizing w with
  | nil => exact h
  | cons c cs ih => exact ih (h.call hcs.1) hcs.2

/-- A writer as it is constructed. -/
def Writer.new (config : Config) (files : String → Option Bytes) : Writer := { config, files }

/-- **Segments.**  Whatever writes fail, are short or are refused: if a segment is closed
only when it is intact, every recorded segment is a published file of the recorded size
that the decoder accepts with the recorded count, and the recorded bytes with those of the
open segment are within the budget. -/
theorem segments_sound {config : Config} {files : String → Option Bytes} {cs : List Call}
    (hsnaplen : 0 < config.snaplen ∧ config.snaplen ≤ 65535)
    (hcs : (Writer.new config files).PermitsAll cs) :
    (∀ segment ∈ ((Writer.new config files).run cs).segments,
      Sound ((Writer.new config files).run cs).files segment) ∧
    ∃ sizes : List ℕ,
      ((Writer.new config files).run cs).segments.map Segment.size = sizes.map toString ∧
      sizes.sum + ((Writer.new config files).run cs).bytes ≤
        ((Writer.new config files).run cs).config.byteBudget := by
  have hnew : Inv (Writer.new config files) :=
    ⟨hsnaplen, fun hopen => absurd hopen Bool.false_ne_true, by simp [Writer.new],
      by simp [Writer.new], ⟨[], rfl, rfl⟩, Nat.zero_le _⟩
  have hrun := hnew.run hcs
  obtain ⟨sizes, hsizes, hsum⟩ := hrun.sizes
  exact ⟨hrun.sound, sizes, hsizes, hsum ▸ hrun.budget⟩

namespace Sample

/-- A run in an empty directory. -/
def after (byteBudget : ℕ) (cs : List Call) : Writer :=
  (Writer.new (writer byteBudget).config fun _ => none).run cs

/-- The second packet is refused for the budget; the segment is closed all the same. -/
def refused : List Call :=
  [.open' {}, .packet 7 [1, 2, 3] 3 [.bytes 4, .interrupted], .packet 8 [1, 2, 3, 4] 60 [],
    .close {} {}]

/-- The write of a packet fails after five bytes; the error handler closes the segment. -/
def torn : List Call :=
  [.open' {}, .packet 7 [1, 2, 3] 3 [.bytes 4, .failed], .close {} {}]

/-- The published file: its length, and what the decoder makes of it. -/
def published (w : Writer) : Option (ℕ × Option Decoded) :=
  (w.files "0.pcapng").map fun b => (b.length, (decode b {} 2000).toOption)

end Sample

theorem segments_sound_refused :
    (Sample.after 190 Sample.refused).segments.map (fun s => (s.size, s.packets)) =
      [("184", "1")] ∧
    ∀ segment ∈ (Sample.after 190 Sample.refused).segments,
      Sound (Sample.after 190 Sample.refused).files segment :=
  ⟨by decide +kernel, (segments_sound (by decide) (by decide +kernel)).1⟩

/-- A torn block is published with a size that is not that of the file, and a segment whose
interface description did not fit the budget is published without it; the decoder rejects
both. -/
theorem torn_segment :
    (Sample.after 300 Sample.torn).segments.map (fun s => (s.file, s.size)) =
      [("0.pcapng", "148")] ∧
    Sample.published (Sample.after 300 Sample.torn) = some (153, none) ∧
    (Sample.after 60 [.open' {}, .close {} {}]).segments.map (fun s => (s.file, s.size)) =
      [("0.pcapng", "56")] ∧
    Sample.published (Sample.after 60 [.open' {}, .close {} {}]) = some (56, none) := by
  decide +kernel

end Graphlab.Capture
