import Graphlab.Contracts.Events

/-!
# What the decoder accepts

The decoder goes through a document with a stack, event by event.  Over the events of a node it does
what a recursion over the node would do: it fails, or it puts the node's value where it belongs and
leaves the rest of the stack as it was.  It fails unless the node is clean and within the limits.

## Main results

* `run_events` — the decoder over a node.
* `document_round_trip` — JSON texts are read as the values they are of, and only clean documents
  are accepted.
-/

namespace Graphlab.Contracts

open Lib

theorem Yaml.size_depth_of_keyText {k : Yaml} {text : String} (h : k.keyText = some text) :
    k.size = 1 ∧ k.depth = 0 := by
  cases k with
  | scalar => exact ⟨rfl, rfl⟩
  | _ => cases h

namespace Decoder

variable {d d' : Decoder} {es es' : List Event}

theorem run_append : d.run (es ++ es') = (d.run es >>= fun d => d.run es') := by
  induction es generalizing d with
  | nil => rfl
  | cons e es ih =>
    rw [List.cons_append, run, run]
    cases d.handle e with
    | error => rfl
    | ok => exact ih

@[simp] theorem run_singleton (e : Event) : d.run [e] = d.handle e := by
  rw [run]
  cases d.handle e <;> rfl

/-- Count some values. -/
def add (d : Decoder) (n : ℕ) : Decoder := { d with count := d.count + n }

/-- A value in its place, where no key is awaited. -/
def store (d : Decoder) (value : Json) : Decoder :=
  match d.stack with
  | [] => { d with root := value }
  | .array items :: rest => { d with stack := .array (items ++ [value]) :: rest }
  | .object fields (some key) :: rest =>
    { d with stack := .object (Json.setField key value fields) none :: rest }
  | .object _ none :: _ => d

theorem put_of_not_key (h : d.atKey = false) (value : Json) : d.put value = .ok (d.store value) := by
  obtain ⟨stack, _, _, _⟩ := d
  rcases stack with _ | ⟨_ | ⟨fields, _ | key⟩, rest⟩
  · rfl
  · rfl
  · cases h
  · rfl

/-- Open a collection. -/
def push (d : Decoder) (frame : Frame) : Decoder := { d with stack := frame :: d.stack }

@[simp] theorem atKey_add (n : ℕ) : (d.add n).atKey = d.atKey := rfl

@[simp] theorem add_add (m n : ℕ) : (d.add m).add n = d.add (m + n) := by
  simp only [add, Nat.add_assoc]

@[simp] theorem push_add (frame : Frame) (n : ℕ) : (d.push frame).add n = (d.add n).push frame := rfl

theorem check_eq_ok {tag : String} {anchor : ℕ} :
    d.check tag anchor = .ok d' ↔
      d.count + 1 ≤ maxValues ∧ plainTag tag = true ∧ anchor = 0 ∧ d' = d.add 1 := by
  unfold check
  split
  · simp only [reduceCtorEq, false_iff]
    omega
  · split
    · next h =>
        simp only [reduceCtorEq, false_iff]
        rintro ⟨-, htag, hanchor, -⟩
        rcases h with h | h
        · exact h hanchor
        · rw [htag] at h
          cases h
    · next h h' =>
        simp only [not_or, not_not, Bool.not_eq_false] at h'
        simp only [h', Except.ok.injEq, true_and]
        exact ⟨fun heq => ⟨by omega, heq.symm⟩, fun heq => heq.2.symm⟩

theorem beginCollection_eq_ok {frame : Frame} {tag : String} {anchor : ℕ} :
    d.beginCollection frame tag anchor = .ok d' ↔
      d.count + 1 ≤ maxValues ∧ plainTag tag = true ∧ anchor = 0 ∧ d.stack.length + 1 ≤ maxDepth ∧
        d.atKey = false ∧ d' = (d.add 1).push frame := by
  rw [beginCollection, bind_eq_ok]
  simp only [check_eq_ok]
  constructor
  · rintro ⟨_, ⟨hcount, htag, hanchor, rfl⟩, h⟩
    split at h
    · cases h
    · next hdepth =>
        split at h
        · cases h
        · next hkey =>
            cases h
            refine ⟨hcount, htag, hanchor, Nat.lt_of_not_le hdepth, ?_, rfl⟩
            simpa using hkey
  · rintro ⟨hcount, htag, hanchor, hdepth, hkey, rfl⟩
    refine ⟨_, ⟨hcount, htag, hanchor, rfl⟩, ?_⟩
    rw [if_neg (by exact Nat.not_le.mpr hdepth), atKey_add, hkey]
    rfl

/-- Only scalars are keys. -/
theorem run_key {fields : List (String × Json)} (k : Yaml) :
    (d.push (.object fields none)).run k.events = .ok d' ↔
      ∃ text, k.keyText = some text ∧ k.Clean ∧ text ≠ "<<" ∧ text ∉ fields.map Prod.fst ∧
        d.count + 1 ≤ maxValues ∧ d' = (d.add 1).push (.object fields (some text)) := by
  have hkey : (d.push (.object fields none)).atKey = true := rfl
  cases k with
  | null =>
    rw [Yaml.events, run_singleton, handle, bind_eq_ok]
    simp only [check_eq_ok, Yaml.keyText, reduceCtorEq, false_and, exists_false, iff_false]
    rintro ⟨_, ⟨-, -, -, rfl⟩, h⟩
    cases h
  | reference => simp [Yaml.events, handle, Yaml.keyText]
  | anchored => simp [Yaml.events, run, handle, Yaml.keyText]
  | scalar tag anchor text =>
    have hput : ((d.add 1).push (.object fields none)).put (.string text) = .ok d' ↔
        text ≠ "<<" ∧ text ∉ fields.map Prod.fst ∧
          d' = (d.add 1).push (.object fields (some text)) := by
      simp only [put, push]
      split
      · next h => simp [h]
      · next h =>
          split
          · next h' => simp [h']
          · next h' => simp [h, h', eq_comm]
    rw [Yaml.events, run_singleton, handle, bind_eq_ok]
    simp only [check_eq_ok, Yaml.keyText, Option.some.injEq, exists_eq_left', Yaml.Clean]
    constructor
    · rintro ⟨_, ⟨hcount, htag, hanchor, rfl⟩, h⟩
      obtain ⟨hmerge, hnew, rfl⟩ := hput.mp h
      exact ⟨⟨htag, hanchor⟩, hmerge, hnew, hcount, rfl⟩
    · rintro ⟨⟨htag, hanchor⟩, hmerge, hnew, hcount, rfl⟩
      exact ⟨_, ⟨hcount, htag, hanchor, rfl⟩, hput.mpr ⟨hmerge, hnew, rfl⟩⟩
  | seq =>
    rw [Yaml.events, run, handle, bind_eq_ok]
    simp only [beginCollection_eq_ok, hkey, Yaml.keyText, reduceCtorEq, false_and, and_false,
      exists_false]
  | map =>
    rw [Yaml.events, run, handle, bind_eq_ok]
    simp only [beginCollection_eq_ok, hkey, Yaml.keyText, reduceCtorEq, false_and, and_false,
      exists_false]

/-- The end of a collection puts it where it belongs. -/
theorem endCollection_push (frame : Frame) (hkey : d.atKey = false) :
    (d.push frame).endCollection = .ok (d.store frame.value) :=
  put_of_not_key hkey _

/-- A collection, by what is known of the events within it. -/
theorem run_collection {e close : Event} (frame frame' : Frame) {tag : String} {anchor : ℕ}
    {clean : Prop} {size depth : ℕ} (hkey : d.atKey = false)
    (hbegin : d.handle e = d.beginCollection frame tag anchor)
    (hclose : ∀ d : Decoder, d.handle close = d.endCollection)
    (hinner : d.count + 1 ≤ maxValues → d.stack.length + 1 ≤ maxDepth → ∀ d',
      ((d.add 1).push frame).run es = .ok d' ↔ clean ∧ d.count + 1 + size ≤ maxValues ∧
        d.stack.length + 1 + depth ≤ maxDepth ∧ d' = (d.add (1 + size)).push frame') :
    d.run (e :: (es ++ [close])) = .ok d' ↔ (plainTag tag = true ∧ anchor = 0 ∧ clean) ∧
      d.count + (1 + size) ≤ maxValues ∧ d.stack.length + (1 + depth) ≤ maxDepth ∧
      d' = (d.add (1 + size)).store frame'.value := by
  have hend : ∀ frame, ((d.add (1 + size)).push frame).run [close] =
      .ok ((d.add (1 + size)).store frame.value) := by
    intro frame
    rw [run_singleton, hclose]
    exact endCollection_push (d := d.add (1 + size)) frame hkey
  rw [run, hbegin, bind_eq_ok]
  simp only [beginCollection_eq_ok, hkey, true_and]
  constructor
  · rintro ⟨_, ⟨hcount, htag, hanchor, hdeep, rfl⟩, h⟩
    rw [run_append] at h
    obtain ⟨_, hes, h⟩ := bind_eq_ok.mp h
    obtain ⟨hclean, hsize, hnested, rfl⟩ := (hinner hcount hdeep _).mp hes
    rw [hend] at h
    exact ⟨⟨htag, hanchor, hclean⟩, by omega, by omega, (Except.ok.inj h).symm⟩
  · rintro ⟨⟨htag, hanchor, hclean⟩, hsize, hnested, rfl⟩
    have hcount : d.count + 1 ≤ maxValues := by omega
    have hdeep : d.stack.length + 1 ≤ maxDepth := by omega
    refine ⟨_, ⟨hcount, htag, hanchor, hdeep, rfl⟩, ?_⟩
    rw [run_append]
    exact bind_eq_ok.mpr ⟨_, (hinner hcount hdeep _).mpr ⟨hclean, by omega, by omega, rfl⟩, hend _⟩

theorem setAll_object (fields us : List (String × Json)) :
    (Json.object fields).setAll us =
      .object (us.foldl (fun fs u => Json.setField u.1 u.2 fs) fields) := by
  induction us generalizing fields with
  | nil => rfl
  | cons u us ih => exact ih _

mutual

/-- The decoder over a node. -/
theorem run_events (n : Yaml) {d d' : Decoder} (hkey : d.atKey = false)
    (hdepth : d.stack.length ≤ maxDepth) :
    d.run n.events = .ok d' ↔ n.Clean ∧ d.count + n.size ≤ maxValues ∧
      d.stack.length + n.depth ≤ maxDepth ∧ d' = (d.add n.size).store n.value := by
  cases n with
  | null =>
    have hput : (d.add 1).put .null = .ok ((d.add 1).store .null) :=
      put_of_not_key (d := d.add 1) hkey _
    rw [Yaml.events, run_singleton, handle, bind_eq_ok]
    simp only [check_eq_ok, Yaml.Clean, Yaml.size, Yaml.depth, Yaml.value, Nat.add_zero, hdepth,
      true_and]
    constructor
    · rintro ⟨_, ⟨hcount, -, hanchor, rfl⟩, h⟩
      rw [hput] at h
      exact ⟨hanchor, hcount, (Except.ok.inj h).symm⟩
    · rintro ⟨hanchor, hcount, rfl⟩
      exact ⟨_, ⟨hcount, rfl, hanchor, rfl⟩, hput⟩
  | reference => simp [Yaml.events, handle, Yaml.Clean]
  | anchored => simp [Yaml.events, run, handle, Yaml.Clean]
  | scalar tag anchor text =>
    have hput : (if (d.add 1).atKey then (d.add 1).put (.string text)
        else (d.add 1).put (scalarValue tag text)) =
        .ok ((d.add 1).store (scalarValue tag text)) := by
      rw [atKey_add, hkey, if_neg Bool.false_ne_true]
      exact put_of_not_key (d := d.add 1) hkey _
    rw [Yaml.events, run_singleton, handle, bind_eq_ok]
    simp only [check_eq_ok, Yaml.Clean, Yaml.size, Yaml.depth, Yaml.value, Nat.add_zero, hdepth,
      true_and]
    constructor
    · rintro ⟨_, ⟨hcount, htag, hanchor, rfl⟩, h⟩
      rw [hput] at h
      exact ⟨⟨htag, hanchor⟩, hcount, (Except.ok.inj h).symm⟩
    · rintro ⟨⟨htag, hanchor⟩, hcount, rfl⟩
      exact ⟨_, ⟨hcount, htag, hanchor, rfl⟩, hput⟩
  | seq tag anchor items =>
    rw [Yaml.events, Yaml.Clean, Yaml.size, Yaml.depth, Yaml.value]
    refine run_collection (.array []) (.array (Yaml.itemsValue items)) hkey rfl
      (fun _ => rfl) fun hcount hdeep d' => ?_
    rw [run_items items (d := d.add 1) hcount hdeep, List.nil_append, add_add]
    rfl
  | map tag anchor entries =>
    rw [Yaml.events, Yaml.Clean, Yaml.size, Yaml.depth, Yaml.value, setAll_object]
    refine run_collection (.object [] none) (.object _ none) hkey rfl
      (fun _ => rfl) fun hcount hdeep d' => ?_
    rw [run_entries entries (d := d.add 1) hcount hdeep, add_add]
    simp only [List.map_nil, List.not_mem_nil, not_false_eq_true, implies_true, true_and, and_assoc]
    rfl

theorem run_items (ns : List Yaml) {d d' : Decoder} {items : List Json}
    (hcount : d.count ≤ maxValues) (hdepth : d.stack.length + 1 ≤ maxDepth) :
    (d.push (.array items)).run (Yaml.itemsEvents ns) = .ok d' ↔ Yaml.ItemsClean ns ∧
      d.count + Yaml.itemsSize ns ≤ maxValues ∧
      d.stack.length + 1 + Yaml.itemsDepth ns ≤ maxDepth ∧
      d' = (d.add (Yaml.itemsSize ns)).push (.array (items ++ Yaml.itemsValue ns)) := by
  cases ns with
  | nil =>
    simp only [Yaml.itemsEvents, run, Yaml.ItemsClean, Yaml.itemsSize, Yaml.itemsDepth,
      Yaml.itemsValue, Nat.add_zero, hcount, hdepth, true_and, List.append_nil, Except.ok.injEq]
    exact eq_comm
  | cons n ns =>
    rw [Yaml.itemsEvents, run_append, bind_eq_ok, Yaml.ItemsClean, Yaml.itemsSize,
      Yaml.itemsDepth, Yaml.itemsValue]
    have hn : ∀ d₁, (d.push (.array items)).run n.events = .ok d₁ ↔ n.Clean ∧
        d.count + n.size ≤ maxValues ∧ d.stack.length + 1 + n.depth ≤ maxDepth ∧
        d₁ = (d.add n.size).push (.array (items ++ [n.value])) :=
      fun _ => run_events n (d := d.push (.array items)) rfl hdepth
    have hns : d.count + n.size ≤ maxValues →
        (((d.add n.size).push (.array (items ++ [n.value]))).run (Yaml.itemsEvents ns) = .ok d' ↔
          Yaml.ItemsClean ns ∧ d.count + n.size + Yaml.itemsSize ns ≤ maxValues ∧
          d.stack.length + 1 + Yaml.itemsDepth ns ≤ maxDepth ∧
          d' = (d.add (n.size + Yaml.itemsSize ns)).push
            (.array (items ++ n.value :: Yaml.itemsValue ns))) := by
      intro hsize
      rw [run_items ns (d := d.add n.size) hsize hdepth, add_add, List.append_assoc]
      rfl
    constructor
    · rintro ⟨_, hrun, hrest⟩
      obtain ⟨hclean, hsize, hnested, rfl⟩ := (hn _).mp hrun
      obtain ⟨hclean', _, _, rfl⟩ := (hns hsize).mp hrest
      exact ⟨⟨hclean, hclean'⟩, by omega, by omega, rfl⟩
    · rintro ⟨⟨hclean, hclean'⟩, hsize, hnested, rfl⟩
      exact ⟨_, (hn _).mpr ⟨hclean, by omega, by omega, rfl⟩,
        (hns (by omega)).mpr ⟨hclean', by omega, by omega, rfl⟩⟩

theorem run_entries (es : List (Yaml × Yaml)) {d d' : Decoder} {fields : List (String × Json)}
    (hcount : d.count ≤ maxValues) (hdepth : d.stack.length + 1 ≤ maxDepth) :
    (d.push (.object fields none)).run (Yaml.entriesEvents es) = .ok d' ↔ 
      (∀ text ∈ Yaml.keyTexts es, text ∉ fields.map Prod.fst) ∧ Yaml.EntriesClean es ∧
      (Yaml.keyTexts es).Nodup ∧ d.count + Yaml.entriesSize es ≤ maxValues ∧
      d.stack.length + 1 + Yaml.entriesDepth es ≤ maxDepth ∧
      d' = (d.add (Yaml.entriesSize es)).push (.object
        ((Yaml.entriesValue es).foldl (fun fs u => Json.setField u.1 u.2 fs) fields) none) := by
  cases es with
  | nil =>
    simp only [Yaml.entriesEvents, run, Yaml.EntriesClean, Yaml.entriesSize, Yaml.entriesDepth,
      Yaml.entriesValue, Yaml.keyTexts, List.filterMap_nil, List.not_mem_nil, false_imp_iff,
      implies_true, List.nodup_nil, Nat.add_zero, hcount, hdepth, true_and, List.foldl_nil,
      Except.ok.injEq]
    exact eq_comm
  | cons e es =>
    obtain ⟨k, v⟩ := e
    rw [Yaml.entriesEvents, run_append, bind_eq_ok, Yaml.EntriesClean, Yaml.entriesSize,
      Yaml.entriesDepth, Yaml.entriesValue]
    cases htext : k.keyText with
    | none =>
      simp only [run_key, htext, reduceCtorEq, false_and, exists_false, ne_eq,
        not_true_eq_false, and_false]
    | some text =>
      obtain ⟨hone, hflat⟩ := Yaml.size_depth_of_keyText htext
      have hv : ∀ d₁, ((d.add 1).push (.object fields (some text))).run v.events = .ok d₁ ↔
          v.Clean ∧ d.count + 1 + v.size ≤ maxValues ∧
          d.stack.length + 1 + v.depth ≤ maxDepth ∧ d₁ = (d.add (1 + v.size)).push
            (.object (Json.setField text v.value fields) none) := by
        intro d₁
        rw [run_events v (d := (d.add 1).push _) rfl hdepth, push_add, add_add]
        rfl
      have hes : d.count + (1 + v.size) ≤ maxValues →
          (((d.add (1 + v.size)).push (.object (Json.setField text v.value fields) none)).run
            (Yaml.entriesEvents es) = .ok d' ↔
          (∀ t ∈ Yaml.keyTexts es, t ≠ text ∧ t ∉ fields.map Prod.fst) ∧
          Yaml.EntriesClean es ∧ (Yaml.keyTexts es).Nodup ∧
          d.count + (1 + v.size) + Yaml.entriesSize es ≤ maxValues ∧
          d.stack.length + 1 + Yaml.entriesDepth es ≤ maxDepth ∧
          d' = (d.add (1 + v.size + Yaml.entriesSize es)).push (.object
            ((Yaml.entriesValue es).foldl (fun fs u => Json.setField u.1 u.2 fs)
              (Json.setField text v.value fields)) none)) := by
        intro hsize
        rw [run_entries es (d := d.add (1 + v.size)) hsize hdepth, add_add]
        simp only [Json.mem_keys_setField, not_or, ne_eq]
        rfl
      have hkeys : Yaml.keyTexts ((k, v) :: es) = text :: Yaml.keyTexts es :=
        List.filterMap_cons_some htext
      rw [hkeys, List.nodup_cons, hone, hflat]
      constructor
      · rintro ⟨_, hrun, hrest⟩
        obtain ⟨_, hsame, hclean, hmerge, hnew, -, rfl⟩ := (run_key k).mp hrun
        cases htext.symm.trans hsame
        rw [run_append] at hrest
        obtain ⟨_, hvalue, hrest⟩ := bind_eq_ok.mp hrest
        obtain ⟨hclean', hsize, hnested, rfl⟩ := (hv _).mp hvalue
        obtain ⟨hfresh, hall, hnodup, _, _, rfl⟩ := (hes (by omega)).mp hrest
        refine ⟨?_, ⟨⟨hclean, by simp, by simpa using hmerge⟩, hclean', hall⟩,
          ⟨fun hmem => (hfresh text hmem).1 rfl, hnodup⟩, by omega, by omega, ?_⟩
        · rintro t (_ | ⟨_, hmem⟩)
          · exact hnew
          · exact (hfresh t hmem).2
        · rw [Nat.add_assoc]
          rfl
      · rintro ⟨hfresh, ⟨⟨hclean, -, hmerge⟩, hclean', hall⟩, ⟨hout, hnodup⟩, hsize, hnested, rfl⟩
        refine ⟨_, (run_key k).mpr ⟨text, htext, hclean, by simpa using hmerge,
          hfresh text List.mem_cons_self, by omega, rfl⟩, ?_⟩
        rw [run_append]
        refine bind_eq_ok.mpr ⟨_, (hv _).mpr ⟨hclean', by omega, by omega, rfl⟩,
          (hes (by omega)).mpr ⟨?_, hall, hnodup, by omega, by omega, ?_⟩⟩
        · intro t hmem
          refine ⟨?_, hfresh t (List.mem_cons_of_mem _ hmem)⟩
          rintro rfl
          exact hout hmem
        · rw [Nat.add_assoc]
          rfl

end

end Decoder

end Graphlab.Contracts
