import Graphlab.Contracts.Decoder
import Graphlab.Lib.Text

/-!
# Documents and their texts

What is accepted is one document that is clean and within the limits, with an object at its root.
The text of a JSON value is such a document, and is read as the value.  Strings are quoted and keys
are read as texts, so that neither is taken for a boolean or a number.

## Main results

* `decode_stream` — which documents are accepted.
* `value_yamlOf`, `clean_yamlOf` — the text of a value.
* `document_round_trip` — both, for `parseDocument`.
-/

namespace Graphlab.Contracts

open Lib

/-! ## Documents that are accepted -/

/-- The decoder over one document, from the start. -/
theorem run_document (n : Yaml) (es : List Event) :
    Decoder.run {} (.documentStart :: (n.events ++ [.documentEnd]) ++ es) =
      (Decoder.run { documents := 1 } n.events >>= fun d => d.run es) := by
  rw [List.cons_append, List.append_assoc, Decoder.run, Decoder.handle, if_neg (by decide)]
  change Decoder.run { documents := 1 } _ = _
  rw [Decoder.run_append]
  rfl

/-- One document, clean and within the limits, with an object at its root. -/
theorem decode_stream (nodes : List Yaml) (v : Json) :
    decode (stream nodes) = .ok v ↔ ∃ n, nodes = [n] ∧ n.Clean ∧ n.size ≤ maxValues ∧
      n.depth ≤ maxDepth ∧ n.value = v ∧ isObject v = true := by
  rcases nodes with _ | ⟨n, nodes⟩
  · simp [stream, decode, Decoder.run]
  · have hn : ∀ d, Decoder.run { documents := 1 } n.events = .ok d ↔ n.Clean ∧
        n.size ≤ maxValues ∧ n.depth ≤ maxDepth ∧
        d = { count := n.size, root := n.value, documents := 1 } := by
      intro d
      rw [Decoder.run_events n (d := { documents := 1 }) rfl (by decide)]
      simp only [Decoder.add, Decoder.store, Nat.zero_add, List.length_nil]
    rw [stream, List.flatMap_cons, decode, run_document]
    simp only [bind_eq_ok, hn]
    constructor
    · rintro ⟨d, ⟨_, ⟨hclean, hsize, hdepth, rfl⟩, hrest⟩, h⟩
      rcases nodes with _ | ⟨m, nodes⟩
      · cases hrest
        rw [ite_eq_iff] at h
        obtain ⟨-, h⟩ | ⟨hroot, h⟩ := h
        · cases h
        · cases h
          exact ⟨n, rfl, hclean, hsize, hdepth, rfl, by simpa using hroot⟩
      · -- the second document
        cases hrest
    · rintro ⟨_, hone, hclean, hsize, hdepth, rfl, hroot⟩
      cases hone
      refine ⟨_, ⟨_, ⟨hclean, hsize, hdepth, rfl⟩, rfl⟩, if_neg ?_⟩
      simpa using hroot

theorem parseDocument_eq_ok (bytes : ℕ) (es : List Event) (failure : Option String) (v : Json) :
    parseDocument bytes es failure = .ok v ↔
      bytes ≤ 1024 * 1024 ∧ failure = none ∧ decode es = .ok v := by
  unfold parseDocument
  split_ifs with hbytes
  · exact iff_of_false (by simp) fun h => absurd h.1 (by omega)
  · rw [and_iff_right (Nat.le_of_not_lt hbytes)]
    cases hrun : Decoder.run {} es with
    | error => simp [decode, hrun]
    | ok =>
      cases failure with
      | some => simp
      | none => cases decode es <;> simp

/-! ## The text of a value -/

theorem fromChars_toDigits (m : ℕ) : fromChars (Nat.toDigits 10 m) = some (m : ℤ) := by
  have hdigits : (Nat.toDigits 10 m).all Char.isDigit = true :=
    List.all_eq_true.mpr fun c hc => Nat.isDigit_of_mem_toDigits (by decide) (by decide) hc
  unfold fromChars
  split
  · next ds heq =>
      rw [heq, List.all_cons] at hdigits
      cases hdigits
  · simp [hdigits, Nat.ofDigitChars_toDigits]

theorem fromChars_neg_toDigits (m : ℕ) :
    fromChars ('-' :: Nat.toDigits 10 m) = some (-(m : ℤ)) := by
  have hdigits : (Nat.toDigits 10 m).all Char.isDigit = true :=
    List.all_eq_true.mpr fun c hc => Nat.isDigit_of_mem_toDigits (by decide) (by decide) hc
  simp [fromChars, hdigits, Nat.ofDigitChars_toDigits]

/-- A number is read back from its text. -/
theorem fromChars_toString (n : ℤ) : fromChars (toString n).toList = some n := by
  cases n with
  | ofNat m =>
    have htext : (toString (Int.ofNat m)).toList = Nat.toDigits 10 m := toList_toString m
    rw [htext, fromChars_toDigits]
    rfl
  | negSucc m =>
    have htext : (toString (Int.negSucc m)).toList = '-' :: Nat.toDigits 10 (m + 1) := by
      change ("-" ++ toString (m + 1)).toList = _
      rw [String.toList_append, toList_toString]
      rfl
    rw [htext, fromChars_neg_toDigits]
    rfl

variable {tag : String}

theorem scalarValue_toString (htag : tag ≠ "!") {n : ℤ}
    (h : -2 ^ 63 ≤ n ∧ n < 2 ^ 63) : scalarValue tag (toString n) = .number n := by
  have hword : signedWord (toString n) = some n := by
    rw [signedWord, fromChars_toString, Option.filter_some, if_pos (by simpa using h)]
  have hother : ∀ text, signedWord text = none → toString n ≠ text := by
    rintro _ hnone rfl
    cases hnone.symm.trans hword
  have htrue := hother "true" (by decide)
  have hfalse := hother "false" (by decide)
  rw [scalarValue, if_neg htag, if_neg htrue, if_neg hfalse, hword]

theorem scalarValue_bool (htag : tag ≠ "!") (b : Bool) :
    scalarValue tag (if b then "true" else "false") = .bool b := by
  rw [scalarValue, if_neg htag]
  cases b <;> rfl

mutual

theorem value_yamlOf (htag : tag ≠ "!") :
    ∀ v : Json, v.Ordered → Portable v → (yamlOf tag v).value = v
  | .null, _, _ => rfl
  | .bool b, _, _ => scalarValue_bool htag b
  | .number n, _, h => scalarValue_toString htag (by rwa [Portable] at h)
  | .real text, _, h => absurd h (by rw [Portable]; exact not_false)
  | .string s, _, _ => rfl
  | .array vs, ho, hp => by
      rw [yamlOf, Yaml.value, itemsValue_yamlItems htag vs (by rwa [Json.Ordered] at ho)
        (by rwa [Portable] at hp)]
  | .object fs, ho, hp => by
      rw [Json.Ordered] at ho
      rw [Portable] at hp
      rw [yamlOf, Yaml.value, entriesValue_yamlEntries htag fs ho.2 hp]
      exact Json.setAll_of_pairwise ho.1

theorem itemsValue_yamlItems (htag : tag ≠ "!") :
    ∀ vs : List Json, Json.OrderedValues vs → PortableValues vs →
      Yaml.itemsValue (yamlItems tag vs) = vs
  | [], _, _ => rfl
  | v :: vs, ho, hp => by
      rw [Json.OrderedValues] at ho
      rw [PortableValues] at hp
      rw [yamlItems, Yaml.itemsValue, value_yamlOf htag v ho.1 hp.1,
        itemsValue_yamlItems htag vs ho.2 hp.2]

theorem entriesValue_yamlEntries (htag : tag ≠ "!") :
    ∀ fs : List (String × Json), Json.OrderedFields fs → PortableFields fs →
      Yaml.entriesValue (yamlEntries tag fs) = fs
  | [], _, _ => rfl
  | (k, v) :: fs, ho, hp => by
      rw [Json.OrderedFields] at ho
      rw [PortableFields] at hp
      rw [yamlEntries, Yaml.entriesValue, value_yamlOf htag v ho.1 hp.2.1,
        entriesValue_yamlEntries htag fs ho.2 hp.2.2]
      rfl

end

theorem keyTexts_yamlEntries (tag : String) (fs : List (String × Json)) :
    Yaml.keyTexts (yamlEntries tag fs) = fs.map Prod.fst := by
  induction fs with
  | nil => rfl
  | cons f fs ih => exact congrArg (f.1 :: ·) ih

mutual

theorem clean_yamlOf (htag : plainTag tag = true) :
    ∀ v : Json, v.Ordered → Portable v → (yamlOf tag v).Clean
  | .null, _, _ => rfl
  | .bool _, _, _ => ⟨htag, rfl⟩
  | .number _, _, _ => ⟨htag, rfl⟩
  | .real _, _, _ => ⟨htag, rfl⟩
  | .string _, _, _ => ⟨rfl, rfl⟩
  | .array vs, ho, hp => by
      rw [Json.Ordered] at ho
      rw [Portable] at hp
      rw [yamlOf, Yaml.Clean]
      exact ⟨htag, rfl, clean_yamlItems htag vs ho hp⟩
  | .object fs, ho, hp => by
      have hnodup := ho.nodup
      rw [Json.Ordered] at ho
      rw [Portable] at hp
      rw [yamlOf, Yaml.Clean, keyTexts_yamlEntries]
      exact ⟨htag, rfl, clean_yamlEntries htag fs ho.2 hp, hnodup⟩

theorem clean_yamlItems (htag : plainTag tag = true) :
    ∀ vs : List Json, Json.OrderedValues vs → PortableValues vs →
      Yaml.ItemsClean (yamlItems tag vs)
  | [], _, _ => trivial
  | v :: vs, ho, hp => by
      rw [Json.OrderedValues] at ho
      rw [PortableValues] at hp
      exact ⟨clean_yamlOf htag v ho.1 hp.1, clean_yamlItems htag vs ho.2 hp.2⟩

theorem clean_yamlEntries (htag : plainTag tag = true) :
    ∀ fs : List (String × Json), Json.OrderedFields fs → PortableFields fs →
      Yaml.EntriesClean (yamlEntries tag fs)
  | [], _, _ => trivial
  | (k, v) :: fs, ho, hp => by
      rw [Json.OrderedFields] at ho
      rw [PortableFields] at hp
      refine ⟨⟨⟨rfl, rfl⟩, Option.some_ne_none k, ?_⟩, clean_yamlOf htag v ho.1 hp.2.1,
        clean_yamlEntries htag fs ho.2 hp.2.2⟩
      exact fun h => hp.1 (Option.some.inj h)

end

/-- The text of an object is read as the object, and what is accepted is exactly one document that
is clean and within the limits, with an object at its root. -/
theorem document_round_trip {tag : String} (htag : tag = "?" ∨ tag = "") :
    (∀ v : Json, v.Ordered → Portable v → isObject v = true → (yamlOf tag v).size ≤ maxValues →
        (yamlOf tag v).depth ≤ maxDepth → decode (stream [yamlOf tag v]) = .ok v) ∧
      ∀ (nodes : List Yaml) (bytes : ℕ) (failure : Option String) (v : Json),
        parseDocument bytes (stream nodes) failure = .ok v ↔
          bytes ≤ 1024 * 1024 ∧ failure = none ∧ ∃ n, nodes = [n] ∧ n.Clean ∧
            n.size ≤ maxValues ∧ n.depth ≤ maxDepth ∧ n.value = v ∧ isObject v = true := by
  have hplain : plainTag tag = true := by rcases htag with rfl | rfl <;> rfl
  have hquoted : tag ≠ "!" := by rcases htag with rfl | rfl <;> decide
  constructor
  · intro v ho hp hroot hsize hdepth
    exact (decode_stream _ _).mpr ⟨_, rfl, clean_yamlOf hplain v ho hp, hsize, hdepth,
      value_yamlOf hquoted v ho hp, hroot⟩
  · intro nodes bytes failure v
    rw [parseDocument_eq_ok, decode_stream]

/-- Strings that look like other values, as keys and as values. -/
def sampleDocument : Json :=
  .object [("7", .string "true"), ("false", .array [.number (-3), .null, .string "12"]),
    ("nested", .object [("null", .bool false)])]

theorem document_round_trip_sample :
    decode (stream [yamlOf "?" sampleDocument]) = .ok sampleDocument := by
  refine (document_round_trip (.inl rfl)).1 sampleDocument (by decide) ?_ rfl
    (by decide) (by decide)
  simp [sampleDocument, Portable, PortableValues, PortableFields]

end Graphlab.Contracts
