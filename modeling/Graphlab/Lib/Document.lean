import Graphlab.Lib.Json
import Mathlib.Data.List.Nodup
import Mathlib.Data.String.Basic
import Mathlib.Order.Basic

/-!
# JSON documents

Updates of an object, which keep the order of its keys, and the documents that a parser
delivers: in every object of the document each key stands once, in order.

## Main definitions

* `Json.set` — `p[k] = v`.
* `Json.Ordered`, `Document` — the values that `nlohmann::json` can hold.
-/

namespace Graphlab.Lib

/-! ## Fields -/

section Lookup

variable {β : Type} {k : String} {v : β} {fs : List (String × β)}

/-- The value of a key. -/
def lookup (k : String) (fs : List (String × β)) : Option β := (fs.find? (·.1 == k)).map (·.2)

@[simp] theorem lookup_nil : lookup k ([] : List (String × β)) = none := rfl

@[simp] theorem lookup_cons (k : String) (f : String × β) (fs : List (String × β)) :
    lookup k (f :: fs) = if f.1 = k then some f.2 else lookup k fs := by
  by_cases h : f.1 = k <;> simp [lookup, h]

theorem lookup_eq_none : lookup k fs = none ↔ k ∉ fs.map Prod.fst := by
  induction fs with
  | nil => simp
  | cons f fs ih =>
    by_cases h : f.1 = k
    · simp [h]
    · simp only [lookup_cons, h, if_false, ih, List.map_cons, List.mem_cons, not_or]
      exact ⟨fun hk => ⟨fun heq => h heq.symm, hk⟩, And.right⟩

/-- Where a key stands first. -/
theorem lookup_eq_some :
    lookup k fs = some v ↔
      ∃ pre post, fs = pre ++ (k, v) :: post ∧ k ∉ pre.map Prod.fst := by
  induction fs with
  | nil => simp
  | cons f fs ih =>
    rw [lookup_cons]
    by_cases h : f.1 = k
    · rw [if_pos h]
      constructor
      · intro hv
        refine ⟨[], fs, ?_, by simp⟩
        rw [← h, ← Option.some.inj hv]
        rfl
      · rintro ⟨pre, post, heq, hpre⟩
        cases pre with
        | nil => cases heq; rfl
        | cons => cases heq; simp [h] at hpre
    · rw [if_neg h, ih]
      constructor
      · rintro ⟨pre, post, rfl, hpre⟩
        exact ⟨f :: pre, post, rfl, by simpa [Ne.symm h] using hpre⟩
      · rintro ⟨pre, post, heq, hpre⟩
        cases pre with
        | nil => cases heq; exact absurd rfl h
        | cons g pre =>
          cases heq
          exact ⟨pre, post, rfl, fun hk => hpre (List.mem_cons_of_mem _ hk)⟩

/-- With keys that all differ, a key has the value that stands beside it. -/
theorem lookup_of_mem (hkeys : (fs.map Prod.fst).Nodup) (h : (k, v) ∈ fs) :
    lookup k fs = some v := by
  obtain ⟨pre, post, rfl⟩ := List.append_of_mem h
  refine lookup_eq_some.mpr ⟨pre, post, rfl, fun hk => ?_⟩
  rw [List.map_append, List.nodup_append] at hkeys
  exact hkeys.2.2 k hk k (by simp) rfl

theorem mem_of_lookup (h : lookup k fs = some v) : (k, v) ∈ fs := by
  rw [lookup_eq_some] at h
  obtain ⟨_, _, rfl, -⟩ := h
  simp

end Lookup

namespace Json

theorem find?_object (k : String) (fs : List (String × Json)) :
    (object fs).find? k = lookup k fs := rfl

/-! ## Updates -/

/-- Put a new key where the order has it. -/
def insertField (k : String) (v : Json) : List (String × Json) → List (String × Json)
  | [] => [(k, v)]
  | f :: fs => if k < f.1 then (k, v) :: f :: fs else f :: insertField k v fs

/-- Give a key another value. -/
def replaceField (k : String) (v : Json) : List (String × Json) → List (String × Json)
  | [] => []
  | f :: fs => if f.1 = k then (k, v) :: fs else f :: replaceField k v fs

def setField (k : String) (v : Json) (fs : List (String × Json)) : List (String × Json) :=
  if k ∈ fs.map Prod.fst then replaceField k v fs else insertField k v fs

/-- `p[k] = v`. -/
def set (p : Json) (k : String) (v : Json) : Json :=
  match p with
  | .object fs => .object (setField k v fs)
  | .null => .object [(k, v)]
  | p => p

/-- Some updates, one after the other. -/
def setAll (p : Json) (us : List (String × Json)) : Json := us.foldl (fun p u => p.set u.1 u.2) p

section Updates

variable {k l : String} {v w : Json} {fs : List (String × Json)}

attribute [local simp] insertField replaceField

theorem setField_of_mem (h : k ∈ fs.map Prod.fst) : setField k v fs = replaceField k v fs :=
  if_pos h

theorem setField_of_not_mem (h : k ∉ fs.map Prod.fst) : setField k v fs = insertField k v fs :=
  if_neg h

theorem replaceField_split {pre post : List (String × Json)} (hpre : k ∉ pre.map Prod.fst) :
    replaceField k v (pre ++ (k, w) :: post) = pre ++ (k, v) :: post := by
  induction pre with
  | nil => simp
  | cons f pre ih =>
    rw [List.map_cons, List.mem_cons, not_or] at hpre
    rw [List.cons_append, replaceField, if_neg (Ne.symm hpre.1), ih hpre.2]
    rfl

theorem keys_replaceField : (replaceField k v fs).map Prod.fst = fs.map Prod.fst := by
  induction fs with
  | nil => rfl
  | cons f fs ih =>
    rw [replaceField]
    split
    · rename_i h
      simp [h]
    · simp [ih]

theorem mem_keys_insertField {j : String} :
    j ∈ (insertField k v fs).map Prod.fst ↔ j = k ∨ j ∈ fs.map Prod.fst := by
  induction fs with
  | nil => simp
  | cons f fs ih =>
    rw [insertField]
    split
    · simp
    · simp only [List.map_cons, List.mem_cons, ih]
      exact or_left_comm

theorem mem_keys_setField {j : String} :
    j ∈ (setField k v fs).map Prod.fst ↔ j = k ∨ j ∈ fs.map Prod.fst := by
  by_cases h : k ∈ fs.map Prod.fst
  · rw [setField_of_mem h, keys_replaceField]
    exact ⟨Or.inr, fun hj => hj.elim (fun heq => heq ▸ h) id⟩
  · rw [setField_of_not_mem h]
    exact mem_keys_insertField

theorem lookup_replaceField (h : k ∈ fs.map Prod.fst) (j : String) :
    lookup j (replaceField k v fs) = if j = k then some v else lookup j fs := by
  induction fs with
  | nil => simp at h
  | cons f fs ih =>
    rw [replaceField]
    by_cases hf : f.1 = k
    · subst hf
      by_cases hj : j = f.1
      · simp [hj]
      · simp [hj, Ne.symm hj]
    · rw [if_neg hf, lookup_cons, lookup_cons]
      rw [List.map_cons, List.mem_cons] at h
      rw [ih (h.resolve_left (Ne.symm hf))]
      by_cases hj : j = k
      · simp [hj, hf]
      · simp [hj]

theorem lookup_insertField (h : k ∉ fs.map Prod.fst) (j : String) :
    lookup j (insertField k v fs) = if j = k then some v else lookup j fs := by
  induction fs with
  | nil => simp [eq_comm]
  | cons f fs ih =>
    rw [List.map_cons, List.mem_cons, not_or] at h
    rw [insertField]
    split
    · by_cases hj : j = k
      · simp [hj]
      · simp [hj, Ne.symm hj]
    · rw [lookup_cons, ih h.2, lookup_cons]
      by_cases hj : j = k
      · simp [hj, Ne.symm h.1]
      · simp [hj]

theorem lookup_setField (j : String) :
    lookup j (setField k v fs) = if j = k then some v else lookup j fs := by
  by_cases h : k ∈ fs.map Prod.fst
  · rw [setField_of_mem h, lookup_replaceField h]
  · rw [setField_of_not_mem h, lookup_insertField h]

theorem replaceField_replaceField (h : k ≠ l) :
    replaceField k v (replaceField l w fs) = replaceField l w (replaceField k v fs) := by
  induction fs with
  | nil => rfl
  | cons f fs ih =>
    by_cases hk : f.1 = k
    · have hl : f.1 ≠ l := fun heq => h (hk.symm.trans heq)
      simp [hk, h]
    · by_cases hl : f.1 = l
      · simp [hl, Ne.symm h]
      · simp [hk, hl, ih]

theorem insertField_replaceField (h : k ≠ l) :
    insertField k v (replaceField l w fs) = replaceField l w (insertField k v fs) := by
  induction fs with
  | nil => simp [h]
  | cons f fs ih =>
    by_cases hl : f.1 = l
    · by_cases hk : k < l
      · simp [hl, hk, h]
      · simp [hl, hk]
    · by_cases hk : k < f.1
      · simp [hl, hk, h]
      · simp [hl, hk, ih]

theorem insertField_insertField (h : k ≠ l) :
    insertField k v (insertField l w fs) = insertField l w (insertField k v fs) := by
  -- the smaller of the two keys may be taken to be `k`
  have key : ∀ {k l : String} {v w : Json}, k < l →
      insertField k v (insertField l w fs) = insertField l w (insertField k v fs) := by
    intro k l v w hlt
    have hnot : ¬ l < k := lt_asymm hlt
    induction fs with
    | nil => simp [hlt, hnot]
    | cons f fs ih =>
      by_cases hl : l < f.1
      · simp [hl, hlt, hlt.trans hl, hnot]
      · by_cases hk : k < f.1
        · simp [hl, hk, hnot]
        · simp [hl, hk, ih]
  rcases lt_or_gt_of_ne h with hlt | hlt
  · exact key hlt
  · exact (key hlt).symm

theorem setField_comm (h : k ≠ l) :
    setField k v (setField l w fs) = setField l w (setField k v fs) := by
  have hk : k ∈ (setField l w fs).map Prod.fst ↔ k ∈ fs.map Prod.fst := by
    simp [mem_keys_setField, h]
  have hl : l ∈ (setField k v fs).map Prod.fst ↔ l ∈ fs.map Prod.fst := by
    simp [mem_keys_setField, Ne.symm h]
  by_cases hkin : k ∈ fs.map Prod.fst
  · rw [setField_of_mem (hk.mpr hkin), setField_of_mem hkin]
    rw [setField_of_mem hkin] at hl
    by_cases hlin : l ∈ fs.map Prod.fst
    · rw [setField_of_mem hlin, setField_of_mem (hl.mpr hlin)]
      exact replaceField_replaceField h
    · rw [setField_of_not_mem hlin, setField_of_not_mem (mt hl.mp hlin)]
      exact (insertField_replaceField (Ne.symm h)).symm
  · rw [setField_of_not_mem (mt hk.mp hkin), setField_of_not_mem hkin]
    rw [setField_of_not_mem hkin] at hl
    by_cases hlin : l ∈ fs.map Prod.fst
    · rw [setField_of_mem hlin, setField_of_mem (hl.mpr hlin)]
      exact insertField_replaceField h
    · rw [setField_of_not_mem hlin, setField_of_not_mem (mt hl.mp hlin)]
      exact insertField_insertField h

theorem replaceField_same (h : lookup k fs = some v) : replaceField k v fs = fs := by
  rw [lookup_eq_some] at h
  obtain ⟨_, _, rfl, hpre⟩ := h
  exact replaceField_split hpre

theorem setField_setField : setField k v (setField k w fs) = setField k v fs := by
  have hk : k ∈ (setField k w fs).map Prod.fst := mem_keys_setField.mpr (.inl rfl)
  rw [setField_of_mem hk]
  by_cases hin : k ∈ fs.map Prod.fst
  · obtain ⟨_, hx⟩ := Option.ne_none_iff_exists'.mp fun hnone => lookup_eq_none.mp hnone hin
    rw [lookup_eq_some] at hx
    obtain ⟨_, _, rfl, hpre⟩ := hx
    rw [setField_of_mem hin, setField_of_mem hin, replaceField_split hpre, replaceField_split hpre,
      replaceField_split hpre]
  · rw [setField_of_not_mem hin, setField_of_not_mem hin]
    clear hk
    induction fs with
    | nil => simp
    | cons f fs ih =>
      rw [List.map_cons, List.mem_cons, not_or] at hin
      by_cases hlt : k < f.1
      · simp [hlt]
      · simp [hlt, Ne.symm hin.1, ih hin.2]

end Updates

/-! ## Values -/

section Set

variable {p : Json} {j k : String} {v w : Json}

attribute [local simp] set

/-- A value is an object. -/
def IsObject (p : Json) : Prop := ∃ fs, p = .object fs

theorem IsObject.of_find? (h : p.find? k = some v) : p.IsObject := by
  cases p with
  | object fs => exact ⟨fs, rfl⟩
  | _ => cases h

theorem IsObject.set (h : p.IsObject) : (p.set k v).IsObject := by
  obtain ⟨_, rfl⟩ := h
  exact ⟨_, rfl⟩

@[simp] theorem find?_set_self (h : p.IsObject) : (p.set k v).find? k = some v := by
  obtain ⟨_, rfl⟩ := h
  simp [find?_object, lookup_setField]

@[simp] theorem find?_set_ne (h : j ≠ k) : (p.set k v).find? j = p.find? j := by
  cases p with
  | object => simp [find?_object, lookup_setField, h]
  | null => simp [find?, Ne.symm h]
  | _ => rfl

theorem set_set : (p.set k w).set k v = p.set k v := by
  cases p with
  | object => simp [setField_setField]
  | null => simp [setField_of_mem, replaceField]
  | _ => rfl

theorem set_comm (h : j ≠ k) : (p.set k w).set j v = (p.set j v).set k w := by
  cases p with
  | object => simp [setField_comm h]
  | null =>
    rcases lt_or_gt_of_ne h with hlt | hlt
    · simp [setField_of_not_mem, insertField, h, Ne.symm h, hlt, lt_asymm hlt]
    · simp [setField_of_not_mem, insertField, h, Ne.symm h, hlt, lt_asymm hlt]
  | _ => rfl

/-- To set a field to what it is changes nothing. -/
theorem set_same (h : p.find? k = some v) : p.set k v = p := by
  cases p with
  | object fs =>
    have hin : k ∈ fs.map Prod.fst := by
      by_contra hnot
      rw [find?_object, lookup_eq_none.mpr hnot] at h
      cases h
    simp [setField_of_mem hin, replaceField_same h]
  | _ => cases h

/-! ## Several updates -/

variable {us vs : List (String × Json)}

@[simp] theorem setAll_nil : p.setAll [] = p := rfl

@[simp] theorem setAll_cons {u : String × Json} : p.setAll (u :: us) = (p.set u.1 u.2).setAll us :=
  rfl

/-- An update of a key that is set later is lost. -/
theorem setAll_set (hk : k ∈ us.map Prod.fst) : (p.set k v).setAll us = p.setAll us := by
  induction us generalizing p with
  | nil => cases hk
  | cons u us ih =>
    rw [setAll_cons, setAll_cons]
    by_cases h : u.1 = k
    · rw [h, set_set]
    · rw [set_comm h]
      rw [List.map_cons, List.mem_cons] at hk
      exact ih (hk.resolve_left (Ne.symm h))

/-- Updates of keys that are set later are lost. -/
theorem setAll_setAll (h : us.map Prod.fst ⊆ vs.map Prod.fst) :
    (p.setAll us).setAll vs = p.setAll vs := by
  induction us generalizing p with
  | nil => rfl
  | cons u us ih =>
    rw [List.map_cons, List.cons_subset] at h
    rw [setAll_cons, ih h.2, setAll_set h.1]

theorem find?_setAll_of_not_mem (h : k ∉ us.map Prod.fst) :
    (p.setAll us).find? k = p.find? k := by
  induction us generalizing p with
  | nil => rfl
  | cons u us ih =>
    rw [List.map_cons, List.mem_cons, not_or] at h
    rw [setAll_cons, ih h.2, find?_set_ne h.1]

/-- With keys that all differ, each has the value it is set to. -/
theorem find?_setAll_of_mem (hp : p.IsObject) (hkeys : (us.map Prod.fst).Nodup)
    (h : (k, v) ∈ us) : (p.setAll us).find? k = some v := by
  induction us generalizing p with
  | nil => cases h
  | cons u us ih =>
    rw [List.map_cons, List.nodup_cons] at hkeys
    rw [setAll_cons]
    rcases List.mem_cons.mp h with rfl | h
    · rw [find?_setAll_of_not_mem hkeys.1, find?_set_self hp]
    · exact ih hp.set hkeys.2 h

end Set

/-! ## Documents -/

mutual

/-- In every object the keys are in order, each once. -/
def Ordered : Json → Prop
  | .array values => OrderedValues values
  | .object fields => (fields.map Prod.fst).Pairwise (· < ·) ∧ OrderedFields fields
  | _ => True

def OrderedValues : List Json → Prop
  | [] => True
  | v :: vs => Ordered v ∧ OrderedValues vs

def OrderedFields : List (String × Json) → Prop
  | [] => True
  | f :: fs => Ordered f.2 ∧ OrderedFields fs

end

mutual

def decideOrdered : (p : Json) → Decidable p.Ordered
  | .null => .isTrue (by simp [Ordered])
  | .bool _ => .isTrue (by simp [Ordered])
  | .number _ => .isTrue (by simp [Ordered])
  | .real _ => .isTrue (by simp [Ordered])
  | .string _ => .isTrue (by simp [Ordered])
  | .array values =>
    have := decideOrderedValues values
    decidable_of_iff (OrderedValues values) (by rw [Ordered])
  | .object fields =>
    have := decideOrderedFields fields
    decidable_of_iff ((fields.map Prod.fst).Pairwise (· < ·) ∧ OrderedFields fields)
      (by rw [Ordered])

def decideOrderedValues : (vs : List Json) → Decidable (OrderedValues vs)
  | [] => .isTrue (by rw [OrderedValues]; trivial)
  | v :: vs =>
    have := decideOrdered v
    have := decideOrderedValues vs
    decidable_of_iff (v.Ordered ∧ OrderedValues vs) (by rw [OrderedValues])

def decideOrderedFields : (fs : List (String × Json)) → Decidable (OrderedFields fs)
  | [] => .isTrue (by rw [OrderedFields]; trivial)
  | (k, v) :: fs =>
    have := decideOrdered v
    have := decideOrderedFields fs
    decidable_of_iff (v.Ordered ∧ OrderedFields fs) (by rw [OrderedFields])

end

instance : DecidablePred Ordered := decideOrdered

theorem OrderedFields.mem {fs : List (String × Json)} (h : OrderedFields fs) {f : String × Json}
    (hf : f ∈ fs) : f.2.Ordered := by
  induction fs with
  | nil => cases hf
  | cons g fs ih =>
    rw [OrderedFields] at h
    rcases List.mem_cons.mp hf with rfl | hf
    · exact h.1
    · exact ih h.2 hf

theorem Ordered.find? {p v : Json} {k : String} (h : p.Ordered) (hv : p.find? k = some v) :
    v.Ordered := by
  obtain ⟨_, rfl⟩ := IsObject.of_find? hv
  rw [find?_object, lookup_eq_some] at hv
  obtain ⟨_, _, rfl, -⟩ := hv
  rw [Ordered] at h
  exact h.2.mem (f := (k, v)) (by simp)

theorem Ordered.nodup {fs : List (String × Json)} (h : (object fs).Ordered) :
    (fs.map Prod.fst).Nodup := by
  rw [Ordered] at h
  exact h.1.imp ne_of_lt

/-- A key above all others is put last. -/
theorem setField_of_forall_lt {k : String} {v : Json} {fs : List (String × Json)}
    (h : ∀ j ∈ fs.map Prod.fst, j < k) : setField k v fs = fs ++ [(k, v)] := by
  have hinsert : insertField k v fs = fs ++ [(k, v)] := by
    induction fs with
    | nil => rfl
    | cons f fs ih =>
      rw [List.map_cons, List.forall_mem_cons] at h
      rw [insertField, if_neg (lt_asymm h.1), ih h.2, List.cons_append]
  rw [setField_of_not_mem (fun hmem => lt_irrefl k (h k hmem)), hinsert]

/-- Fields in order are put one behind the other. -/
theorem setAll_of_pairwise {fs us : List (String × Json)}
    (h : ((fs ++ us).map Prod.fst).Pairwise (· < ·)) : (object fs).setAll us = object (fs ++ us) := by
  induction us generalizing fs with
  | nil => rw [setAll_nil, List.append_nil]
  | cons u us ih =>
    have hlast : ∀ j ∈ fs.map Prod.fst, j < u.1 := by
      rw [List.map_append, List.map_cons, List.pairwise_append] at h
      exact fun j hj => h.2.2 j hj u.1 List.mem_cons_self
    rw [List.append_cons] at h ⊢
    rw [setAll_cons, ← ih h, set, setField_of_forall_lt hlast]

/-- An object with given fields and no others. -/
theorem Ordered.object_eq {fs gs : List (String × Json)} (h : (object fs).Ordered)
    (hgs : (gs.map Prod.fst).Pairwise (· < ·)) (hkeys : ∀ f ∈ fs, f.1 ∈ gs.map Prod.fst)
    (hfind : ∀ g ∈ gs, (object fs).find? g.1 = some g.2) : fs = gs := by
  have hnodup := h.nodup
  rw [Ordered] at h
  have hmem : ∀ f, f ∈ fs ↔ f ∈ gs := by
    intro f
    constructor
    · intro hf
      obtain ⟨g, hg, hkey⟩ := List.mem_map.mp (hkeys f hf)
      have hlookup := hfind g hg
      rw [find?_object, hkey, lookup_of_mem hnodup (k := f.1) (v := f.2) hf] at hlookup
      have : f = g := Prod.ext hkey.symm (Option.some.inj hlookup)
      exact this ▸ hg
    · intro hf
      have hlookup := hfind f hf
      rw [find?_object] at hlookup
      exact mem_of_lookup hlookup
  have hperm : fs.Perm gs := by
    have hgs' : (gs.map Prod.fst).Nodup := hgs.imp ne_of_lt
    exact (List.perm_ext_iff_of_nodup (List.Nodup.of_map _ hnodup)
      (List.Nodup.of_map _ hgs')).mpr hmem
  have hsorted : ∀ {l : List (String × Json)}, (l.map Prod.fst).Pairwise (· < ·) →
      l.Pairwise fun f g => f.1 < g.1 := fun hl => List.pairwise_map.mp hl
  refine hperm.eq_of_pairwise (fun a b _ _ hab hba => ?_) (hsorted h.1) (hsorted hgs)
  exact absurd (hab.trans hba) (lt_irrefl _)

end Json

/-- A value as `nlohmann::json` holds it. -/
structure Document where
  value : Json
  ordered : value.Ordered

end Graphlab.Lib
