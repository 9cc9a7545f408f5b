import Mathlib.Algebra.GroupWithZero.Nat
import Mathlib.Data.List.Basic
import Mathlib.Data.Int.Notation

/-!
# JSON values

Values as a parser delivers them: an object is a list of fields in the order of their keys,
each key once.

## Main definitions

* `Json` — the values, with decidable equality.
* `Json.find?` — the value of a field.
* `Json.field`, `Json.entry`, `Json.text` — accesses that throw.
* `Json.elements` — what a loop visits.
* `Json.dumpSize` — the length of the text that a value is written as.
-/

namespace Graphlab.Lib

inductive Json
  | null
  | bool (b : Bool)
  | number (n : ℤ)
  /-- A number that is no integer, by its text. -/
  | real (text : String)
  | string (s : String)
  | array (values : List Json)
  | object (fields : List (String × Json))
  deriving Repr, Inhabited

namespace Json

/-! ## Equality -/

mutual

/-- Whether two values are the same. -/
def same : Json → Json → Bool
  | .null, .null => true
  | .bool a, .bool b => a == b
  | .number a, .number b => a == b
  | .real a, .real b => a == b
  | .string a, .string b => a == b
  | .array xs, .array ys => sameValues xs ys
  | .object xs, .object ys => sameFields xs ys
  | _, _ => false

def sameValues : List Json → List Json → Bool
  | [], [] => true
  | x :: xs, y :: ys => same x y && sameValues xs ys
  | _, _ => false

def sameFields : List (String × Json) → List (String × Json) → Bool
  | [], [] => true
  | (k, x) :: xs, (l, y) :: ys => k == l && same x y && sameFields xs ys
  | _, _ => false

end

mutual

theorem same_iff : ∀ x y : Json, same x y = true ↔ x = y
  | .null, y => by cases y <;> simp [same]
  | .bool a, y => by cases y <;> simp [same]
  | .number a, y => by cases y <;> simp [same]
  | .real a, y => by cases y <;> simp [same]
  | .string a, y => by cases y <;> simp [same]
  | .array xs, y => by cases y <;> simp [same, sameValues_iff xs]
  | .object xs, y => by cases y <;> simp [same, sameFields_iff xs]

theorem sameValues_iff : ∀ xs ys : List Json, sameValues xs ys = true ↔ xs = ys
  | [], ys => by cases ys <;> simp [sameValues]
  | x :: xs, ys => by cases ys <;> simp [sameValues, same_iff x, sameValues_iff xs]

theorem sameFields_iff : ∀ xs ys : List (String × Json), sameFields xs ys = true ↔ xs = ys
  | [], ys => by cases ys <;> simp [sameFields]
  | (k, x) :: xs, ys => by
      cases ys <;> simp [sameFields, same_iff x, sameFields_iff xs, Prod.ext_iff]

end

instance decidableEq : DecidableEq Json :=
  fun x y => decidable_of_iff (same x y = true) (same_iff x y)

/-! ## Fields -/

/-- The value of a field; none of a value that is no object. -/
def find? (p : Json) (k : String) : Option Json :=
  match p with
  | .object fields => (fields.find? (·.1 == k)).map (·.2)
  | _ => none

/-- `p.at(k)`. -/
def field (p : Json) (k : String) : Except String Json :=
  match p with
  | .object fields =>
    match fields.find? (·.1 == k) with
    | some f => .ok f.2
    | none => .error "json.exception.out_of_range.403"
  | _ => .error "json.exception.type_error.304"

theorem field_eq_ok {p v : Json} {k : String} : p.field k = .ok v ↔ p.find? k = some v := by
  cases p with
  | object fields => cases h : fields.find? (·.1 == k) <;> simp [field, find?, h]
  | _ => simp [field, find?]

/-- `p[k]`, of a value that the access may change: a field that is not there is null. -/
def entry (p : Json) (k : String) : Except String Json :=
  match p with
  | .object _ => .ok ((p.find? k).getD .null)
  | .null => .ok .null
  | _ => .error "json.exception.type_error.305"

/-- `v.get<std::string>()`. -/
def text : Json → Except String String
  | .string s => .ok s
  | _ => .error "json.exception.type_error.302"

theorem text_eq_ok {v : Json} {s : String} : v.text = .ok s ↔ v = .string s := by
  cases v <;> simp [text]

/-- What a loop over a value visits. -/
def elements : Json → List Json
  | .null => []
  | .array values => values
  | .object fields => fields.map (·.2)
  | v => [v]

/-! ## Text -/

/-- The bytes of a character in a quoted string. -/
def charSize (c : Char) : ℕ :=
  if c = '"' ∨ c = '\\' ∨ c.toNat = 8 ∨ c.toNat = 9 ∨ c.toNat = 10 ∨ c.toNat = 12 ∨ c.toNat = 13
  then 2
  else if c.toNat < 32 then 6
  else c.utf8Size

def quotedSize (s : String) : ℕ := 2 + (s.toList.map charSize).sum

mutual

/-- The length of the text that a value is written as, in bytes and without blanks. -/
def dumpSize : Json → ℕ
  | .null => 4
  | .bool true => 4
  | .bool false => 5
  | .number n => (toString n).utf8ByteSize
  | .real text => text.utf8ByteSize
  | .string s => quotedSize s
  | .array [] => 2
  | .array (x :: xs) => 1 + valuesSize (x :: xs)
  | .object [] => 2
  | .object (f :: fs) => 1 + fieldsSize (f :: fs)

/-- Values, each with the comma or bracket after it. -/
def valuesSize : List Json → ℕ
  | [] => 0
  | x :: xs => dumpSize x + 1 + valuesSize xs

/-- Fields, each with its colon and the comma or brace after it. -/
def fieldsSize : List (String × Json) → ℕ
  | [] => 0
  | (k, x) :: fs => quotedSize k + 1 + dumpSize x + 1 + fieldsSize fs

end

@[simp] theorem dumpSize_string (s : String) : (Json.string s).dumpSize = quotedSize s := by
  rw [dumpSize]

@[simp] theorem dumpSize_object (f : String × Json) (fs : List (String × Json)) :
    (Json.object (f :: fs)).dumpSize = 1 + fieldsSize (f :: fs) := by
  rw [dumpSize]

@[simp] theorem fieldsSize_nil : fieldsSize [] = 0 := by
  rw [fieldsSize]

@[simp] theorem fieldsSize_cons (k : String) (x : Json) (fs : List (String × Json)) :
    fieldsSize ((k, x) :: fs) = quotedSize k + 1 + x.dumpSize + 1 + fieldsSize fs := by
  rw [fieldsSize]

end Json
end Graphlab.Lib
