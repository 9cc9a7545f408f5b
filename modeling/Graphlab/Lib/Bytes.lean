import Mathlib.Data.List.Basic
import Mathlib.Tactic.Ring

/-!
# Numbers in byte strings

Fixed-width little-endian numbers, padding to a multiple of four, and reading a number
at a position.  A layout is a concatenation of fields; `read_append` and `read_little`
find the field a position belongs to, so that reading a layout is done by `simp`.

## Main definitions

* `little k n` — the `k` low bytes of `n`; `value` its inverse (`value_little`).
* `read k b i` — the number in the `k` bytes at `i`, if they are there.
* `padding n` — the bytes that bring a length of `n` to a multiple of four.
-/

namespace Graphlab.Lib

abbrev Bytes := List UInt8

namespace Bytes

/-! ## Numbers -/

/-- The `k` low bytes of `n`, least significant first. -/
def little : ℕ → ℕ → Bytes
  | 0, _ => []
  | k + 1, n => UInt8.ofNat n :: little k (n / 256)

/-- The number with these bytes, least significant first. -/
def value : Bytes → ℕ
  | [] => 0
  | b :: bs => b.toNat + 256 * value bs

@[simp] theorem length_little (k n : ℕ) : (little k n).length = k := by
  induction k generalizing n with
  | zero => rfl
  | succ k ih => simp [little, ih]

theorem value_little (k n : ℕ) : value (little k n) = n % 256 ^ k := by
  induction k generalizing n with
  | zero => simp [little, value, Nat.mod_one]
  | succ k ih =>
    have hdigit : (UInt8.ofNat n).toNat = n % 256 := by simp
    rw [little, value, ih, hdigit, pow_succ', Nat.mod_mul]

/-! ## Reading -/

/-- The number in the `k` bytes at `i`, if the string has them. -/
def read (k : ℕ) (b : Bytes) (i : ℕ) : Option ℕ :=
  if i + k ≤ b.length then some (value ((b.drop i).take k)) else none

theorem read_append {k i : ℕ} {xs : Bytes} (ys : Bytes) (h : i + k ≤ xs.length) :
    read k (xs ++ ys) i = read k xs i := by
  have htake : ((xs ++ ys).drop i).take k = (xs.drop i).take k := by
    rw [List.drop_append_of_le_length (by omega), List.take_append_of_le_length]
    simp only [List.length_drop]
    omega
  have hlength : i + k ≤ xs.length + ys.length := by omega
  simp only [read, htake, List.length_append, if_pos h, if_pos hlength]

theorem read_append_right {k i : ℕ} {xs : Bytes} (ys : Bytes) (h : xs.length ≤ i) :
    read k (xs ++ ys) i = read k ys (i - xs.length) := by
  have hdrop : (xs ++ ys).drop i = ys.drop (i - xs.length) := by
    rw [List.drop_append, List.drop_eq_nil_of_le h, List.nil_append]
  have hiff : i + k ≤ xs.length + ys.length ↔ i - xs.length + k ≤ ys.length := by omega
  simp only [read, hdrop, List.length_append, hiff]

/-- The field at the position itself. -/
theorem read_little (k n : ℕ) (ys : Bytes) :
    read k (little k n ++ ys) 0 = some (n % 256 ^ k) := by
  rw [read_append ys (by simp), read, if_pos (by simp), List.drop_zero,
    List.take_of_length_le (by simp), value_little]

/-- A field before the position. -/
theorem read_skip {k i w : ℕ} (n : ℕ) (ys : Bytes) (h : w ≤ i) :
    read k (little w n ++ ys) i = read k ys (i - w) := by
  rw [read_append_right ys (by simpa using h), length_little]

theorem read_isSome {k i : ℕ} {b : Bytes} (h : i + k ≤ b.length) : ∃ n, read k b i = some n :=
  ⟨_, if_pos h⟩

/-! ## Padding -/

/-- The zero bytes that bring a length of `n` to a multiple of four. -/
def padding (n : ℕ) : Bytes := List.replicate ((4 - n % 4) % 4) 0

@[simp] theorem length_padding (n : ℕ) : (padding n).length = (4 - n % 4) % 4 := by
  simp [padding]

/-- A length brought to a multiple of four. -/
def padded (n : ℕ) : ℕ := (n + 3) / 4 * 4

theorem add_length_padding (n : ℕ) : n + (padding n).length = padded n := by
  simp only [length_padding, padded]
  omega

end Bytes
end Graphlab.Lib
