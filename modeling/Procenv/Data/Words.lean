import Mathlib.Data.Nat.Digits.Defs
import Procenv.Data.Buffer

/-!
# Numbers in memory

A number of a fixed number of bytes, the lowest first or the highest first, and how it is
loaded from the cells of a buffer.

* `ofBytes_toBytes`: a number that fits is read back.
* `Buffer.load_append`: cells that are somewhere in a buffer are loaded.
-/

namespace Procenv.Data

/-- The number in bytes, the lowest first. -/
def ofBytes (bs : List UInt8) : Nat := Nat.ofDigits 256 (bs.map UInt8.toNat)

/-- The `k` bytes of a number, the lowest first. -/
def toBytes : (k n : Nat) → List UInt8
  | 0, _ => []
  | k + 1, n => UInt8.ofNat n :: toBytes k (n / 256)

/-- The bytes in the order of a machine. -/
def inOrder (bigEndian : Bool) (bs : List UInt8) : List UInt8 := if bigEndian then bs.reverse else bs

variable {k n : Nat} {bigEndian : Bool} {bs : List UInt8}

@[simp] theorem length_toBytes : (toBytes k n).length = k := by
  induction k generalizing n with
  | zero => rfl
  | succ k ih => rw [toBytes, List.length_cons, ih]

@[simp] theorem length_inOrder : (inOrder bigEndian bs).length = bs.length := by
  cases bigEndian <;> simp [inOrder]

theorem inOrder_inOrder : inOrder bigEndian (inOrder bigEndian bs) = bs := by
  cases bigEndian <;> simp [inOrder]

/-- **A number is read back from its bytes.** -/
theorem ofBytes_toBytes (h : n < 256 ^ k) : ofBytes (toBytes k n) = n := by
  induction k generalizing n with
  | zero =>
    obtain rfl : n = 0 := by simpa using h
    rfl
  | succ k ih =>
    have hrest : n / 256 < 256 ^ k := by
      rw [Nat.pow_succ] at h
      exact Nat.div_lt_of_lt_mul (by omega)
    have hlow : (UInt8.ofNat n).toNat = n % 256 := UInt8.toNat_ofNat'
    have htail : Nat.ofDigits 256 ((toBytes k (n / 256)).map UInt8.toNat) = n / 256 := ih hrest
    rw [ofBytes, toBytes, List.map_cons, Nat.ofDigits_cons, hlow, htail]
    exact Nat.mod_add_div n 256

namespace Buffer

variable {α : Type*} {b : Buffer α} {i : Nat}

/-- The values of `n` cells. -/
def load (b : Buffer α) (i : Nat) : (n : Nat) → Option (List α)
  | 0 => some []
  | n + 1 => do
    let x ← b[i]?.join
    let xs ← b.load (i + 1) n
    return x :: xs

/-- **Cells with values are loaded**, wherever they are. -/
theorem load_append (pre : Buffer α) (xs : List α) (post : Buffer α) :
    (pre ++ xs.map some ++ post).load pre.length xs.length = some xs := by
  induction xs generalizing pre with
  | nil => rfl
  | cons x xs ih =>
    have hcell : (pre ++ (x :: xs).map some ++ post)[pre.length]? = some (some x) := by simp
    have hrest : (pre ++ (x :: xs).map some ++ post).load (pre.length + 1) xs.length = some xs := by
      have := ih (pre ++ [some x])
      simpa using this
    rw [List.length_cons, load, hcell, hrest]
    rfl

end Buffer

end Procenv.Data
