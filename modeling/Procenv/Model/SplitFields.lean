import Procenv.Model.Append

/-!
# `split_fields`

Pointers into the string are indices into its cells, and every read is checked: outside of the cells it is
`Halt.outOfBounds`. The array is a buffer of pointers, where `none` is `NULL` and a cell that nothing was
written to has no value. A loop that goes on for more rounds than the string has cells is `Halt.hang`.
Allocation succeeds.
-/

namespace Procenv.SplitFields

open Data

variable (string : Buffer UInt8)

/-- `*p`. -/
def peek (p : Nat) : Except Halt UInt8 := access "split_fields" (string[p]?.join)

/-- `strndup (start, n)`. -/
def strndup (start : Nat) : (n : Nat) → Except Halt MbStr
  | 0 => .ok []
  | n + 1 => do
    let c ← peek string start
    if c = 0 then return []
    return c :: (← strndup (start + 1) n)

variable (delimiter : UInt8)

/-- `while (compress && p && *p == delimiter)`, with `compress`. -/
def skipPrefix : (fuel p : Nat) → Except Halt Nat
  | 0, _ => .error .hang
  | fuel + 1, p => do
    if (← peek string p) = delimiter then skipPrefix fuel (p + 1) else return p

/-- `while (p && *p && *p != delimiter)`. -/
def skipField : (fuel p : Nat) → Except Halt Nat
  | 0, _ => .error .hang
  | fuel + 1, p => do
    let c ← peek string p
    if c ≠ 0 ∧ c ≠ delimiter then skipField fuel (p + 1) else return p

variable (compress : Bool)

/-- The loop over the fields: `count` and the array. -/
def splitLoop : (fuel p count : Nat) → (array : Buffer (Option MbStr)) →
    Except Halt (Nat × Buffer (Option MbStr))
  | 0, _, _, _ => .error .hang
  | fuel + 1, p, count, array => do
    if (← peek string p) = 0 then return (count, array)
    let p ← if compress then skipPrefix string delimiter string.length p else pure p
    if (← peek string p) = 0 then return (count, array)
    -- found a field
    let count := count + 1
    let start := if compress then p else p + 1
    let p ← skipField string delimiter string.length start
    let elem ← strndup string start (p - start)
    let array ← access "split_fields" ((array.realloc (1 + count)).store (count - 1) (some elem))
    splitLoop fuel p count array

/-- `split_fields`: the count, and the array. -/
def splitFields : Except Halt (Nat × Buffer (Option MbStr)) := do
  if delimiter = 0 then .error (.assertFailed "split_fields")
  let array ← access "split_fields" ((Buffer.realloc [] 1).store 0 none)
  splitLoop string delimiter compress string.length 0 0 array

end Procenv.SplitFields
