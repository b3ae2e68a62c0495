import Mathlib.Data.List.Basic
import Mathlib.Tactic.Common

/-!
# Buffers that hold terminated strings

A buffer is the list of its cells; in a cell that was never written stands no value.
`string` reads the values up to the terminator `z`, and the operations are those of a
library of terminated strings: an access outside the cells, or of a cell without a
value, has no result.

* `string_eq_some`: a buffer with a string is the string, the terminator and other cells.
* `storeAll_eq`: what a sequence of stores leaves.
* `string_of_take`: a string depends on its own cells only.
* `string_cut`: what a terminator leaves of a string.
* `cat_string`: what appending leaves.
-/

namespace Procenv.Data

/-- The cells of a buffer. -/
abbrev Buffer (α : Type*) := List (Option α)

namespace Buffer

variable {α : Type*} {z x : α} {b b' : Buffer α} {t s src : List α} {i n k : Nat}

/-- `realloc`: what fits is kept, and the new cells have no value. -/
def realloc (b : Buffer α) (n : Nat) : Buffer α := b.take n ++ List.replicate (n - b.length) none

/-- A store to a cell. -/
def store (b : Buffer α) (i : Nat) (x : α) : Option (Buffer α) :=
  if i < b.length then some (b.set i (some x)) else none

/-- Stores to consecutive cells. -/
def storeAll (b : Buffer α) (i : Nat) : List α → Option (Buffer α)
  | [] => some b
  | x :: xs => (b.store i x).bind fun b => b.storeAll (i + 1) xs

/-- The string that the buffer starts with. -/
def string [DecidableEq α] (z : α) : Buffer α → Option (List α)
  | some x :: b => if x = z then some [] else (string z b).map (x :: ·)
  | _ => none

/-- Append the first `n` characters of a string to the one that starts in cell `i`. -/
def cat [DecidableEq α] (z : α) (b : Buffer α) (i : Nat) (src : List α) (n : Nat) : Option (Buffer α) :=
  (string z (b.drop i)).bind fun s => b.storeAll (i + s.length) (src.take n ++ [z])

@[simp] theorem length_realloc : (b.realloc n).length = n := by
  simp only [realloc, List.length_append, List.length_take, List.length_replicate]
  omega

theorem take_realloc (hb : k ≤ b.length) (hn : k ≤ n) : (b.realloc n).take k = b.take k := by
  rw [realloc, List.take_append_of_le_length (by simp; omega), List.take_take, Nat.min_eq_left hn]

theorem take_store (h : b.store i x = some b') (hk : k ≤ i) : b'.take k = b.take k := by
  unfold store at h
  split at h
  · rw [← Option.some.inj h, List.take_set_of_le hk]
  · cases h

theorem length_store (h : b.store i x = some b') : i < b'.length ∧ b'.length = b.length := by
  unfold store at h
  split at h
  · rename_i hi
    rw [← Option.some.inj h, List.length_set]
    exact ⟨hi, rfl⟩
  · cases h

/-- A sequence of stores inside the buffer. -/
theorem storeAll_eq (h : i + s.length ≤ b.length) :
    b.storeAll i s = some (b.take i ++ s.map some ++ b.drop (i + s.length)) := by
  induction s generalizing b i with
  | nil => simp [storeAll]
  | cons x s ih =>
    simp only [List.length_cons] at h
    have hi : i < b.length := by omega
    rw [storeAll, store, if_pos hi, Option.bind_some, ih (by simp; omega)]
    have htake : (b.set i (some x)).take (i + 1) = b.take i ++ [some x] := by
      have hlen : (b.take i).length = i := by simp; omega
      rw [List.take_set, List.take_succ_eq_append_getElem hi, List.set_append_right _ _ (Nat.le_of_eq hlen), hlen]
      simp
    have hdrop : (b.set i (some x)).drop (i + 1 + s.length) = b.drop (i + (s.length + 1)) := by
      rw [List.drop_set_of_lt (by omega)]
      congr 1
      omega
    rw [htake, hdrop]
    simp

/-- Stores do not change the number of cells. -/
theorem length_storeAll (h : b.storeAll i s = some b') : b'.length = b.length := by
  induction s generalizing b i with
  | nil => rw [← Option.some.inj h]
  | cons x s ih =>
    rw [storeAll] at h
    obtain ⟨b₁, h₁, h₂⟩ := Option.bind_eq_some_iff.1 h
    rw [ih h₂, (length_store h₁).2]

/-- A sequence of stores leaves the cells before it alone. -/
theorem take_storeAll (h : b.storeAll i s = some b') (hk : k ≤ i) : b'.take k = b.take k := by
  induction s generalizing b i with
  | nil => rw [← Option.some.inj h]
  | cons x s ih =>
    rw [storeAll] at h
    obtain ⟨b₁, h₁, h₂⟩ := Option.bind_eq_some_iff.1 h
    rw [ih h₂ (by omega), take_store h₁ hk]

/-- The buffer of a string with room for `n` more cells. -/
theorem realloc_string (rest : Buffer α) :
    realloc (t.map some ++ some z :: rest) (1 + (t.length + n)) = t.map some ++ some z :: rest.realloc n := by
  rw [realloc, List.take_append, List.length_map, List.take_of_length_le (by simp; omega),
    show 1 + (t.length + n) - t.length = n + 1 by omega, List.take_succ_cons]
  simp only [realloc, List.append_assoc, List.cons_append, List.length_append, List.length_map, List.length_cons]
  congr 4
  omega

variable [DecidableEq α]

/-- **A buffer with a string is the string, the terminator and other cells.** -/
theorem string_eq_some : string z b = some t ↔ z ∉ t ∧ ∃ rest, b = t.map some ++ some z :: rest := by
  induction b generalizing t with
  | nil => simp [string]
  | cons c b ih =>
    cases c with
    | none => cases t <;> simp [string]
    | some x =>
      rw [string]
      split
      · rename_i hx
        subst hx
        constructor
        · intro h
          rw [← Option.some.inj h]
          exact ⟨by simp, b, rfl⟩
        · rintro ⟨hz, rest, h⟩
          cases t with
          | nil => rfl
          | cons y t =>
            simp only [List.map_cons, List.cons_append, List.cons.injEq, Option.some.injEq] at h
            exact absurd h.1 fun h => hz (by simp [h])
      · rename_i hx
        constructor
        · intro h
          obtain ⟨t', ht', rfl⟩ := Option.map_eq_some_iff.1 h
          obtain ⟨hz, rest, rfl⟩ := ih.1 ht'
          exact ⟨by simp [hz, Ne.symm hx], rest, rfl⟩
        · rintro ⟨hz, rest, h⟩
          cases t with
          | nil =>
            simp only [List.map_nil, List.nil_append, List.cons.injEq, Option.some.injEq] at h
            exact absurd h.1 hx
          | cons y t =>
            simp only [List.map_cons, List.cons_append, List.cons.injEq, Option.some.injEq] at h
            obtain ⟨rfl, rfl⟩ := h
            simp only [List.mem_cons, not_or] at hz
            rw [ih.2 ⟨hz.2, rest, rfl⟩]
            rfl

theorem string_map (hz : z ∉ t) (rest : Buffer α) : string z (t.map some ++ some z :: rest) = some t :=
  string_eq_some.2 ⟨hz, rest, rfl⟩

theorem length_lt_of_string (h : string z b = some t) : t.length < b.length := by
  obtain ⟨-, rest, rfl⟩ := string_eq_some.1 h
  simp

/-- **A string depends on its own cells only.** -/
theorem string_of_take (h : string z b = some t) (hb : b'.take (t.length + 1) = b.take (t.length + 1)) :
    string z b' = some t := by
  obtain ⟨hz, rest, rfl⟩ := string_eq_some.1 h
  have htake : (t.map some ++ some z :: rest).take (t.length + 1) = t.map some ++ [some z] := by
    have hlen : (t.map some).length = t.length := List.length_map some
    rw [← hlen, List.take_length_add_append]
    rfl
  rw [htake] at hb
  refine string_eq_some.2 ⟨hz, b'.drop (t.length + 1), ?_⟩
  conv_lhs => rw [← List.take_append_drop (t.length + 1) b', hb]
  simp

/-- A terminator in cell `n` cuts the string there. -/
theorem string_cut (h : string z b = some t) (n : Nat) : string z (b.take n ++ [some z]) = some (t.take n) := by
  obtain ⟨hz, rest, rfl⟩ := string_eq_some.1 h
  by_cases hn : n ≤ t.length
  · rw [List.take_append_of_le_length (by simpa using hn), ← List.map_take]
    exact string_map (fun h => hz (List.mem_of_mem_take h)) []
  · -- the string ends before the cell
    obtain ⟨k, rfl⟩ : ∃ k, n = t.length + (k + 1) := ⟨n - t.length - 1, by omega⟩
    have htake : (t.map some ++ some z :: rest).take (t.length + (k + 1)) =
      t.map some ++ some z :: rest.take k := by
      have hlen : (t.map some).length = t.length := List.length_map some
      rw [← hlen, List.take_length_add_append, List.take_succ_cons]
    rw [htake, List.append_assoc, List.cons_append, string_map hz, List.take_of_length_le (Nat.le_add_right ..)]

/-- The cells before the one where appending starts are left alone. -/
theorem take_cat (h : cat z b i src n = some b') : b'.take i = b.take i := by
  obtain ⟨s, -, hs⟩ := Option.bind_eq_some_iff.1 h
  exact take_storeAll hs (by omega)

theorem length_cat (h : cat z b i src n = some b') : b'.length = b.length := by
  obtain ⟨s, -, hs⟩ := Option.bind_eq_some_iff.1 h
  exact length_storeAll hs

/-- **Appending to the string at the start.** -/
theorem cat_string (hz : z ∉ t) {rest : Buffer α} (h : (src.take n).length ≤ rest.length) :
    cat z (t.map some ++ some z :: rest) 0 src n =
      some ((t ++ src.take n).map some ++ some z :: rest.drop (src.take n).length) := by
  have hlen : (t.map some).length = t.length := List.length_map some
  have hroom : t.length + (src.take n ++ [z]).length ≤ (t.map some ++ some z :: rest).length := by
    simp only [List.length_append, List.length_map, List.length_cons, List.length_nil]
    omega
  rw [cat, List.drop_zero, string_map hz, Option.bind_some, Nat.zero_add, storeAll_eq hroom]
  have htake : (t.map some ++ some z :: rest).take t.length = t.map some := by
    rw [← hlen, List.take_left]
  have hdrop : (t.map some ++ some z :: rest).drop (t.length + (src.take n ++ [z]).length) =
      rest.drop (src.take n).length := by
    rw [← hlen, List.drop_length_add_append, List.length_append, List.length_singleton, List.drop_succ_cons]
  rw [htake, hdrop]
  simp

/-- Appending to the empty string in cell `i`. -/
theorem cat_eq (hi : b.drop i = some z :: b') (hn : src.length ≤ n) (h : i + src.length < b.length) :
    cat z b i src n = some (b.take i ++ (src ++ [z]).map some ++ b.drop (i + (src.length + 1))) := by
  rw [cat, hi, string, if_pos rfl, Option.bind_some, List.take_of_length_le hn, storeAll_eq (by simp; omega)]
  simp

end Buffer

end Procenv.Data
