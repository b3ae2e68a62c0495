import Mathlib.Data.List.Induction
import Mathlib.Tactic.Common

/-!
# Insertion behind equals

An entry is inserted before the first element that is strictly above it, so behind all that
it ties with (`insertBehind`). Entries inserted one after the other come out in the order of
the stable sort, for any total preorder.

* `insertBehind_split`: where an entry is inserted.
* `insertBehind_comm`: a later entry and an earlier one, inserted from opposite sides of
  their ties, commute.
* `mergeSort_concat`: the stable sort with one more entry at the end.
* `foldl_insertBehind`: **inserting one after the other sorts**.
-/

namespace Procenv.Data

variable {α : Type*} {le : α → α → Bool}

/-- Put `e` before the first element that is strictly above it. -/
def insertBehind (le : α → α → Bool) (e : α) : List α → List α
  | [] => [e]
  | x :: xs => if le x e then x :: insertBehind le e xs else e :: x :: xs

theorem insertBehind_perm (e : α) (xs : List α) : (insertBehind le e xs).Perm (e :: xs) := by
  induction xs with
  | nil => exact List.Perm.refl _
  | cons x xs ih =>
    by_cases hx : le x e = true
    · rw [insertBehind, if_pos hx]
      exact (ih.cons x).trans (List.Perm.swap e x xs)
    · rw [insertBehind, if_neg hx]

/-- The place of the insertion. -/
theorem insertBehind_split (e : α) (xs : List α) :
    ∃ l₁ l₂, xs = l₁ ++ l₂ ∧ insertBehind le e xs = l₁ ++ e :: l₂ ∧ (∀ x ∈ l₁, le x e = true) ∧
      ∀ x ∈ l₂.head?, le x e = false := by
  induction xs with
  | nil => exact ⟨[], [], rfl, rfl, by simp, by simp⟩
  | cons x xs ih =>
    by_cases hx : le x e = true
    · obtain ⟨l₁, l₂, rfl, hins, hbelow, habove⟩ := ih
      refine ⟨x :: l₁, l₂, rfl, ?_, List.forall_mem_cons.2 ⟨hx, hbelow⟩, habove⟩
      rw [insertBehind, if_pos hx, hins]
      rfl
    · exact ⟨[], x :: xs, rfl, by rw [insertBehind, if_neg hx]; rfl, by simp, by simpa using hx⟩

/-- Put `a` before the first element that is not strictly below it. -/
def insertBefore (le : α → α → Bool) (a : α) : List α → List α
  | [] => [a]
  | x :: xs => if le a x then a :: x :: xs else x :: insertBefore le a xs

theorem insertBefore_append {a : α} {xs ys : List α} (hxs : ∀ x ∈ xs, le a x = false)
    (hys : ∀ y ∈ ys.head?, le a y = true) : insertBefore le a (xs ++ ys) = xs ++ a :: ys := by
  induction xs with
  | nil =>
    cases ys with
    | nil => rfl
    | cons y ys => simp [insertBefore, hys y rfl]
  | cons x xs ih =>
    have hx := hxs x List.mem_cons_self
    have hrest := ih fun y hy => hxs y (List.mem_cons_of_mem _ hy)
    simp [insertBefore, hx, hrest]

variable (trans : ∀ a b c, le a b = true → le b c = true → le a c = true)
  (total : ∀ a b, (le a b || le b a) = true)

include trans total

/-- An entry `a` that came before `e` ends up before it where they tie, in either order of the two
insertions. -/
theorem insertBehind_comm (a e : α) (xs : List α) :
    insertBehind le e (insertBefore le a xs) = insertBefore le a (insertBehind le e xs) := by
  have hnot : ∀ {x y}, le x y = false → le y x = true := by
    intro x y hxy
    have htotal := total x y
    rwa [hxy, Bool.false_or] at htotal
  induction xs with
  | nil =>
    by_cases hae : le a e = true
    · simp [insertBehind, insertBefore, hae]
    · simp [insertBehind, insertBefore, hae]
  | cons x xs ih =>
    by_cases hax : le a x = true
    · by_cases hxe : le x e = true
      · -- `a ≤ x ≤ e`
        have hae : le a e = true := trans _ _ _ hax hxe
        simp [insertBehind, insertBefore, hax, hxe, hae]
      · by_cases hae : le a e = true <;> simp [insertBehind, insertBefore, hax, hxe, hae]
    · by_cases hxe : le x e = true
      · simp [insertBehind, insertBefore, hax, hxe, ih]
      · -- `e < x < a`
        have hae : ¬ le a e = true := fun hae => hxe (trans _ _ _ (hnot (by simpa using hax)) hae)
        simp [insertBehind, insertBefore, hax, hxe, hae]

theorem mergeSort_cons_eq (a : α) (xs : List α) :
    (a :: xs).mergeSort le = insertBefore le a (xs.mergeSort le) := by
  obtain ⟨l₁, l₂, hcons, hxs, hbelow⟩ := List.mergeSort_cons trans total a xs
  rw [hcons, hxs, insertBefore_append]
  · intro x hx
    simpa using hbelow x hx
  · intro y hy
    have hsorted := List.pairwise_mergeSort trans total (a :: xs)
    rw [hcons] at hsorted
    have hafter := (List.pairwise_cons.1 (List.pairwise_append.1 hsorted).2.1).1
    exact hafter y (List.mem_of_mem_head? hy)

/-- **The stable sort with one more entry at the end.** -/
theorem mergeSort_concat (e : α) (xs : List α) :
    (xs ++ [e]).mergeSort le = insertBehind le e (xs.mergeSort le) := by
  induction xs with
  | nil => simp [insertBehind]
  | cons a xs ih =>
    rw [List.cons_append, mergeSort_cons_eq trans total, ih, ← insertBehind_comm trans total,
      ← mergeSort_cons_eq trans total]

/-- **Inserting one after the other sorts**, and keeps the order of ties. -/
theorem foldl_insertBehind (xs : List α) :
    xs.foldl (fun ys e => insertBehind le e ys) [] = xs.mergeSort le := by
  induction xs using List.reverseRecOn with
  | nil => simp
  | append_singleton xs e ih =>
    rw [List.foldl_append, ih, mergeSort_concat trans total]
    rfl

end Procenv.Data
