import Mathlib.Data.List.TakeWhile

/-!
# Trees by the indent of their lines

A forest of labels is written in pre-order, a line for each node, with the depth that the
node has. From the depths the forest is read back: going through the lines from the last
one to the first, a line takes the trees below it that are deeper as its children.

* `Forest.foldr_lines`: reading the lines of a forest before other lines.
* `Forest.read_lines`: **the forest is read back from its lines**.
-/

namespace Procenv.Data

/-- Trees of labels, side by side. -/
inductive Forest (α : Type)
  | nil
  | node (label : α) (kids next : Forest α)
deriving DecidableEq, Repr

namespace Forest

variable {α : Type}

/-- The labels in pre-order, with their depths. -/
def lines : (depth : Nat) → Forest α → List (Nat × α)
  | _, nil => []
  | depth, node label kids next => (depth, label) :: (kids.lines (depth + 1) ++ next.lines depth)

/-- A tree that has been read: the depth of its root, its label and what is below it. -/
structure Root (α : Type) where
  depth : Nat
  label : α
  kids : Forest α

/-- Trees side by side. -/
def ofRoots (roots : List (Root α)) : Forest α := roots.foldr (fun r next => node r.label r.kids next) nil

/-- A line before trees: those that are deeper are its children. -/
def attach (line : Nat × α) (roots : List (Root α)) : List (Root α) :=
  ⟨line.1, line.2, ofRoots (roots.takeWhile fun r => line.1 < r.depth)⟩ ::
    roots.dropWhile fun r => line.1 < r.depth

/-- The forest of lines. -/
def read (ls : List (Nat × α)) : Forest α := ofRoots (ls.foldr attach [])

/-- The trees of a forest whose roots are at a depth. -/
def roots (depth : Nat) : Forest α → List (Root α)
  | nil => []
  | node label kids next => ⟨depth, label, kids⟩ :: next.roots depth

theorem ofRoots_roots (depth : Nat) (f : Forest α) : ofRoots (f.roots depth) = f := by
  induction f with
  | nil => rfl
  | node label kids next _ ih =>
    rw [roots, ofRoots, List.foldr_cons]
    exact congrArg (node label kids) ih

theorem depth_roots (depth : Nat) (f : Forest α) : ∀ r ∈ f.roots depth, r.depth = depth := by
  induction f with
  | nil => simp [roots]
  | node label kids next _ ih => simpa [roots] using ih

/-- A root at a depth takes the forest below it, up to the next tree that is not deeper. -/
theorem attach_roots (depth : Nat) (label : α) (kids : Forest α) {rest : List (Root α)}
    (hrest : ∀ r ∈ rest.head?, r.depth ≤ depth) :
    attach (depth, label) (kids.roots (depth + 1) ++ rest) = ⟨depth, label, kids⟩ :: rest := by
  have hkids : ∀ r ∈ kids.roots (depth + 1), decide (depth < r.depth) = true := by
    intro r hr
    rw [depth_roots _ _ r hr]
    exact decide_eq_true (Nat.lt_succ_self depth)
  have hstop : rest.takeWhile (fun r => decide (depth < r.depth)) = [] ∧
      rest.dropWhile (fun r => decide (depth < r.depth)) = rest := by
    cases rest with
    | nil => exact ⟨rfl, rfl⟩
    | cons r rest =>
      have hr : ¬ depth < r.depth := Nat.not_lt.2 (hrest r rfl)
      simp [hr]
  rw [attach, List.takeWhile_append_of_pos hkids, List.dropWhile_append_of_pos hkids, hstop.1, hstop.2,
    List.append_nil, ofRoots_roots]

/-- **Reading the lines of a forest before trees that are not deeper** puts its trees before them. -/
theorem foldr_lines (f : Forest α) : ∀ (depth : Nat) (rest : List (Root α)),
    (∀ r ∈ rest.head?, r.depth ≤ depth) → (f.lines depth).foldr attach rest = f.roots depth ++ rest := by
  induction f with
  | nil => exact fun _ _ _ => rfl
  | node label kids next ihk ihn =>
    intro depth rest hrest
    have hhead : ∀ r ∈ (next.roots depth ++ rest).head?, r.depth ≤ depth := by
      cases next with
      | nil => exact hrest
      | node label' kids' next' =>
        intro r hr
        obtain rfl : _ = r := Option.some.inj hr
        exact Nat.le_refl depth
    rw [lines, List.foldr_cons, List.foldr_append, ihn depth rest hrest,
      ihk (depth + 1) _ fun r hr => Nat.le_succ_of_le (hhead r hr), attach_roots depth label kids hhead]
    rfl

/-- **The forest is read back from its lines**, at whatever depth they start. -/
theorem read_lines (depth : Nat) (f : Forest α) : read (f.lines depth) = f := by
  rw [read, foldr_lines f depth [] (by simp), List.append_nil, ofRoots_roots]

end Forest

end Procenv.Data
