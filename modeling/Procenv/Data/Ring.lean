import Mathlib.Data.List.Basic
import Mathlib.Data.List.Nodup
import Mathlib.Data.List.Perm.Subperm
import Mathlib.Data.List.Range
import Mathlib.Logic.Function.Basic
import Mathlib.Tactic.Common

/-!
# Circular doubly linked lists

Nodes linked by two functions, `next` and `prev`. `Seg a xs b` says that the nodes
`xs` link `a` to `b` in both directions, and `Ring head xs` that they link `head` to
itself, all nodes being different.

* `Ring.reverse`, `Ring.rotate`: a ring can be read backwards, and from every node.
* `Ring.linkAfter`: linking a node in after another one adds it there, and to no other ring.
* `Ring.remove`: unlinking a node takes it away, and from no other ring.
-/

namespace Procenv.Data

variable {α : Type*} {next prev next' prev' : α → α} {a b e x head : α} {xs ys : List α}

/-- The nodes `xs` link `a` to `b`. -/
def Seg (next prev : α → α) : α → List α → α → Prop
  | a, [], b => next a = b ∧ prev b = a
  | a, x :: xs, b => next a = x ∧ prev x = a ∧ Seg next prev x xs b

theorem seg_append :
    Seg next prev a (xs ++ x :: ys) b ↔ Seg next prev a xs x ∧ Seg next prev x ys b := by
  induction xs generalizing a with
  | nil => simp [Seg, and_assoc]
  | cons y xs ih => simp [Seg, ih, and_assoc]

/-- A segment depends on the forward links of all its nodes but the last, and on the backward
links of all but the first. -/
theorem Seg.congr (h : Seg next prev a xs b) (hn : ∀ y ∈ a :: xs, next' y = next y)
    (hp : ∀ y ∈ xs ++ [b], prev' y = prev y) : Seg next' prev' a xs b := by
  induction xs generalizing a with
  | nil =>
    obtain ⟨h1, h2⟩ := h
    exact ⟨by rw [hn a List.mem_cons_self, h1], by rw [hp b (by simp), h2]⟩
  | cons y xs ih =>
    obtain ⟨h1, h2, h3⟩ := h
    refine ⟨by rw [hn a List.mem_cons_self, h1], by rw [hp y (by simp), h2], ?_⟩
    exact ih h3 (fun z hz => hn z (List.mem_cons_of_mem _ hz))
      (fun z hz => hp z (List.mem_cons_of_mem _ hz))

/-- The nodes from one node to another are determined. -/
theorem Seg.unique (h : Seg next prev a xs b) (h' : Seg next prev a ys b) (hb : b ∉ xs) (hb' : b ∉ ys) :
    xs = ys := by
  induction xs generalizing a ys with
  | nil =>
    cases ys with
    | nil => rfl
    | cons y ys => exact absurd (h.1.symm.trans h'.1) fun hy => hb' (by simp [hy])
  | cons x xs ih =>
    cases ys with
    | nil => exact absurd (h'.1.symm.trans h.1) fun hx => hb (by simp [hx])
    | cons y ys =>
      obtain rfl : x = y := h.1.symm.trans h'.1
      rw [List.mem_cons, not_or] at hb hb'
      rw [ih h.2.2 h'.2.2 hb.2 hb'.2]

/-- The nodes `head :: xs` are a ring. -/
structure Ring (next prev : α → α) (head : α) (xs : List α) : Prop where
  nodup : (head :: xs).Nodup
  seg : Seg next prev head xs head

/-- A node linked to itself. -/
theorem Ring.single (hn : next a = a) (hp : prev a = a) : Ring next prev a [] := ⟨by simp, hn, hp⟩

/-- The node before the head is the last one. -/
theorem Ring.prev_head (h : Ring next prev head (xs ++ [e])) : prev head = e :=
  (seg_append.1 h.seg).2.2

theorem Ring.prev_head_nil (h : Ring next prev head []) : prev head = head := h.seg.2

theorem Ring.last_ne_head (h : Ring next prev head (xs ++ [e])) : e ≠ head := by
  rintro rfl
  have := h.nodup
  simp at this

/-- The node before the head belongs to the ring. -/
theorem Ring.prev_head_mem (h : Ring next prev head xs) : prev head ∈ head :: xs := by
  rcases List.eq_nil_or_concat' xs with rfl | ⟨ys, l, rfl⟩
  · simp [h.prev_head_nil]
  · simp [h.prev_head]

/-- So does the node before every other one. -/
theorem Ring.prev_mem (h : Ring next prev head xs) (hx : x ∈ head :: xs) : prev x ∈ head :: xs := by
  rcases List.mem_cons.1 hx with rfl | hx
  · exact h.prev_head_mem
  · obtain ⟨ys, zs, rfl⟩ := List.mem_iff_append.1 hx
    have hseg := (seg_append.1 h.seg).1
    rcases List.eq_nil_or_concat' ys with rfl | ⟨ys, l, rfl⟩
    · rw [hseg.2]
      exact List.mem_cons_self
    · rw [(seg_append.1 hseg).2.2]
      simp

theorem Ring.unique (h : Ring next prev head xs) (h' : Ring next prev head ys) : xs = ys :=
  h.seg.unique h'.seg (List.nodup_cons.1 h.nodup).1 (List.nodup_cons.1 h'.nodup).1

/-! ## Directions and starting points -/

/-- A segment read backwards. -/
theorem seg_reverse : Seg next prev a xs b ↔ Seg prev next b xs.reverse a := by
  induction xs generalizing a with
  | nil => exact and_comm
  | cons x xs ih =>
    rw [List.reverse_cons, seg_append, ← ih]
    simp only [Seg]
    tauto

/-- A ring read backwards. -/
theorem Ring.reverse (h : Ring next prev head xs) : Ring prev next head xs.reverse := by
  refine ⟨?_, seg_reverse.1 h.seg⟩
  rw [List.nodup_cons, List.mem_reverse, List.nodup_reverse]
  exact List.nodup_cons.1 h.nodup

/-- The node after one of the ring belongs to it. -/
theorem Ring.next_mem (h : Ring next prev head xs) (hx : x ∈ head :: xs) : next x ∈ head :: xs := by
  have := h.reverse.prev_mem (x := x) (by simpa using hx)
  simpa using this

/-- The same ring, from its second node on. -/
theorem Ring.rotate (h : Ring next prev head (x :: xs)) : Ring next prev x (xs ++ [head]) := by
  obtain ⟨h₁, h₂, h₃⟩ := h.seg
  refine ⟨?_, seg_append.2 ⟨h₃, h₁, h₂⟩⟩
  have := h.nodup
  rw [← List.cons_append]
  exact (List.perm_append_singleton head (x :: xs)).nodup_iff.2 this

/-- **The links of a ring are inverse to each other.** -/
theorem Ring.prev_next (h : Ring next prev head xs) : prev (next head) = head := by
  cases xs with
  | nil => rw [h.seg.1, h.seg.2]
  | cons x xs => rw [h.seg.1, h.seg.2.1]

theorem Ring.next_prev (h : Ring next prev head xs) : next (prev head) = head := h.reverse.prev_next

variable [DecidableEq α]

/-! ## Linking a node into a ring -/

/-- The list with `e` after `a`. -/
def insertAfter (a e : α) : List α → List α
  | [] => []
  | x :: xs => if x = a then x :: e :: xs else x :: insertAfter a e xs

theorem insertAfter_last (h : a ∉ xs) : insertAfter a e (xs ++ [a]) = xs ++ [a, e] := by
  induction xs with
  | nil => simp [insertAfter]
  | cons x xs ih =>
    simp only [List.mem_cons, not_or] at h
    rw [List.cons_append, insertAfter, if_neg (Ne.symm h.1), ih h.2, List.cons_append]

theorem mem_insertAfter (h : x ∈ insertAfter a e xs) : x = e ∨ x ∈ xs := by
  induction xs with
  | nil => simp [insertAfter] at h
  | cons y xs ih =>
    rw [insertAfter] at h
    split at h
    · simp only [List.mem_cons] at h ⊢
      tauto
    · simp only [List.mem_cons] at h ⊢
      tauto

theorem nodup_insertAfter (h : xs.Nodup) (he : e ∉ xs) : (insertAfter a e xs).Nodup := by
  induction xs with
  | nil => simp [insertAfter]
  | cons x xs ih =>
    simp only [List.mem_cons, not_or] at he
    obtain ⟨hx, hxs⟩ := List.nodup_cons.1 h
    rw [insertAfter]
    split
    · exact List.nodup_cons.2 ⟨by simp [hx, Ne.symm he.1], List.nodup_cons.2 ⟨he.2, hxs⟩⟩
    · refine List.nodup_cons.2 ⟨fun hmem => ?_, ih hxs he.2⟩
      rcases mem_insertAfter hmem with rfl | hmem
      · exact he.1 rfl
      · exact hx hmem

section Insert

/-- The forward links with `e` after `a`. -/
def linkNext (next : α → α) (a e : α) : α → α := Function.update (Function.update next e (next a)) a e

/-- The backward links with `e` after `a`. -/
def linkPrev (next prev : α → α) (a e : α) : α → α := Function.update (Function.update prev e a) (next a) e

variable (hinv : prev (next a) = a) (hea : e ≠ a)

include hinv

/-- A segment without `a` is left alone. -/
theorem Seg.insert_frame (h : Seg next prev x xs b) (ha : a ∉ x :: xs) (he : e ∉ x :: xs) (heb : e ≠ b) :
    Seg (linkNext next a e) (linkPrev next prev a e) x xs b := by
  -- the node after `a` comes after no other node
  have hprev : ∀ y, y ≠ e → prev y ≠ a → linkPrev next prev a e y = prev y := by
    intro y hy hya
    have : y ≠ next a := fun h => hya (h ▸ hinv)
    simp [linkPrev, this, hy]
  have hnext : ∀ y, y ≠ e → y ≠ a → linkNext next a e y = next y := by
    intro y hy hya
    simp [linkNext, hya, hy]
  induction xs generalizing x with
  | nil =>
    simp only [List.mem_singleton] at ha he
    obtain ⟨h₁, h₂⟩ := h
    refine ⟨by rw [hnext x (Ne.symm he) (Ne.symm ha), h₁], ?_⟩
    rw [hprev b (Ne.symm heb) (by rw [h₂]; exact Ne.symm ha), h₂]
  | cons y xs ih =>
    obtain ⟨h₁, h₂, h₃⟩ := h
    rw [List.mem_cons, not_or] at ha he
    have hey : y ≠ e := fun h => he.2 (by simp [h])
    refine ⟨by rw [hnext x (Ne.symm he.1) (Ne.symm ha.1), h₁], ?_, ih h₃ ha.2 he.2⟩
    rw [hprev y hey (by rw [h₂]; exact Ne.symm ha.1), h₂]

include hea

/-- A segment with `a` gets `e` after it. -/
theorem Seg.insert (h : Seg next prev x xs b) (hnd : (x :: xs).Nodup) (he : e ∉ x :: xs) (heb : e ≠ b) :
    ∃ ys, insertAfter a e (x :: xs) = x :: ys ∧ Seg (linkNext next a e) (linkPrev next prev a e) x ys b := by
  induction xs generalizing x with
  | nil =>
    by_cases hx : x = a
    · subst hx
      obtain ⟨h₁, -⟩ := h
      refine ⟨[e], by simp [insertAfter], by simp [linkNext], ?_, ?_, ?_⟩
      · have : e ≠ next x := by rw [h₁]; exact heb
        simp [linkPrev, this]
      · simp [linkNext, hea, h₁]
      · simp [linkPrev, h₁]
    · exact ⟨[], by simp [insertAfter, hx], h.insert_frame hinv (by simpa using Ne.symm hx) he heb⟩
  | cons y xs ih =>
    have hey : e ≠ y := fun h => he (by simp [h])
    by_cases hx : x = a
    · subst hx
      obtain ⟨h₁, -, h₃⟩ := h
      refine ⟨e :: y :: xs, by simp [insertAfter], by simp [linkNext], ?_, ?_, ?_, ?_⟩
      · have : e ≠ next x := by rw [h₁]; exact hey
        simp [linkPrev, this]
      · simp [linkNext, hea, h₁]
      · simp [linkPrev, h₁]
      · exact h₃.insert_frame hinv (List.nodup_cons.1 hnd).1 (fun h => he (List.mem_cons_of_mem _ h)) heb
    · obtain ⟨ys, hys, hseg⟩ := ih h.2.2 (List.nodup_cons.1 hnd).2 fun h => he (List.mem_cons_of_mem _ h)
      refine ⟨y :: ys, by rw [insertAfter, if_neg hx, hys], ?_⟩
      have hlink : Seg next prev x [] y := ⟨h.1, h.2.1⟩
      have := hlink.insert_frame hinv (by simpa using Ne.symm hx) (fun h => he (by simp_all)) hey
      exact ⟨this.1, this.2, hseg⟩

/-- **A node linked in after `a`** stands after it in the ring of `a`, and in no other one. -/
theorem Ring.linkAfter (h : Ring next prev head xs) (he : e ∉ head :: xs) :
    ∃ ys, insertAfter a e (head :: xs) = head :: ys ∧
      Ring (linkNext next a e) (linkPrev next prev a e) head ys := by
  obtain ⟨ys, hys, hseg⟩ := h.seg.insert hinv hea h.nodup he fun h => he (by simp [h])
  exact ⟨ys, hys, hys ▸ nodup_insertAfter h.nodup he, hseg⟩

end Insert

/-- A node linked in before the head is the last one. -/
theorem Ring.linkBefore (h : Ring next prev head xs) (he : e ∉ head :: xs) :
    Ring (linkNext next (prev head) e) (linkPrev next prev (prev head) e) head (xs ++ [e]) := by
  have hinv : prev (next (prev head)) = prev head := by rw [h.next_prev]
  have hlast : insertAfter (prev head) e (head :: xs) = head :: (xs ++ [e]) := by
    rcases List.eq_nil_or_concat' xs with rfl | ⟨ys, l, rfl⟩
    · rw [h.prev_head_nil]
      simp [insertAfter]
    · have hl : l ∉ head :: ys := by
        have := h.nodup
        rw [← List.cons_append] at this
        exact fun hmem => (List.nodup_append.1 this).2.2 l hmem l (by simp) rfl
      rw [h.prev_head, ← List.cons_append, insertAfter_last hl]
      simp
  have hne : e ≠ prev head := fun h' => he (by rw [h']; exact h.prev_head_mem)
  obtain ⟨ys, hys, hr⟩ := h.linkAfter hinv hne he
  rw [hlast] at hys
  rwa [(List.cons.inj hys).2]

/-! ## Unlinking a node -/

section Remove

/-- The links in one direction without `e`, from those in both. -/
def unlink (next prev : α → α) (e : α) : α → α := Function.update (Function.update next (prev e) (next e)) e e

variable (hnp : next (prev e) = e) (hpn : prev (next e) = e)

include hnp hpn

/-- A segment without `e` is left alone. -/
theorem Seg.remove_frame (h : Seg next prev a xs b) (he : e ∉ a :: xs) (hb : b ≠ e) :
    Seg (unlink next prev e) (unlink prev next e) a xs b := by
  have hlink : ∀ x y, next x = y → prev y = x → x ≠ e → y ≠ e →
      unlink next prev e x = y ∧ unlink prev next e y = x := by
    intro x y h₁ h₂ hx hy
    have hx' : x ≠ prev e := fun h => hy (by rw [← h₁, h, hnp])
    have hy' : y ≠ next e := fun h => hx (by rw [← h₂, h, hpn])
    exact ⟨by simp [unlink, hx, hx', h₁], by simp [unlink, hy, hy', h₂]⟩
  induction xs generalizing a with
  | nil => exact hlink a b h.1 h.2 (fun h => he (by simp [h])) hb
  | cons x xs ih =>
    obtain ⟨h₁, h₂, h₃⟩ := h
    rw [List.mem_cons, not_or] at he
    obtain ⟨h₄, h₅⟩ := hlink a x h₁ h₂ (Ne.symm he.1) fun h => he.2 (by simp [h])
    exact ⟨h₄, h₅, ih h₃ he.2⟩

/-- A segment loses `e`. -/
theorem Seg.remove (h : Seg next prev a xs b) (hnd : xs.Nodup) (ha : a ≠ e) (hb : b ≠ e) :
    Seg (unlink next prev e) (unlink prev next e) a (xs.erase e) b := by
  induction xs generalizing a with
  | nil => exact h.remove_frame hnp hpn (by simpa using Ne.symm ha) hb
  | cons x xs ih =>
    obtain ⟨h₁, h₂, h₃⟩ := h
    obtain ⟨hx, hxs⟩ := List.nodup_cons.1 hnd
    by_cases hxe : x = e
    · -- `a` and the node after `e` become neighbours
      subst hxe
      rw [List.erase_cons_head]
      cases xs with
      | nil => exact ⟨by simp [unlink, ha, h₂, h₃.1], by simp [unlink, hb, h₂, h₃.1]⟩
      | cons y xs =>
        have hy : y ≠ x := fun h => hx (by simp [h])
        exact ⟨by simp [unlink, ha, h₂, h₃.1], by simp [unlink, hy, h₂, h₃.1],
          h₃.2.2.remove_frame hnp hpn hx hb⟩
    · rw [List.erase_cons_tail (by simpa using hxe)]
      have hlink : Seg next prev a [] x := ⟨h₁, h₂⟩
      obtain ⟨h₄, h₅⟩ := hlink.remove_frame hnp hpn (by simpa using Ne.symm ha) hxe
      exact ⟨h₄, h₅, ih h₃ hxs hxe⟩

/-- **A node that is unlinked** is missing in its ring, and in no other one. -/
theorem Ring.remove (h : Ring next prev head xs) (he : head ≠ e) :
    Ring (unlink next prev e) (unlink prev next e) head (xs.erase e) := by
  obtain ⟨hhead, hxs⟩ := List.nodup_cons.1 h.nodup
  exact ⟨List.nodup_cons.2 ⟨fun hmem => hhead (List.mem_of_mem_erase hmem), hxs.erase e⟩,
    h.seg.remove hnp hpn hxs he he⟩

end Remove

/-- Different nodes below a bound are no more than the bound. -/
theorem length_le_of_nodup {n : Nat} {l : List Nat} (h : l.Nodup) (hl : ∀ y ∈ l, y < n) : l.length ≤ n := by
  have := (List.subperm_of_subset h fun y hy => List.mem_range.2 (hl y hy)).length_le
  simpa using this

end Procenv.Data
