import Procenv.Data.Insertion
import Procenv.Proof.PrOps

/-!
# Sorted lists

`pr_list_prepend_sorted` inserts before the first node that the entry comes strictly before,
which is `insertBehind` of the comparison; so a sequence of insertions is the stable sort.
`pr_list_append_sorted` is the same function on the list read backwards (`PrHeap.mirror`).

* `prListPrepend_before`: what prepending to a node in the middle of a list does.
* `prependSorted_ring`: one sorted insertion.
* `prependAllSorted_ring`: **a sequence of them**.
* `prListAppendSorted_mirror`: the two insertions mirror each other.
-/

namespace Procenv

open Data

variable {δ : Type} {h h' : PrHeap δ} {list e p : Nat} {xs ys entries : List Nat} {cmp : PrListCmp δ}

/-! ## Comparisons -/

/-- The comparison orders the nodes with the data of `h` by a total preorder, whatever their links. -/
structure PrListCmp.TotalPreorder (cmp : PrListCmp δ) (h : PrHeap δ) : Prop where
  links : ∀ h' : PrHeap δ, h'.data = h.data → ∀ p q, cmp h' p q = cmp h p q
  swap : ∀ p q, cmp h p q < 0 ↔ 0 < cmp h q p
  trans : ∀ p q r, cmp h p q ≤ 0 → cmp h q r ≤ 0 → cmp h p r ≤ 0

/-- Whether `p` may stand before `q`. -/
def PrListCmp.le (cmp : PrListCmp δ) (h : PrHeap δ) (p q : Nat) : Bool := decide (cmp h p q ≤ 0)

namespace PrListCmp.TotalPreorder

variable (hc : cmp.TotalPreorder h)

include hc

theorem congr (hd : h'.data = h.data) : cmp.TotalPreorder h' where
  links h'' hd' p q := by rw [hc.links h'' (hd'.trans hd), hc.links h' hd]
  swap p q := by simpa only [hc.links h' hd] using hc.swap p q
  trans p q r := by simpa only [hc.links h' hd] using hc.trans p q r

theorem le_congr (hd : h'.data = h.data) : cmp.le h' = cmp.le h := by
  funext p q
  rw [PrListCmp.le, PrListCmp.le, hc.links h' hd]

theorem le_trans (p q r : Nat) (hpq : cmp.le h p q = true) (hqr : cmp.le h q r = true) : cmp.le h p r = true := by
  simp only [PrListCmp.le, decide_eq_true_eq] at *
  exact hc.trans p q r hpq hqr

theorem le_total (p q : Nat) : (cmp.le h p q || cmp.le h q p) = true := by
  have hswap := hc.swap q p
  simp only [PrListCmp.le, Bool.or_eq_true, decide_eq_true_eq]
  omega

/-- The test of the loop. -/
theorem lt_iff (p q : Nat) : cmp h p q < 0 ↔ cmp.le h q p = false := by
  have hswap := hc.swap p q
  simp only [PrListCmp.le, decide_eq_false_iff_not]
  omega

end PrListCmp.TotalPreorder

theorem strcmp_swap (a b : MbStr) : strcmp b a = -strcmp a b := by
  induction a generalizing b with
  | nil => cases b <;> rfl
  | cons x a ih =>
    cases b with
    | nil => rfl
    | cons y b =>
      by_cases hxy : x = y
      · simp [strcmp, hxy, ih]
      · rcases UInt8.lt_or_lt_of_ne hxy with hlt | hlt
        · simp [strcmp, hxy, Ne.symm hxy, hlt, UInt8.lt_asymm hlt]
        · simp [strcmp, hxy, Ne.symm hxy, hlt, UInt8.lt_asymm hlt]

theorem strcmp_trans {a b c : MbStr} (hab : strcmp a b ≤ 0) (hbc : strcmp b c ≤ 0) : strcmp a c ≤ 0 := by
  induction a generalizing b c with
  | nil => cases c <;> simp [strcmp]
  | cons x a ih =>
    cases b with
    | nil => simp [strcmp] at hab
    | cons y b =>
      cases c with
      | nil => simp [strcmp] at hbc
      | cons z c =>
        by_cases hxy : x = y
        · by_cases hyz : y = z
          · simp only [strcmp, hxy, hyz, if_true] at hab hbc ⊢
            exact ih hab hbc
          · simpa [strcmp, hxy, hyz] using hbc
        · have hlt : x < y := by
            by_contra hge
            simp [strcmp, hxy, hge] at hab
          by_cases hyz : y = z
          · subst hyz
            simp [strcmp, hxy, hlt]
          · have hlt' : y < z := by
              by_contra hge
              simp [strcmp, hyz, hge] at hbc
            have hxz := UInt8.lt_trans hlt hlt'
            simp [strcmp, UInt8.ne_of_lt hxz, hxz]

theorem byteLe_total (s t : MbStr) : (byteLe s t || byteLe t s) = true := by
  have hswap := strcmp_swap s t
  simp only [byteLe, Bool.or_eq_true, decide_eq_true_eq]
  omega

theorem byteLe_trans (s t u : MbStr) (hst : byteLe s t = true) (htu : byteLe t u = true) : byteLe s u = true := by
  simp only [byteLe, decide_eq_true_eq] at *
  exact strcmp_trans hst htu

/-- The test of the sorted insertion. -/
theorem strcmp_neg_iff (s t : MbStr) : strcmp s t < 0 ↔ byteLe t s = false := by
  have hswap := strcmp_swap s t
  simp only [byteLe, decide_eq_false_iff_not]
  omega

/-- `pr_list_cmp_str` orders the nodes by their strings. -/
theorem prListCmpStr_totalPreorder (h : PrHeap MbStr) : PrListCmp.TotalPreorder prListCmpStr h where
  links h' hd p q := by simp only [prListCmpStr, hd]
  swap p q := by
    unfold prListCmpStr
    cases h.data p with
    | none => cases h.data q <;> simp
    | some a =>
      cases h.data q with
      | none => simp
      | some b =>
        have hswap := strcmp_swap a b
        simp only
        omega
  trans p q r := by
    unfold prListCmpStr
    cases h.data p with
    | none => cases h.data r <;> simp
    | some a =>
      cases h.data q with
      | none => simp
      | some b =>
        cases h.data r with
        | none => simp
        | some c => exact strcmp_trans

/-! ## One insertion -/

/-- Prepending to a node of a list puts the entry before it. -/
theorem prListPrepend_before (hr : Ring h.next h.prev list (xs ++ p :: ys)) (he : e ∉ list :: (xs ++ p :: ys)) :
    Ring (prListPrepend h p e).next (prListPrepend h p e).prev list (xs ++ e :: p :: ys) := by
  -- from `p` on, the entry becomes the last node
  have hrot : ∀ {next prev : Nat → Nat} (as bs : List Nat) (head q : Nat),
      Ring next prev head (as ++ q :: bs) → Ring next prev q (bs ++ head :: as) := by
    intro next prev as bs head q hring
    induction as generalizing head bs with
    | nil => simpa using hring.rotate
    | cons a as ih =>
      have hnext := ih (bs ++ [head]) a (by simpa using hring.rotate)
      simpa using hnext
  have hp : Ring h.next h.prev p (ys ++ list :: xs) := hrot xs ys list p hr
  have he' : e ∉ p :: (ys ++ list :: xs) := by
    intro hmem
    apply he
    simp only [List.mem_cons, List.mem_append] at hmem ⊢
    tauto
  have hring := prListPrepend_ring hp he'
  have hback := hrot ys (xs ++ [e]) p list (by simpa using hring)
  simpa using hback

/-- Where the loop stops, as a place in the list. -/
theorem sortedNode_split (hc : cmp.TotalPreorder h) (list e : Nat) (xs : List Nat) :
    (∃ as p bs, xs = as ++ p :: bs ∧ sortedNode h cmp list e xs = p ∧
        insertBehind (cmp.le h) e xs = as ++ e :: p :: bs) ∨
      sortedNode h cmp list e xs = list ∧ insertBehind (cmp.le h) e xs = xs ++ [e] := by
  induction xs with
  | nil => exact Or.inr ⟨rfl, rfl⟩
  | cons x xs ih =>
    by_cases hlt : cmp h e x < 0
    · have hle := (hc.lt_iff e x).1 hlt
      refine Or.inl ⟨[], x, xs, rfl, by simp [sortedNode, hlt], by simp [insertBehind, hle]⟩
    · have hle : cmp.le h x e = true := by
        have hiff := hc.lt_iff e x
        simpa using mt hiff.2 hlt
      have hnode : sortedNode h cmp list e (x :: xs) = sortedNode h cmp list e xs := by
        simp [sortedNode, hlt]
      rcases ih with ⟨as, p, bs, hxs, hp, hins⟩ | ⟨hp, hins⟩
      · exact Or.inl ⟨x :: as, p, bs, by rw [hxs]; rfl, hnode.trans hp, by simp [insertBehind, hle, hins]⟩
      · exact Or.inr ⟨hnode.trans hp, by simp [insertBehind, hle, hins]⟩

/-- **A sorted insertion** puts the entry behind all that it ties with. -/
theorem prependSorted_ring (hc : cmp.TotalPreorder h) (hr : Ring h.next h.prev list xs) (hlen : xs.length ≤ h.brk)
    (he : e ∉ list :: xs) :
    ∃ h', prListPrependSorted h list e cmp = some h' ∧ h'.data = h.data ∧ h'.brk = h.brk ∧
      Ring h'.next h'.prev list (insertBehind (cmp.le h) e xs) := by
  have hstop := prListSortedAt_eq (h := h) cmp e hr.seg (List.nodup_cons.1 hr.nodup).1 hlen
  refine ⟨prListPrepend h (sortedNode h cmp list e xs) e, by rw [prListPrependSorted, hstop]; rfl, rfl, rfl, ?_⟩
  rcases sortedNode_split hc list e xs with ⟨as, p, bs, hxs, hp, hins⟩ | ⟨hp, hins⟩
  · subst hxs
    rw [hp, hins]
    exact prListPrepend_before hr he
  · rw [hp, hins]
    exact prListPrepend_ring hr he

/-! ## A sequence of insertions -/

/-- **Inserting one entry after the other** into a sorted list goes on with the sort. -/
theorem prependAllSorted_ring (hc : cmp.TotalPreorder h) (hr : Ring h.next h.prev list xs)
    (hbelow : ∀ y ∈ xs ++ entries, y < h.brk) (hnd : (list :: (xs ++ entries)).Nodup) :
    ∃ h', prListPrependAllSorted h list cmp entries = some h' ∧ h'.data = h.data ∧ h'.brk = h.brk ∧
      Ring h'.next h'.prev list (entries.foldl (fun ys e => insertBehind (cmp.le h) e ys) xs) := by
  induction entries generalizing h xs with
  | nil => exact ⟨h, rfl, rfl, rfl, hr⟩
  | cons e es ih =>
    have he : e ∉ list :: xs := by
      intro hmem
      rw [← List.cons_append] at hnd
      exact (List.nodup_append.1 hnd).2.2 e hmem e List.mem_cons_self rfl
    have hlen : xs.length ≤ h.brk :=
      length_le_of_nodup (List.nodup_cons.1 hr.nodup).2 fun y hy => hbelow y (List.mem_append_left _ hy)
    obtain ⟨h₁, hrun, hdata, hbrk, hr₁⟩ := prependSorted_ring hc hr hlen he
    -- the entry moves from what is left to insert into the list
    have hperm : (insertBehind (cmp.le h) e xs ++ es).Perm (xs ++ e :: es) :=
      ((insertBehind_perm e xs).append_right es).trans List.perm_middle.symm
    have hbelow₁ : ∀ y ∈ insertBehind (cmp.le h) e xs ++ es, y < h₁.brk := by
      intro y hy
      rw [hbrk]
      exact hbelow y (hperm.mem_iff.1 hy)
    have hnd₁ : (list :: (insertBehind (cmp.le h) e xs ++ es)).Nodup := (hperm.cons list).nodup_iff.2 hnd
    obtain ⟨h', hrest, hdata', hbrk', hr'⟩ := ih (hc.congr hdata) hr₁ hbelow₁ hnd₁
    refine ⟨h', ?_, hdata'.trans hdata, hbrk'.trans hbrk, ?_⟩
    · rw [prListPrependAllSorted, List.foldlM_cons, hrun]
      exact hrest
    · rw [hc.le_congr hdata] at hr'
      exact hr'

/-- An empty list is sorted by inserting into it. -/
theorem prependAllSorted_sort (hc : cmp.TotalPreorder h) (hempty : prListEmpty h list = true)
    (hbelow : ∀ y ∈ entries, y < h.brk) (hnd : (list :: entries).Nodup) :
    ∃ h', prListPrependAllSorted h list cmp entries = some h' ∧ h'.brk = h.brk ∧
      Ring h'.next h'.prev list (entries.mergeSort (cmp.le h)) := by
  have hself : h.next list = list ∧ h.prev list = list := by simpa [prListEmpty] using hempty
  have hring : Ring h.next h.prev list [] := .single hself.1 hself.2
  obtain ⟨h', hrun, -, hbrk, hr⟩ := prependAllSorted_ring hc hring hbelow hnd
  rw [foldl_insertBehind hc.le_trans hc.le_total] at hr
  exact ⟨h', hrun, hbrk, hr⟩

/-! ## The list read backwards -/

/-- The heap with both directions exchanged. -/
def PrHeap.mirror (h : PrHeap δ) : PrHeap δ := { h with next := h.prev, prev := h.next }

/-- A comparison that sees the mirrored heap. -/
def PrListCmp.mirror (cmp : PrListCmp δ) : PrListCmp δ := fun h => cmp h.mirror

theorem PrListCmp.TotalPreorder.mirror (hc : cmp.TotalPreorder h) : cmp.mirror.TotalPreorder h.mirror where
  links h' hd p q := hc.links h'.mirror hd p q
  swap := hc.swap
  trans := hc.trans

theorem prListSortedAt_mirror (h : PrHeap δ) (cmp : PrListCmp δ) (list e : Nat) :
    ∀ fuel p, prListSortedAt h cmp h.prev list e fuel p =
      prListSortedAt h.mirror cmp.mirror h.mirror.next list e fuel p := by
  intro fuel
  induction fuel with
  | zero =>
    intro p
    rfl
  | succ fuel ih =>
    intro p
    rw [prListSortedAt, prListSortedAt, ih]
    rfl

/-- **Appending in order is prepending in order on the mirrored list.** -/
theorem prListAppendSorted_mirror (h : PrHeap δ) (list e : Nat) (cmp : PrListCmp δ) :
    prListAppendSorted h list e cmp = (prListPrependSorted h.mirror list e cmp.mirror).map PrHeap.mirror := by
  rw [prListAppendSorted, prListPrependSorted, prListSortedAt_mirror, Option.map_map]
  rfl

theorem prListAppendAllSorted_mirror (cmp : PrListCmp δ) (list : Nat) (entries : List Nat) (h : PrHeap δ) :
    prListAppendAllSorted h list cmp entries =
      (prListPrependAllSorted h.mirror list cmp.mirror entries).map PrHeap.mirror := by
  induction entries generalizing h with
  | nil => rfl
  | cons e es ih =>
    have hstep := prListAppendSorted_mirror h list e cmp
    rw [prListAppendAllSorted, prListPrependAllSorted, List.foldlM_cons, List.foldlM_cons, hstep]
    cases prListPrependSorted h.mirror list e cmp.mirror with
    | none => rfl
    | some h₁ => exact ih h₁.mirror

theorem prListWalkRev_mirror (h : PrHeap δ) (list : Nat) :
    ∀ fuel p, prListWalkRev h list fuel p = prListWalk h.mirror list fuel p := by
  intro fuel
  induction fuel with
  | zero =>
    intro p
    rfl
  | succ fuel ih =>
    intro p
    rw [prListWalkRev, prListWalk, ih]
    rfl

/-- A walk in either direction. -/
theorem Data.Ring.foreach (hr : Ring h.next h.prev list xs) (hbelow : ∀ y ∈ xs, y < h.brk) :
    prListForeach h list = some xs ∧ prListForeachRev h list = some xs.reverse := by
  have hlen : xs.length ≤ h.brk := length_le_of_nodup (List.nodup_cons.1 hr.nodup).2 hbelow
  constructor
  · exact prListWalk_seg hr.seg (List.nodup_cons.1 hr.nodup).1 hlen
  · have hrev := hr.reverse
    rw [prListForeachRev, prListWalkRev_mirror]
    exact prListWalk_seg (h := h.mirror) hrev.seg (List.nodup_cons.1 hrev.nodup).1 (by simpa using hlen)

/-- **Sorted insertion.** Entries inserted into an empty list one after the other: by prepending they
stand in the list in the order of the stable sort, by appending in the opposite order. -/
theorem sorted_insertion (hc : cmp.TotalPreorder h) (hempty : prListEmpty h list = true)
    (hbelow : ∀ y ∈ entries, y < h.brk) (hnd : (list :: entries).Nodup) :
    let sorted := entries.mergeSort (cmp.le h)
    (∃ h', prListPrependAllSorted h list cmp entries = some h' ∧ prListForeach h' list = some sorted) ∧
      ∃ h', prListAppendAllSorted h list cmp entries = some h' ∧ prListForeachRev h' list = some sorted ∧
        prListForeach h' list = some sorted.reverse := by
  intro sorted
  have hmem : ∀ h' : PrHeap δ, h'.brk = h.brk → ∀ y ∈ sorted, y < h'.brk := by
    intro h' hbrk y hy
    rw [hbrk]
    exact hbelow y (List.mem_mergeSort.1 hy)
  constructor
  · obtain ⟨h', hrun, hbrk, hr⟩ := prependAllSorted_sort hc hempty hbelow hnd
    exact ⟨h', hrun, (hr.foreach (hmem h' hbrk)).1⟩
  · have hempty' : prListEmpty h.mirror list = true := by
      rw [prListEmpty, Bool.and_comm]
      exact hempty
    obtain ⟨h', hrun, hbrk, hr⟩ := prependAllSorted_sort hc.mirror hempty' hbelow hnd
    have hback : Ring h'.mirror.next h'.mirror.prev list sorted.reverse := hr.reverse
    have hwalks := hback.foreach fun y hy => hmem h'.mirror hbrk y (List.mem_reverse.1 hy)
    refine ⟨h'.mirror, by rw [prListAppendAllSorted_mirror, hrun]; rfl, ?_, hwalks.1⟩
    rw [hwalks.2, List.reverse_reverse]

/-- A head and three nodes, of which the first and the last tie. -/
def threeNodes : PrHeap MbStr :=
  ([none, some (bytes "b"), some (bytes "a"), some (bytes "b")] : List (Option MbStr)).foldl
    (fun h d => (prListNew h d).1) PrHeap.init

theorem sorted_insertion_ties :
    (∃ h', prListPrependAllSorted threeNodes 0 prListCmpStr [3, 2, 1] = some h' ∧
        prListForeach h' 0 = some [2, 3, 1]) ∧
      ∃ h', prListAppendAllSorted threeNodes 0 prListCmpStr [3, 2, 1] = some h' ∧
        prListForeachRev h' 0 = some [2, 3, 1] ∧ prListForeach h' 0 = some [1, 3, 2] := by
  have hc := prListCmpStr_totalPreorder threeNodes
  have hempty : prListEmpty threeNodes 0 = true := by decide
  have hbelow : ∀ y ∈ [3, 2, 1], y < threeNodes.brk := by decide
  have hsorted : [3, 2, 1].mergeSort (prListCmpStr.le threeNodes) = [2, 3, 1] := by
    rw [← foldl_insertBehind hc.le_trans hc.le_total]
    decide
  have hboth := sorted_insertion hc hempty hbelow (by decide)
  rwa [hsorted] at hboth

end Procenv
