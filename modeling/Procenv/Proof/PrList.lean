import Procenv.Data.Ring
import Procenv.Model.PrList

/-!
# `pr_list.c` keeps rings

`PrList h list xs ds` says that the nodes `xs` hold the data `ds` in the list with
head `list`. The list grows and shrinks at its end, and a walk visits its nodes in
order.
-/

namespace Procenv

open Data

variable {δ : Type}

/-- The list with head `list` has the nodes `xs` with the data `ds`. -/
structure PrList (h : PrHeap δ) (list : Nat) (xs : List Nat) (ds : List δ) : Prop where
  ring : Ring h.next h.prev list xs
  below : ∀ y ∈ list :: xs, y < h.brk
  data : xs.map h.data = ds.map some

theorem prListNew_spec (h : PrHeap δ) (d : Option δ) :
    PrList (prListNew h d).1 (prListNew h d).2 [] [] := by
  refine ⟨⟨by simp, ?_, ?_⟩, by simp [prListNew, PrHeap.setData, PrHeap.setNext, PrHeap.setPrev], rfl⟩
  · simp [prListNew, PrHeap.setData, PrHeap.setNext, PrHeap.setPrev]
  · simp [prListNew, PrHeap.setData, PrHeap.setNext, PrHeap.setPrev]

/-- A new node is in no list. -/
theorem prListNew_frame {h : PrHeap δ} {list : Nat} {xs : List Nat} {ds : List δ}
    (hl : PrList h list xs ds) (d : Option δ) : PrList (prListNew h d).1 list xs ds := by
  have hne : ∀ y ∈ list :: xs, y ≠ h.brk := fun y hy => by have := hl.below y hy; omega
  refine ⟨⟨hl.ring.nodup, hl.ring.seg.congr ?_ ?_⟩, ?_, ?_⟩
  · intro y hy
    simp [prListNew, PrHeap.setData, PrHeap.setNext, PrHeap.setPrev, hne y hy]
  · intro y hy
    have : y ≠ h.brk := hne y (by
      rcases List.mem_append.1 hy with hy | hy
      · exact List.mem_cons_of_mem _ hy
      · simp [List.mem_singleton.1 hy])
    simp [prListNew, PrHeap.setData, PrHeap.setNext, PrHeap.setPrev, this]
  · intro y hy
    exact Nat.lt_succ_of_lt (hl.below y hy)
  · rw [← hl.data]
    refine List.map_congr_left fun y hy => ?_
    simp [prListNew, PrHeap.setData, PrHeap.setNext, PrHeap.setPrev, hne y (List.mem_cons_of_mem _ hy)]

/-! ## Links -/

/-- `pr_list_append` links the entry in after the list node. -/
theorem prListAppend_links {h : PrHeap δ} {list e : Nat} (hne : e ≠ list) :
    (prListAppend h list e).next = linkNext h.next list e ∧
      (prListAppend h list e).prev = linkPrev h.next h.prev list e := by
  simp [prListAppend, PrHeap.setNext, PrHeap.setPrev, linkNext, linkPrev, hne.symm]

/-- `pr_list_prepend` links the entry in after the node before the list node. -/
theorem prListPrepend_links {h : PrHeap δ} {list e : Nat} (hne : e ≠ list) (hinv : h.next (h.prev list) = list) :
    (prListPrepend h list e).next = linkNext h.next (h.prev list) e ∧
      (prListPrepend h list e).prev = linkPrev h.next h.prev (h.prev list) e := by
  simp [prListPrepend, PrHeap.setNext, PrHeap.setPrev, linkNext, linkPrev, hne.symm, hinv]

/-- `pr_list_remove` unlinks the entry. -/
theorem prListRemove_links (h : PrHeap δ) (e : Nat) :
    (prListRemove h e).1.next = unlink h.next h.prev e ∧ (prListRemove h e).1.prev = unlink h.prev h.next e := by
  have hnext : Function.update h.next (h.prev e) (h.next e) e = h.next e := by
    by_cases he : e = h.prev e
    · rw [← he]
      simp
    · simp [he]
  simp [prListRemove, PrHeap.setNext, PrHeap.setPrev, unlink, hnext]

theorem prListPrepend_ring {h : PrHeap δ} {list e : Nat} {xs : List Nat} (hr : Ring h.next h.prev list xs)
    (he : e ∉ list :: xs) :
    Ring (prListPrepend h list e).next (prListPrepend h list e).prev list (xs ++ [e]) := by
  have hne : e ≠ list := fun h' => he (by simp [h'])
  obtain ⟨hn, hp⟩ := prListPrepend_links hne hr.next_prev
  rw [hn, hp]
  exact hr.linkBefore he

/-- **A string is added at the end of the list.** -/
theorem prListPrependStr_spec {h : PrHeap MbStr} {list : Nat} {xs : List Nat} {ds : List MbStr}
    (hl : PrList h list xs ds) (str : MbStr) :
    ∃ e, PrList (prListPrependStr h list str).1 list (xs ++ [e]) (ds ++ [str]) := by
  have hnew := prListNew_frame hl (some (str.take (1 + str.length)))
  have he : h.brk ∉ list :: xs := fun hmem => by have := hl.below _ hmem; omega
  have htake : str.take (1 + str.length) = str := List.take_of_length_le (by omega)
  refine ⟨h.brk, prListPrepend_ring hnew.ring he, ?_, ?_⟩
  · intro y hy
    rw [← List.cons_append] at hy
    rcases List.mem_append.1 hy with hy | hy
    · exact hnew.below y hy
    · rw [List.mem_singleton.1 hy]
      exact Nat.lt_succ_self _
  · have hdata : (prListPrependStr h list str).1.data = (prListNew h (some (str.take (1 + str.length)))).1.data :=
      rfl
    rw [hdata, List.map_append, hnew.data]
    simp [prListNew, PrHeap.setData, htake]

/-- Removing the last node shortens the ring. -/
theorem prListRemove_ring {h : PrHeap δ} {list e : Nat} {xs : List Nat}
    (hr : Ring h.next h.prev list (xs ++ [e])) :
    Ring (prListRemove h e).1.next (prListRemove h e).1.prev list xs := by
  have hne := hr.last_ne_head
  have he : e ∉ xs := by
    have := (List.nodup_cons.1 hr.nodup).2
    exact fun hmem => (List.nodup_append.1 this).2.2 e hmem e (by simp) rfl
  -- the ring from `e` on has its links inverse to each other
  have hring : Ring h.next h.prev e (list :: xs) := by
    have := hr.reverse
    rw [List.reverse_append, List.reverse_singleton, List.singleton_append] at this
    have := this.rotate.reverse
    simpa using this
  obtain ⟨hn, hp⟩ := prListRemove_links h e
  have h1 := hr.remove hring.next_prev hring.prev_next hne.symm
  rw [hn, hp]
  rwa [List.erase_append_right _ he, List.erase_cons_head, List.append_nil] at h1

/-- **The node before the head is the last one, and removing it shortens the list.** -/
theorem prListRemove_spec {h : PrHeap δ} {list e : Nat} {xs : List Nat} {ds : List δ} {d : δ}
    (hl : PrList h list (xs ++ [e]) (ds ++ [d])) :
    h.prev list = e ∧ e ≠ list ∧ PrList (prListRemove h e).1 list xs ds := by
  refine ⟨hl.ring.prev_head, hl.ring.last_ne_head, prListRemove_ring hl.ring, ?_, ?_⟩
  · intro y hy
    exact hl.below y (by rcases List.mem_cons.1 hy with h' | h' <;> simp [h'])
  · have hd := hl.data
    simp only [List.map_append, List.map_cons, List.map_nil] at hd
    exact (List.append_inj' hd rfl).1

theorem prListWalk_seg {h : PrHeap δ} {list : Nat} {xs : List Nat} :
    ∀ {a fuel}, Seg h.next h.prev a xs list → list ∉ xs → xs.length ≤ fuel →
      prListWalk h list fuel (h.next a) = some xs := by
  induction xs with
  | nil =>
    intro a fuel hs _ _
    rw [hs.1]
    cases fuel <;> simp [prListWalk]
  | cons x xs ih =>
    intro a fuel hs hlist hlen
    obtain ⟨h1, -, h3⟩ := hs
    simp only [List.mem_cons, not_or] at hlist
    obtain ⟨fuel, rfl⟩ : ∃ f, fuel = f + 1 := ⟨fuel - 1, by simp only [List.length_cons] at hlen; omega⟩
    rw [h1, prListWalk, if_neg (Ne.symm hlist.1), ih h3 hlist.2 (by simpa using hlen)]
    rfl

/-- **A walk visits the nodes in order.** -/
theorem prListForeach_spec {h : PrHeap δ} {list : Nat} {xs : List Nat} {ds : List δ}
    (hl : PrList h list xs ds) : prListForeach h list = some xs := by
  have hlen := length_le_of_nodup hl.ring.nodup hl.below
  simp only [List.length_cons] at hlen
  exact prListWalk_seg hl.ring.seg (List.nodup_cons.1 hl.ring.nodup).1 (by omega)

end Procenv
