import Procenv.Proof.PrList

/-!
# Sequences of list operations

Every node is in one ring at any time (`Linked`): new nodes are rings of their own, an
insertion of such a node makes one ring longer, and a removal one ring shorter. The other
rings are left alone, whatever lists the calls before were about.

* `Inserted`, `Removed`, `Created`: what a call does to the lists, from every node of them.
* `run_effect`: **one call**, with its effect.
* `reachable_linked`: **all sequences of calls**.
* `rev_visit`: the two visitors see the same nodes in opposite order.
* `prList_invariant`: all of it, for every state that calls can lead to.
-/

namespace Procenv

open Data

variable {δ : Type} {h h' : PrHeap δ} {list e p q : Nat} {xs ns : List Nat} {cmp : PrListCmp δ}

/-! ## Lists and their nodes -/

/-- The nodes of the list that `p` is a node of, from `p` on. -/
def Nodes (h : PrHeap δ) (p : Nat) (ns : List Nat) : Prop := ∃ xs, ns = p :: xs ∧ Ring h.next h.prev p xs

/-- **Every node is in one ring of nodes.** -/
def Linked (h : PrHeap δ) : Prop := ∀ p < h.brk, ∃ xs, Ring h.next h.prev p xs ∧ ∀ y ∈ xs, y < h.brk

/-- A node that is a list of its own. -/
def Detached (h : PrHeap δ) (e : Nat) : Prop := h.next e = e ∧ h.prev e = e

/-- The node `e` was inserted after `a`; all other nodes keep their order and data. -/
structure Inserted (h h' : PrHeap δ) (a e : Nat) : Prop where
  brk : h'.brk = h.brk
  data : h'.data = h.data
  lists : ∀ p ns, p ≠ e → Nodes h p ns → Nodes h' p (insertAfter a e ns)

/-- The node `e` was removed, and is a list of its own; all other nodes keep their order and data. -/
structure Removed (h h' : PrHeap δ) (e : Nat) : Prop where
  brk : h'.brk = h.brk
  data : h'.data = h.data
  detached : Nodes h' e [e]
  lists : ∀ p ns, p ≠ e → Nodes h p ns → Nodes h' p (ns.erase e)

/-- A node was created, a list of its own; all other nodes keep their order and data. -/
structure Created (h h' : PrHeap δ) (d : Option δ) : Prop where
  brk : h'.brk = h.brk + 1
  data : h'.data = Function.update h.data h.brk d
  detached : Nodes h' h.brk [h.brk]
  lists : ∀ p ns, p < h.brk → Nodes h p ns → Nodes h' p ns

theorem Linked.next_prev (hl : Linked h) (hp : p < h.brk) : h.next (h.prev p) = p := by
  obtain ⟨xs, hr, -⟩ := hl p hp
  exact hr.next_prev

theorem Linked.prev_next (hl : Linked h) (hp : p < h.brk) : h.prev (h.next p) = p := by
  obtain ⟨xs, hr, -⟩ := hl p hp
  exact hr.prev_next

theorem Linked.prev_lt (hl : Linked h) (hp : p < h.brk) : h.prev p < h.brk := by
  obtain ⟨xs, hr, hlt⟩ := hl p hp
  rcases List.mem_cons.1 hr.prev_head_mem with hmem | hmem
  · rwa [hmem]
  · exact hlt _ hmem

/-- A detached node is in no other list. -/
theorem Detached.notMem (he : Detached h e) (hp : p ≠ e) (hr : Ring h.next h.prev p xs) : e ∉ p :: xs := by
  intro hmem
  have hmem' : e ∈ xs := (List.mem_cons.1 hmem).resolve_left (Ne.symm hp)
  -- the node before `e` in the ring is `e` itself
  obtain ⟨ys, zs, rfl⟩ := List.append_of_mem hmem'
  have hseg := (seg_append.1 hr.seg).1
  have hnd := hr.nodup
  rcases List.eq_nil_or_concat' ys with rfl | ⟨ys, y, rfl⟩
  · exact hp (hseg.2.symm.trans he.2)
  · have hy : h.prev e = y := (seg_append.1 hseg).2.2
    rw [he.2] at hy
    subst hy
    simp [List.nodup_append] at hnd

/-- A detached node is not the one before another node. -/
theorem Detached.ne_prev (he : Detached h e) (hne : e ≠ p) (hinv : h.next (h.prev p) = p) : e ≠ h.prev p :=
  fun h' => hne (by rw [← hinv, ← h', he.1])

/-! ## One call -/

theorem append_inserted (hl : Linked h) (hlist : list < h.brk) (he : Detached h e) (hne : e ≠ list) :
    Inserted h (prListAppend h list e) list e := by
  obtain ⟨hn, hp⟩ := prListAppend_links (h := h) hne
  refine ⟨rfl, rfl, ?_⟩
  rintro p ns hpe ⟨xs, rfl, hr⟩
  obtain ⟨ys, hys, hr'⟩ := hr.linkAfter (hl.prev_next hlist) hne (he.notMem hpe hr)
  exact ⟨ys, hys, by rw [hn, hp]; exact hr'⟩

theorem prepend_inserted (hl : Linked h) (hlist : list < h.brk) (he : Detached h e) (hne : e ≠ list) :
    Inserted h (prListPrepend h list e) (h.prev list) e := by
  have hinv := hl.next_prev hlist
  obtain ⟨hn, hp⟩ := prListPrepend_links hne hinv
  have hne' := he.ne_prev hne hinv
  refine ⟨rfl, rfl, ?_⟩
  rintro p ns hpe ⟨xs, rfl, hr⟩
  obtain ⟨ys, hys, hr'⟩ := hr.linkAfter (hl.prev_next (hl.prev_lt hlist)) hne' (he.notMem hpe hr)
  exact ⟨ys, hys, by rw [hn, hp]; exact hr'⟩

theorem remove_removed (hl : Linked h) (he : e < h.brk) : Removed h (prListRemove h e).1 e := by
  obtain ⟨hn, hp⟩ := prListRemove_links h e
  refine ⟨rfl, rfl, ⟨[], rfl, ?_⟩, ?_⟩
  · rw [hn, hp]
    exact .single (by simp [unlink]) (by simp [unlink])
  · rintro p ns hpe ⟨xs, rfl, hr⟩
    refine ⟨xs.erase e, List.erase_cons_tail (by simpa using hpe), ?_⟩
    rw [hn, hp]
    exact hr.remove (hl.next_prev he) (hl.prev_next he) hpe

theorem new_created (hl : Linked h) (d : Option δ) : Created h (prListNew h d).1 d := by
  refine ⟨rfl, rfl, ⟨[], rfl, (prListNew_spec h d).ring⟩, ?_⟩
  rintro p ns hp ⟨xs, rfl, hr⟩
  obtain ⟨xs', hr', hlt⟩ := hl p hp
  obtain rfl := hr.unique hr'
  have hne : ∀ y ∈ p :: xs, y ≠ h.brk := by
    intro y hy
    rcases List.mem_cons.1 hy with rfl | hy
    · omega
    · have := hlt y hy
      omega
  refine ⟨xs, rfl, hr.nodup, hr.seg.congr (fun y hy => ?_) fun y hy => ?_⟩
  · simp [prListNew, PrHeap.setData, PrHeap.setNext, PrHeap.setPrev, hne y hy]
  · have : y ∈ p :: xs := by
      simpa [or_comm] using hy
    simp [prListNew, PrHeap.setData, PrHeap.setNext, PrHeap.setPrev, hne y this]

/-- The node where a sorted insertion ends its search: the first one that the entry comes before,
or the list node. -/
def sortedNode (h : PrHeap δ) (cmp : PrListCmp δ) (list e : Nat) (xs : List Nat) : Nat :=
  (xs.find? fun p => decide (cmp h e p < 0)).getD list

theorem prListSortedAt_eq {step back : Nat → Nat} (cmp : PrListCmp δ) (e : Nat) :
    ∀ {xs : List Nat} {a fuel : Nat}, Seg step back a xs list → list ∉ xs → xs.length ≤ fuel →
      prListSortedAt h cmp step list e fuel (step a) = some (sortedNode h cmp list e xs) := by
  intro xs
  induction xs with
  | nil =>
    intro a fuel hs _ _
    rw [hs.1]
    cases fuel <;> simp [prListSortedAt, sortedNode]
  | cons x xs ih =>
    intro a fuel hs hlist hlen
    simp only [List.mem_cons, not_or] at hlist
    obtain ⟨fuel, rfl⟩ : ∃ f, fuel = f + 1 := ⟨fuel - 1, by simp only [List.length_cons] at hlen; omega⟩
    rw [hs.1, prListSortedAt, if_neg (Ne.symm hlist.1)]
    split
    · rename_i hlt
      simp [sortedNode, hlt]
    · rename_i hlt
      rw [ih hs.2.2 hlist.2 (by simpa using hlen)]
      simp [sortedNode, hlt]

theorem Linked.length_le (hl : Linked h) (hlist : list < h.brk) (hr : Ring h.next h.prev list xs) :
    xs.length ≤ h.brk ∧ ∀ y ∈ list :: xs, y < h.brk := by
  obtain ⟨xs', hr', hlt⟩ := hl list hlist
  obtain rfl := hr.unique hr'
  have hall : ∀ y ∈ list :: xs, y < h.brk := by
    intro y hy
    rcases List.mem_cons.1 hy with rfl | hy
    · exact hlist
    · exact hlt y hy
  have := length_le_of_nodup hr.nodup hall
  simp only [List.length_cons] at this
  exact ⟨by omega, hall⟩

/-- The node where the search ends is in the list, and not the one to insert. -/
theorem sortedNode_fair (hl : Linked h) (hlist : list < h.brk) (he : Detached h e) (hne : e ≠ list)
    (hr : Ring h.next h.prev list xs) (cmp : PrListCmp δ) {ys : List Nat} (hys : ∀ y ∈ ys, y ∈ xs) :
    sortedNode h cmp list e ys < h.brk ∧ e ≠ sortedNode h cmp list e ys := by
  have hmem : sortedNode h cmp list e ys ∈ list :: xs := by
    unfold sortedNode
    cases hf : ys.find? fun p => decide (cmp h e p < 0) with
    | none => simp
    | some p => exact List.mem_cons_of_mem _ (hys p (List.mem_of_find?_eq_some hf))
  refine ⟨(hl.length_le hlist hr).2 _ hmem, fun heq => he.notMem (Ne.symm hne) hr ?_⟩
  rwa [heq]

/-- A call that is made with a node to insert that is detached, and another one than the node given
with it. -/
def PrOp.Fair (h : PrHeap δ) : PrOp δ → Prop
  | .new _ => True
  | .append list e | .prepend list e | .appendSorted list e _ | .prependSorted list e _ =>
    list < h.brk ∧ e < h.brk ∧ Detached h e ∧ e ≠ list
  | .remove e => e < h.brk

/-- What a call does. -/
def PrOp.Effect (h h' : PrHeap δ) : PrOp δ → Prop
  | .new d => Created h h' d
  | .append list e => Inserted h h' list e ∧ h'.next list = e
  | .prepend list e => Inserted h h' (h.prev list) e ∧ h'.next e = list
  | .appendSorted list e cmp =>
    ∃ xs, Nodes h list (list :: xs) ∧ Inserted h h' (sortedNode h cmp list e xs.reverse) e
  | .prependSorted list e cmp =>
    ∃ xs, Nodes h list (list :: xs) ∧ Inserted h h' (h.prev (sortedNode h cmp list e xs)) e
  | .remove e => Removed h h' e

/-- **One call**: it ends, and does what it is for. -/
theorem run_effect (hl : Linked h) {op : PrOp δ} (hop : op.Fair h) :
    ∃ h', op.run h = some h' ∧ op.Effect h h' := by
  cases op with
  | new d => exact ⟨_, rfl, new_created hl d⟩
  | append list e =>
    obtain ⟨hlist, -, he, hne⟩ := hop
    refine ⟨_, rfl, append_inserted hl hlist he hne, ?_⟩
    rw [(prListAppend_links hne).1]
    simp [linkNext]
  | prepend list e =>
    obtain ⟨hlist, -, he, hne⟩ := hop
    have hinv := hl.next_prev hlist
    have hne' := he.ne_prev hne hinv
    refine ⟨_, rfl, prepend_inserted hl hlist he hne, ?_⟩
    rw [(prListPrepend_links hne hinv).1]
    simp [linkNext, hne', hinv]
  | appendSorted list e cmp =>
    obtain ⟨hlist, -, he, hne⟩ := hop
    obtain ⟨xs, hr, -⟩ := hl list hlist
    have hlen := (hl.length_le hlist hr).1
    obtain ⟨hlt, hne'⟩ := sortedNode_fair hl hlist he hne hr cmp fun y hy => List.mem_reverse.1 hy
    refine ⟨_, ?_, xs, ⟨xs, rfl, hr⟩, append_inserted hl hlt he hne'⟩
    have hrev := hr.reverse
    rw [PrOp.run, prListAppendSorted, prListSortedAt_eq cmp e hrev.seg
      (List.nodup_cons.1 hrev.nodup).1 (by simpa)]
    rfl
  | prependSorted list e cmp =>
    obtain ⟨hlist, -, he, hne⟩ := hop
    obtain ⟨xs, hr, -⟩ := hl list hlist
    have hlen := (hl.length_le hlist hr).1
    obtain ⟨hlt, hne'⟩ := sortedNode_fair hl hlist he hne hr cmp fun y hy => hy
    refine ⟨_, ?_, xs, ⟨xs, rfl, hr⟩, prepend_inserted hl hlt he hne'⟩
    rw [PrOp.run, prListPrependSorted, prListSortedAt_eq cmp e hr.seg (List.nodup_cons.1 hr.nodup).1 hlen]
    rfl
  | remove e => exact ⟨_, rfl, remove_removed hl hop⟩

/-! ## Sequences of calls -/

/-- Rings stay rings when a detached node is inserted. -/
theorem Inserted.linked {a : Nat} (hi : Inserted h h' a e) (hl : Linked h) (ha : a < h.brk) (he : e < h.brk)
    (hne : e ≠ a) : Linked h' := by
  have hring : ∀ p < h.brk, p ≠ e → ∃ xs, Ring h'.next h'.prev p xs ∧ ∀ y ∈ xs, y < h.brk := by
    intro p hp hpe
    obtain ⟨xs, hr, hlt⟩ := hl p hp
    obtain ⟨ys, hys, hr'⟩ := hi.lists p _ hpe ⟨xs, rfl, hr⟩
    refine ⟨ys, hr', fun y hy => ?_⟩
    rcases mem_insertAfter (show y ∈ insertAfter a e (p :: xs) by rw [hys]; simp [hy]) with rfl | hmem
    · exact he
    · rcases List.mem_cons.1 hmem with rfl | hmem
      · exact hp
      · exact hlt y hmem
  intro p hp
  rw [hi.brk] at hp ⊢
  by_cases hpe : p = e
  · -- the ring of `a`, from the node after it on
    subst hpe
    obtain ⟨xs, hr, hlt⟩ := hl a ha
    obtain ⟨ys, hys, hr'⟩ := hi.lists a _ (Ne.symm hne) ⟨xs, rfl, hr⟩
    rw [insertAfter, if_pos rfl] at hys
    obtain rfl := (List.cons.inj hys).2
    refine ⟨xs ++ [a], hr'.rotate, fun y hy => ?_⟩
    rcases List.mem_append.1 hy with hy | hy
    · exact hlt y hy
    · rw [List.mem_singleton.1 hy]
      exact ha
  · exact hring p hp hpe

theorem Removed.linked (hm : Removed h h' e) (hl : Linked h) : Linked h' := by
  intro p hp
  rw [hm.brk] at hp ⊢
  by_cases hpe : p = e
  · subst hpe
    obtain ⟨xs, hxs, hr⟩ := hm.detached
    obtain rfl := (List.cons.inj hxs).2
    exact ⟨[], hr, by simp⟩
  · obtain ⟨xs, hr, hlt⟩ := hl p hp
    obtain ⟨ys, hys, hr'⟩ := hm.lists p _ hpe ⟨xs, rfl, hr⟩
    rw [List.erase_cons_tail (by simpa using hpe)] at hys
    obtain rfl := (List.cons.inj hys).2
    exact ⟨_, hr', fun y hy => hlt y (List.mem_of_mem_erase hy)⟩

theorem Created.linked {d : Option δ} (hc : Created h h' d) (hl : Linked h) : Linked h' := by
  intro p hp
  rw [hc.brk] at hp ⊢
  by_cases hpb : p = h.brk
  · subst hpb
    obtain ⟨xs, hxs, hr⟩ := hc.detached
    obtain rfl := (List.cons.inj hxs).2
    exact ⟨[], hr, by simp⟩
  · obtain ⟨xs, hr, hlt⟩ := hl p (by omega)
    obtain ⟨ys, hys, hr'⟩ := hc.lists p _ (by omega) ⟨xs, rfl, hr⟩
    obtain rfl := (List.cons.inj hys).2
    exact ⟨xs, hr', fun y hy => Nat.lt_succ_of_lt (hlt y hy)⟩

/-- A call keeps every node in one ring. -/
theorem effect_linked (hl : Linked h) {op : PrOp δ} (hop : op.Fair h) (heff : op.Effect h h') : Linked h' := by
  cases op with
  | new d => exact Created.linked heff hl
  | append list e => exact heff.1.linked hl hop.1 hop.2.1 hop.2.2.2
  | prepend list e =>
    obtain ⟨hlist, he, hdet, hne⟩ := hop
    exact heff.1.linked hl (hl.prev_lt hlist) he (hdet.ne_prev hne (hl.next_prev hlist))
  | appendSorted list e cmp =>
    obtain ⟨hlist, he, hdet, hne⟩ := hop
    obtain ⟨xs, ⟨_, hxs, hr⟩, hi⟩ := heff
    obtain rfl := (List.cons.inj hxs).2
    obtain ⟨hlt, hne'⟩ := sortedNode_fair hl hlist hdet hne hr cmp fun y hy => List.mem_reverse.1 hy
    exact hi.linked hl hlt he hne'
  | prependSorted list e cmp =>
    obtain ⟨hlist, he, hdet, hne⟩ := hop
    obtain ⟨xs, ⟨_, hxs, hr⟩, hi⟩ := heff
    obtain rfl := (List.cons.inj hxs).2
    obtain ⟨hlt, hne'⟩ := sortedNode_fair hl hlist hdet hne hr cmp fun y hy => hy
    exact hi.linked hl (hl.prev_lt hlt) he (hdet.ne_prev hne' (hl.next_prev hlt))
  | remove e => exact Removed.linked heff hl

/-- The heaps that calls lead to. -/
inductive PrHeap.Reachable : PrHeap δ → Prop
  | init : Reachable .init
  | step {h h' : PrHeap δ} (op : PrOp δ) : Reachable h → op.Fair h → op.run h = some h' → Reachable h'

/-- **After every sequence of calls every node is in one ring.** -/
theorem reachable_linked (hr : h.Reachable) : Linked h := by
  induction hr with
  | init => exact fun p hp => absurd hp (Nat.not_lt_zero p)
  | step op _ hop hrun ih =>
    obtain ⟨h₁, hrun₁, heff⟩ := run_effect ih hop
    obtain rfl := Option.some.inj (hrun₁.symm.trans hrun)
    exact effect_linked ih hop heff

/-! ## Visitors -/

/-- Walking backwards is walking with the links exchanged. -/
theorem prListWalkRev_eq (h : PrHeap δ) (list fuel iter : Nat) :
    prListWalkRev h list fuel iter = prListWalk { h with next := h.prev, prev := h.next } list fuel iter := by
  induction fuel generalizing iter with
  | zero => rfl
  | succ fuel ih => rw [prListWalkRev, prListWalk, ih]

/-- **The visitors see the nodes of the ring, from the list node on and back to it.** -/
theorem visits (hr : Ring h.next h.prev p xs) (hlen : xs.length ≤ h.brk) :
    prListForeachVisit h p = some (p :: xs) ∧ prListForeachRevVisit h p = some (p :: xs).reverse := by
  refine ⟨?_, ?_⟩
  · rw [prListForeachVisit, prListWalk_seg hr.seg (List.nodup_cons.1 hr.nodup).1 hlen, Option.map_some]
  · have hback := hr.reverse
    have hwalk : ∀ q ys, Ring h.prev h.next q ys → ys.length ≤ h.brk →
        prListWalkRev h q h.brk (h.prev q) = some ys := by
      intro q ys hq hys
      rw [prListWalkRev_eq]
      exact prListWalk_seg hq.seg (List.nodup_cons.1 hq.nodup).1 hys
    rw [prListForeachRevVisit]
    rcases List.eq_nil_or_concat' xs with rfl | ⟨ys, l, rfl⟩
    · have hp := hr.prev_head_nil
      have hone := hwalk p [] hback (Nat.zero_le _)
      rw [hp] at hone
      simp [hp, hone]
    · -- the ring backwards, from its last node on
      rw [List.reverse_append, List.reverse_singleton, List.singleton_append] at hback
      rw [hr.prev_head, hwalk l _ hback.rotate (by simpa using hlen)]
      simp

/-- **The lists in every state that calls lead to**: the links are inverse to each other, every list
is one ring, visited in both directions, and the next call ends and does what it is for. -/
theorem prList_invariant (hreach : h.Reachable) :
    (∀ p < h.brk, h.next (h.prev p) = p ∧ h.prev (h.next p) = p) ∧
    (∀ p < h.brk, ∃ xs, Ring h.next h.prev p xs ∧ (∀ y ∈ xs, y < h.brk) ∧
      prListForeachVisit h p = some (p :: xs) ∧ prListForeachRevVisit h p = some (p :: xs).reverse) ∧
    ∀ op : PrOp δ, op.Fair h → ∃ h', op.run h = some h' ∧ op.Effect h h' := by
  have hl := reachable_linked hreach
  refine ⟨fun p hp => ⟨hl.next_prev hp, hl.prev_next hp⟩, fun p hp => ?_, fun op hop => run_effect hl hop⟩
  obtain ⟨xs, hr, hlt⟩ := hl p hp
  exact ⟨xs, hr, hlt, visits hr (hl.length_le hp hr).1⟩

/-- Two nodes, the second appended to the first. -/
theorem prList_invariant_two :
    let h₀ : PrHeap Nat := (prListNew (prListNew .init (some 7)).1 (some 8)).1
    h₀.Reachable ∧ ∃ h, PrOp.run h₀ (.append 0 1) = some h ∧ Inserted h₀ h 0 1 ∧ h.next 0 = 1 := by
  intro h₀
  have hreach : h₀.Reachable := .step (.new (some 8)) (.step (.new (some 7)) .init trivial rfl) trivial rfl
  obtain ⟨h, hrun, heff⟩ :=
    (prList_invariant hreach).2.2 (.append 0 1) ⟨by decide, by decide, ⟨rfl, rfl⟩, by decide⟩
  exact ⟨hreach, h, hrun, heff⟩

end Procenv
