import Procenv.Data.Outcome
import Procenv.Model.Namespaces
import Procenv.Proof.CrumbMemory
import Procenv.Proof.Sorted

/-!
# The list of the namespaces is freed

The list is a ring of live nodes beside what was in memory before (`Listed`), and what was there stays as
it is (`Elsewhere`).

* `Listed.place`, `Listed.link`: where a new node goes, and the list with it.
* `Listed.add`: a link is inserted where `insertSorted` puts it.
* `Listed.shows`: the loop shows the strings in their order and frees every node it stands on.
* `showNamespacesLinux_frees`: **the links are shown in order, and nothing is left**.
-/

namespace Procenv.Namespaces

open Data Crumbs Outcome Memory

variable {fresh : Nat → Finset Nat → Nat} {m₀ m m' : Memory} {list e p : Nat} {xs ys ps qs : List Nat}
  {line : MbStr} {lines : List MbStr}

/-! ## The list -/

/-- What was in memory is as it was. -/
structure Elsewhere (m₀ m : Memory) : Prop where
  next : ∀ p ∈ m₀.nodes, m.links.next p = m₀.links.next p
  prev : ∀ p ∈ m₀.nodes, m.links.prev p = m₀.links.prev p
  data : ∀ p ∈ m₀.nodes, m.links.data p = m₀.links.data p
  str : ∀ p ∈ m₀.strings, m.str p = m₀.str p
  crumbList : m.crumbList = m₀.crumbList

/-- The list at `list` has the nodes `xs`, with the strings `lines` at `ps`; the other blocks are those of
`m₀`. -/
structure Listed (m₀ m : Memory) (list : Nat) (xs ps : List Nat) (lines : List MbStr) : Prop
    extends Elsewhere m₀ m where
  ring : Ring m.links.next m.links.prev list xs
  nodes : ∀ p, p ∈ m.nodes ↔ p ∈ list :: xs ∨ p ∈ m₀.nodes
  strings : ∀ p, p ∈ m.strings ↔ p ∈ ps ∨ p ∈ m₀.strings
  apartNodes : ∀ p ∈ list :: xs, p ∉ m₀.nodes
  apartStrings : ∀ p ∈ ps, p ∉ m₀.strings
  values : xs.map m.links.data = ps.map some
  nodup : ps.Nodup
  lines : ps.map m.str = lines

theorem Listed.node (h : Listed m₀ m list xs ps lines) (hp : p ∈ list :: xs) : p ∈ m.nodes :=
  (h.nodes p).2 (Or.inl hp)

/-- The other nodes leave the loops enough rounds. -/
theorem Listed.length_le (h : Listed m₀ m list xs ps lines) : xs.length ≤ m.nodes.card := by
  have hsub : (list :: xs).toFinset ⊆ m.nodes := by
    intro p hp
    exact h.node (List.mem_toFinset.1 hp)
  have hcard := Finset.card_le_card hsub
  rw [List.toFinset_card_of_nodup h.ring.nodup, List.length_cons] at hcard
  omega

theorem Listed.lengths (h : Listed m₀ m list xs ps lines) : xs.length = ps.length ∧ ps.length = lines.length := by
  have hvalues := congrArg List.length h.values
  have hlines := congrArg List.length h.lines
  simp only [List.length_map] at hvalues hlines
  exact ⟨hvalues, hlines⟩

/-- A new list. -/
theorem listed_new (hfresh : ∀ n s, fresh n s ∉ s) (m : Memory) :
    Listed m (m.prListNew fresh none).1 (m.prListNew fresh none).2 [] [] [] := by
  let list := fresh m.allocs m.live
  have hlist : list ∉ m.nodes := fun hmem => hfresh _ _ (Finset.mem_union_left _ hmem)
  have hne {p : Nat} (hp : p ∈ m.nodes) : p ≠ list := fun heq => hlist (heq ▸ hp)
  refine ⟨⟨?_, ?_, ?_, ?_, rfl⟩, Ring.single ?_ ?_, ?_, ?_, ?_, ?_, rfl, by simp, rfl⟩
  · intro p hp
    exact Function.update_of_ne (hne hp) ..
  · intro p hp
    exact Function.update_of_ne (hne hp) ..
  · intro p hp
    exact Function.update_of_ne (hne hp) ..
  · intro p _
    rfl
  · exact Function.update_self ..
  · exact Function.update_self ..
  · intro p
    refine Finset.mem_insert.trans ?_
    simp [Memory.prListNew]
  · intro p
    simp [Memory.prListNew]
  · intro p hp
    rw [List.mem_singleton.1 hp]
    exact hlist
  · simp

/-! ## Inserting a link -/

/-- The strings of two nodes are compared. -/
theorem prListCmpStr_eq {q : Nat} (he : e ∈ m.nodes) (hp : p ∈ m.nodes) {s : Nat} (hes : m.links.data e = some s)
    (hpq : m.links.data p = some q) (hs : s ∈ m.strings) (hq : q ∈ m.strings) :
    prListCmpStr m e p = .ok (strcmp (m.str s) (m.str q)) := by
  rw [prListCmpStr, touch_ok he, touch_ok hp, hes, hpq]
  simp only [Memory.read, if_pos hs, if_pos hq, bind, Except.bind, pure, Except.pure]

/-- **The loop stops** at the first node with a larger string. -/
theorem sortedAt_eq {a fuel s : Nat} (he : e ∈ m.nodes) (hes : m.links.data e = some s) (hs : s ∈ m.strings)
    (hseg : Seg m.links.next m.links.prev a (xs ++ ys) list) (hlist : list ∉ xs ++ ys)
    (hlen : (xs ++ ys).length ≤ fuel) (hnodes : ∀ p ∈ xs ++ ys, p ∈ m.nodes)
    (hstrings : ∀ q ∈ ps ++ qs, q ∈ m.strings) (hxs : xs.map m.links.data = ps.map some)
    (hys : ys.map m.links.data = qs.map some) (hbefore : ∀ q ∈ ps, byteLe (m.str q) (m.str s) = true)
    (hafter : ∀ q ∈ qs.head?, byteLe (m.str q) (m.str s) = false) :
    sortedAt m list e fuel (m.links.next a) = .ok (ys.headD list) := by
  induction xs generalizing a fuel ps with
  | nil =>
    obtain rfl : ps = [] := by simpa using hxs.symm
    cases ys with
    | nil =>
      rw [hseg.1]
      cases fuel with
      | zero => exact if_pos rfl
      | succ fuel => exact if_pos rfl
    | cons y ys =>
      obtain ⟨q, qs, rfl⟩ : ∃ q qs', qs = q :: qs' := by
        cases qs with
        | nil => simp at hys
        | cons q qs => exact ⟨q, qs, rfl⟩
      obtain ⟨fuel, rfl⟩ : ∃ f, fuel = f + 1 := by
        rw [List.nil_append, List.length_cons] at hlen
        exact ⟨fuel - 1, by omega⟩
      have hne : y ≠ list := by
        intro heq
        exact hlist (by simp [heq])
      have hcmp := prListCmpStr_eq he (hnodes y (by simp)) hes (List.cons.inj hys).1 hs (hstrings q (by simp))
      have hlt : strcmp (m.str s) (m.str q) < 0 := (strcmp_neg_iff _ _).2 (hafter q rfl)
      rw [hseg.1, sortedAt, if_neg hne, hcmp]
      exact if_pos hlt
  | cons x xs ih =>
    obtain ⟨q, ps, rfl⟩ : ∃ q ps', ps = q :: ps' := by
      cases ps with
      | nil => simp at hxs
      | cons q ps => exact ⟨q, ps, rfl⟩
    obtain ⟨fuel, rfl⟩ : ∃ f, fuel = f + 1 := by
      rw [List.cons_append, List.length_cons] at hlen
      exact ⟨fuel - 1, by omega⟩
    obtain ⟨hnext, -, hseg⟩ := hseg
    rw [List.cons_append, List.mem_cons, not_or] at hlist
    have hcmp := prListCmpStr_eq he (hnodes x (by simp)) hes (List.cons.inj hxs).1 hs (hstrings q (by simp))
    have hge : ¬ strcmp (m.str s) (m.str q) < 0 := by
      rw [strcmp_neg_iff, hbefore q (by simp)]
      decide
    have hrest := ih hseg hlist.2 (by simpa using hlen) (fun p hp => hnodes p (List.mem_cons_of_mem _ hp))
      (fun p hp => hstrings p (List.mem_cons_of_mem _ hp)) (List.cons.inj hxs).2
      fun p hp => hbefore p (List.mem_cons_of_mem _ hp)
    rw [hnext, sortedAt, if_neg (Ne.symm hlist.1), hcmp, touch_ok (hnodes x (by simp))]
    change (if strcmp (m.str s) (m.str q) < 0 then _ else sortedAt m list e fuel (m.links.next x)) = _
    rw [if_neg hge, hrest]

/-- The links that `pr_list_prepend` leaves. -/
theorem prListPrepend_elsewhere {h : PrHeap Nat} {q : Nat} (he : q ≠ e) (hp : q ≠ p) (hprev : q ≠ h.prev p) :
    (prListPrepend h p e).next q = h.next q ∧ (prListPrepend h p e).prev q = h.prev q := by
  by_cases hpe : p = e
  · subst hpe
    simp [prListPrepend, PrHeap.setNext, PrHeap.setPrev, hp, hprev]
  · simp [prListPrepend, PrHeap.setNext, PrHeap.setPrev, he, hp, hprev, hpe]

theorem headD_mem (list : Nat) (xs ys : List Nat) : ys.headD list ∈ list :: (xs ++ ys) := by
  cases ys with
  | nil => exact List.mem_cons_self
  | cons y ys => simp

/-- A node is put before another one, or at the end. -/
theorem prListPrepend_at {h : PrHeap Nat} (hr : Ring h.next h.prev list (xs ++ ys))
    (he : e ∉ list :: (xs ++ ys)) :
    Ring (prListPrepend h (ys.headD list) e).next (prListPrepend h (ys.headD list) e).prev list
      (xs ++ e :: ys) := by
  cases ys with
  | nil =>
    rw [List.append_nil] at hr he
    exact prListPrepend_ring hr he
  | cons y ys => exact prListPrepend_before hr he

section Add

variable {m₂ : Memory} {s : Nat}

/-- The place of a new node is before the first node with a larger string. -/
theorem Listed.place (h : Listed m₀ m list (xs ++ ys) (ps ++ qs) (ps.map m.str ++ qs.map m.str))
    (hnew : NewNode m m₂ e s line) (hxs : xs.map m.links.data = ps.map some)
    (hys : ys.map m.links.data = qs.map some) (hbefore : ∀ x ∈ ps.map m.str, byteLe x line = true)
    (hafter : ∀ x ∈ (qs.map m.str).head?, byteLe x line = false) :
    sortedAt m₂ list e m₂.nodes.card (m₂.links.next list) = .ok (ys.headD list) := by
  have hnode {q : Nat} (hq : q ∈ xs ++ ys) : q ∈ m.nodes := h.node (List.mem_cons_of_mem _ hq)
  have hstring {q : Nat} (hq : q ∈ ps ++ qs) : q ∈ m.strings := (h.strings q).2 (Or.inl hq)
  have hring := hnew.ring (fun q hq => h.node hq) h.ring
  have hlen : (xs ++ ys).length ≤ m₂.nodes.card :=
    h.length_le.trans (Finset.card_le_card fun q hq => (hnew.nodes q).2 (Or.inr hq))
  apply sortedAt_eq ((hnew.nodes e).2 (Or.inl rfl)) hnew.value ((hnew.strings s).2 (Or.inl rfl)) hring.seg
    (List.nodup_cons.1 hring.nodup).1 hlen
  · intro q hq
    exact (hnew.nodes q).2 (Or.inr (hnode hq))
  · intro q hq
    exact (hnew.strings q).2 (Or.inr (hstring hq))
  · exact (hnew.map_data fun q hq => hnode (List.mem_append_left _ hq)).trans hxs
  · exact (hnew.map_data fun q hq => hnode (List.mem_append_right _ hq)).trans hys
  · intro q hq
    rw [hnew.text, hnew.str q (hstring (List.mem_append_left _ hq))]
    exact hbefore _ (List.mem_map_of_mem hq)
  · intro q hq
    rw [hnew.text, hnew.str q (hstring (List.mem_append_right _ (List.mem_of_mem_head? hq)))]
    refine hafter _ ?_
    rw [List.head?_map, hq]
    rfl

/-- What was in memory stays as it was when the new node is linked. -/
theorem Listed.linked_elsewhere (h : Listed m₀ m list xs ps lines) (hnew : NewNode m m₂ e s line)
    (hp : p ∈ list :: xs) : Elsewhere m₀ { m₂ with links := Procenv.prListPrepend m₂.links p e } := by
  have hring := hnew.ring (fun q hq => h.node hq) h.ring
  have hold {q : Nat} (hq : q ∈ m₀.nodes) : q ∈ m.nodes := (h.nodes q).2 (Or.inr hq)
  have hlinks {q : Nat} (hq : q ∈ m₀.nodes) :
      (Procenv.prListPrepend m₂.links p e).next q = m₂.links.next q ∧
        (Procenv.prListPrepend m₂.links p e).prev q = m₂.links.prev q := by
    have hout {r : Nat} (hr : r ∈ list :: xs) : q ≠ r := fun heq => h.apartNodes r hr (heq ▸ hq)
    have hqe : q ≠ e := fun heq => hnew.node (heq ▸ hold hq)
    exact prListPrepend_elsewhere hqe (hout hp) (hout (hring.prev_mem hp))
  refine ⟨?_, ?_, ?_, ?_, hnew.crumbList.trans h.crumbList⟩
  · intro q hq
    exact (hlinks hq).1.trans ((hnew.next q (hold hq)).trans (h.next q hq))
  · intro q hq
    exact (hlinks hq).2.trans ((hnew.prev q (hold hq)).trans (h.prev q hq))
  · intro q hq
    exact (hnew.data q (hold hq)).trans (h.data q hq)
  · intro q hq
    exact (hnew.str q ((h.strings q).2 (Or.inr hq))).trans (h.str q hq)

/-- **A new node is linked into the list** at its place. -/
theorem Listed.link (h : Listed m₀ m list (xs ++ ys) (ps ++ qs) (ps.map m.str ++ qs.map m.str))
    (hnew : NewNode m m₂ e s line) (hxs : xs.map m.links.data = ps.map some)
    (hys : ys.map m.links.data = qs.map some) :
    Listed m₀ { m₂ with links := Procenv.prListPrepend m₂.links (ys.headD list) e } list (xs ++ e :: ys)
      (ps ++ s :: qs) (ps.map m.str ++ line :: qs.map m.str) := by
  have hnode {q : Nat} (hq : q ∈ xs ++ ys) : q ∈ m.nodes := h.node (List.mem_cons_of_mem _ hq)
  have hstring {q : Nat} (hq : q ∈ ps ++ qs) : q ∈ m.strings := (h.strings q).2 (Or.inl hq)
  have hering : e ∉ list :: (xs ++ ys) := fun hmem => hnew.node (h.node hmem)
  have hps : s ∉ ps ++ qs := fun hmem => hnew.string (hstring hmem)
  have hring := hnew.ring (fun q hq => h.node hq) h.ring
  refine ⟨h.linked_elsewhere hnew (headD_mem list xs ys), prListPrepend_at hring hering, ?_, ?_,
    ?_, ?_, ?_, ?_, ?_⟩
  · intro q
    refine (hnew.nodes q).trans ?_
    rw [h.nodes]
    simp only [List.mem_cons, List.mem_append]
    tauto
  · intro q
    refine (hnew.strings q).trans ?_
    rw [h.strings]
    simp only [List.mem_cons, List.mem_append]
    tauto
  · intro q hq hq₀
    have hcases : q = e ∨ q ∈ list :: (xs ++ ys) := by
      simp only [List.mem_cons, List.mem_append] at hq ⊢
      tauto
    rcases hcases with rfl | hmem
    · exact hnew.node ((h.nodes _).2 (Or.inr hq₀))
    · exact h.apartNodes q hmem hq₀
  · intro q hq hq₀
    have hcases : q = s ∨ q ∈ ps ++ qs := by
      simp only [List.mem_cons, List.mem_append] at hq ⊢
      tauto
    rcases hcases with rfl | hmem
    · exact hnew.string ((h.strings _).2 (Or.inr hq₀))
    · exact h.apartStrings q hmem hq₀
  · rw [List.map_append, List.map_cons, List.map_append, List.map_cons]
    change xs.map m₂.links.data ++ m₂.links.data e :: ys.map m₂.links.data = _
    rw [hnew.map_data fun q hq => hnode (List.mem_append_left _ hq),
      hnew.map_data fun q hq => hnode (List.mem_append_right _ hq), hxs, hys, hnew.value]
  · exact (List.perm_middle.nodup_iff).2 (List.nodup_cons.2 ⟨hps, h.nodup⟩)
  · rw [List.map_append, List.map_cons]
    change ps.map m₂.str ++ m₂.str s :: qs.map m₂.str = _
    rw [hnew.map_str fun q hq => hstring (List.mem_append_left _ hq),
      hnew.map_str fun q hq => hstring (List.mem_append_right _ hq), hnew.text]

end Add

/-- **A link is inserted in the order of the strings**, in a node and a string that were not in use. -/
theorem Listed.add (hfresh : ∀ n s, fresh n s ∉ s) (h : Listed m₀ m list xs ps lines) (line : MbStr) :
    ∃ m' xs' ps', addLine fresh list m line = .ok m' ∧
      Listed m₀ m' list xs' ps' (Show.insertSorted line lines) := by
  obtain ⟨l₁, l₂, rfl, hins, hbefore, hafter⟩ := @insertBehind_split _ byteLe line lines
  obtain ⟨ps, qs, rfl, rfl, rfl⟩ := List.map_eq_append_iff.1 h.lines
  obtain ⟨xs, ys, rfl, hxs, hys⟩ := List.map_eq_append_iff.1 (h.values.trans List.map_append)
  let s := fresh m.allocs m.live
  let m₁ := (m.strndup fresh line line.length).1
  let e := fresh m₁.allocs m₁.live
  let m₂ := (m₁.prListNew fresh (some s)).1
  have hnew : NewNode m m₂ e s line := newNode hfresh m (Nat.le_refl _)
  have hring := hnew.ring (fun q hq => h.node hq) h.ring
  have hlive {q : Nat} (hq : q ∈ list :: (xs ++ ys)) : q ∈ m₂.nodes := (hnew.nodes q).2 (Or.inr (h.node hq))
  have hpmem := headD_mem list xs ys
  refine ⟨{ m₂ with links := Procenv.prListPrepend m₂.links (ys.headD list) e }, xs ++ e :: ys,
    ps ++ s :: qs, ?_, ?_⟩
  · change prListPrependStrSorted m₂ list e = _
    rw [prListPrependStrSorted, touch_ok (hlive List.mem_cons_self), h.place hnew hxs hys hbefore hafter]
    change m₂.prListPrepend (ys.headD list) e = _
    rw [Memory.prListPrepend, touch_ok ((hnew.nodes e).2 (Or.inl rfl)), touch_ok (hlive hpmem),
      touch_ok (hlive (hring.prev_mem hpmem))]
    rfl
  · rw [Show.insertSorted, hins]
    exact h.link hnew hxs hys

/-! ## Showing and freeing the links -/

/-- The node after the head of a ring. -/
theorem next_head {next prev : Nat → Nat} (h : Ring next prev list xs) : next list = xs.headD list := by
  cases xs with
  | nil => exact h.seg.1
  | cons x xs => exact h.seg.1

/-- The links that `pr_list_remove` leaves. -/
theorem prListRemove_elsewhere {h : PrHeap Nat} {q : Nat} (he : q ≠ e) (hprev : q ≠ h.prev e)
    (hnext : q ≠ h.next e) :
    (prListRemove h e).1.next q = h.next q ∧ (prListRemove h e).1.prev q = h.prev q := by
  obtain ⟨hn, hp⟩ := prListRemove_links h e
  rw [hn, hp]
  exact ⟨by simp [unlink, he, hprev], by simp [unlink, he, hnext]⟩

/-- What is left of a set without one of its elements. -/
theorem mem_erase_iff {s : Finset Nat} {x : Nat} {P : Nat → Prop} (h : ∀ q, q ∈ s ↔ q = x ∨ P q) (hx : ¬ P x)
    (q : Nat) : q ∈ s.erase x ↔ P q := by
  rw [Finset.mem_erase, h]
  constructor
  · rintro ⟨hne, hq⟩
    exact hq.resolve_left hne
  · intro hq
    refine ⟨?_, Or.inr hq⟩
    rintro rfl
    exact hx hq

/-- **The first node is taken out and freed**, with its string. -/
theorem Listed.free {x p : Nat} (h : Listed m₀ m list (x :: xs) (p :: ps) (line :: lines)) :
    Listed m₀ { m with
      links := (Procenv.prListRemove m.links x).1
      strings := m.strings.erase p
      nodes := m.nodes.erase x } list xs ps lines := by
  have hx : x ∈ list :: x :: xs := by simp
  obtain ⟨hp, hps⟩ := List.nodup_cons.1 h.nodup
  obtain ⟨hlist, hnodup⟩ := List.nodup_cons.1 h.ring.nodup
  have hxs : x ∉ list :: xs := by
    intro hmem
    rcases List.mem_cons.1 hmem with rfl | hmem
    · exact hlist List.mem_cons_self
    · exact (List.nodup_cons.1 hnodup).1 hmem
  have hrotate := h.ring.rotate
  have hring := h.ring.remove hrotate.next_prev hrotate.prev_next (Ne.symm fun heq => hxs (by simp [heq]))
  rw [List.erase_cons_head, ← (prListRemove_links m.links x).1, ← (prListRemove_links m.links x).2] at hring
  have hlinks {q : Nat} (hq : q ∈ m₀.nodes) : (prListRemove m.links x).1.next q = m.links.next q ∧
      (prListRemove m.links x).1.prev q = m.links.prev q := by
    have hout {r : Nat} (hr : r ∈ list :: x :: xs) : q ≠ r := fun heq => h.apartNodes r hr (heq ▸ hq)
    exact prListRemove_elsewhere (hout hx) (hout (h.ring.prev_mem hx)) (hout (h.ring.next_mem hx))
  refine ⟨⟨?_, ?_, h.data, h.str, h.crumbList⟩, hring, ?_, ?_, ?_, ?_, (List.cons.inj h.values).2, hps,
    (List.cons.inj h.lines).2⟩
  · intro q hq
    exact (hlinks hq).1.trans (h.next q hq)
  · intro q hq
    exact (hlinks hq).2.trans (h.prev q hq)
  · refine mem_erase_iff (fun q => ?_) (not_or_intro hxs (h.apartNodes x hx))
    rw [h.nodes]
    simp only [List.mem_cons]
    tauto
  · refine mem_erase_iff (fun q => ?_) (not_or_intro hp (h.apartStrings p List.mem_cons_self))
    rw [h.strings, List.mem_cons, or_assoc]
  · intro q hq
    apply h.apartNodes
    simp only [List.mem_cons] at hq ⊢
    tauto
  · intro q hq
    exact h.apartStrings q (List.mem_cons_of_mem _ hq)

/-- **The loop shows the strings in their order** and frees every node that it stands on. -/
theorem Listed.shows {fuel : Nat} (h : Listed m₀ m list xs ps lines) (hlen : xs.length ≤ fuel) :
    ∃ m', showLoop list fuel (m.links.next list) (m.links.next (m.links.next list)) m = .ok (m', lines) ∧
      Listed m₀ m' list [] [] [] := by
  induction xs generalizing m ps lines fuel with
  | nil =>
    obtain ⟨hps, hlines⟩ := h.lengths
    obtain rfl : ps = [] := List.length_eq_zero_iff.1 hps.symm
    obtain rfl : lines = [] := List.length_eq_zero_iff.1 hlines.symm
    refine ⟨m, ?_, h⟩
    rw [h.ring.seg.1]
    cases fuel with
    | zero => exact if_pos rfl
    | succ fuel => exact if_pos rfl
  | cons x xs ih =>
    obtain ⟨p, ps, rfl⟩ : ∃ p ps', ps = p :: ps' := by
      cases ps with
      | nil => exact absurd h.lengths.1 (by simp)
      | cons p ps => exact ⟨p, ps, rfl⟩
    obtain ⟨line, lines, rfl⟩ : ∃ l ls', lines = l :: ls' := by
      cases lines with
      | nil => exact absurd h.lengths.2 (by simp)
      | cons l ls => exact ⟨l, ls, rfl⟩
    obtain ⟨fuel, rfl⟩ : ∃ f, fuel = f + 1 := ⟨fuel - 1, by simp only [List.length_cons] at hlen; omega⟩
    have hx : x ∈ list :: x :: xs := by simp
    have hnext : m.links.next list = x := h.ring.seg.1
    have hafter : m.links.next x = xs.headD list := by
      cases xs with
      | nil => exact h.ring.seg.2.2.1
      | cons y ys => exact h.ring.seg.2.2.1
    have hne : x ≠ list := by
      intro heq
      exact (List.nodup_cons.1 h.ring.nodup).1 (by simp [heq])
    have hfree := h.free
    obtain ⟨m', hm', h'⟩ := ih hfree (Nat.le_of_succ_le_succ hlen)
    -- the node that the loop goes on to is not the one it has freed
    have hhead := next_head hfree.ring
    have htmp := hfree.node (hhead ▸ hfree.ring.next_mem List.mem_cons_self)
    rw [hhead] at hm'
    have hread : m.read (some p) = .ok line := by
      rw [Memory.read, if_pos ((h.strings p).2 (Or.inl List.mem_cons_self))]
      exact congrArg Except.ok (List.cons.inj h.lines).1
    have hfreeString : freeString { m with links := (Procenv.prListRemove m.links x).1 } (some p) =
        .ok { m with links := (Procenv.prListRemove m.links x).1, strings := m.strings.erase p } :=
      if_pos ((h.strings p).2 (Or.inl List.mem_cons_self))
    have hremove : m.prListRemove x = .ok { m with links := (Procenv.prListRemove m.links x).1 } := by
      rw [Memory.prListRemove, touch_ok (h.node hx), touch_ok (h.node (h.ring.prev_mem hx)),
        touch_ok (h.node (h.ring.next_mem hx))]
      rfl
    refine ⟨m', ?_, h'⟩
    rw [hnext, showLoop, if_neg hne, hremove]
    change (m.touch x).bind (fun _ => (m.read (m.links.data x)).bind fun line' =>
      (freeString { m with links := (Procenv.prListRemove m.links x).1 } (m.links.data x)).bind _) = _
    rw [touch_ok (h.node hx), (List.cons.inj h.values).1, hread, hfreeString]
    change (freeNode _ x).bind _ = _
    rw [freeNode, if_pos (h.node hx)]
    change (touch _ (m.links.next x)).bind _ = _
    rw [hafter, touch_ok htmp]
    change (showLoop list fuel _ _ _).bind _ = _
    rw [hm']
    rfl

/-! ## The function -/

/-- The links, one after the other. -/
theorem Listed.addAll (hfresh : ∀ n s, fresh n s ∉ s) (h : Listed m₀ m list xs ps lines) (links : List MbStr) :
    ∃ m' xs' ps', links.foldlM (addLine fresh list) m = .ok m' ∧
      Listed m₀ m' list xs' ps' (links.foldl (fun ls line => Show.insertSorted line ls) lines) := by
  induction links generalizing m xs ps lines with
  | nil => exact ⟨m, xs, ps, rfl, h⟩
  | cons line links ih =>
    obtain ⟨m₁, xs₁, ps₁, hm₁, h₁⟩ := h.add hfresh line
    obtain ⟨m', xs', ps', hm', h'⟩ := ih h₁
    refine ⟨m', xs', ps', ?_, h'⟩
    rw [List.foldlM_cons, hm₁]
    exact hm'

/-- The breadcrumbs are still there. -/
theorem Elsewhere.follows {path : Option (List MbStr)} (h : Elsewhere m₀ m) (hnodes : m.nodes = m₀.nodes)
    (hstrings : m.strings = m₀.strings) (hf : Crumbs.Follows m₀ path) : Crumbs.Follows m path := by
  cases path with
  | none =>
    obtain ⟨hcrumb, hlive⟩ := hf
    refine ⟨h.crumbList.trans hcrumb, ?_⟩
    rw [Memory.live, hnodes, hstrings]
    exact hlive
  | some path =>
    obtain ⟨crumbs, xs, ps, hc⟩ := hf
    have hnode {q : Nat} (hq : q ∈ crumbs :: xs) : q ∈ m₀.nodes := (hc.nodes q).2 hq
    have hstr {q : Nat} (hq : q ∈ ps) : q ∈ m₀.strings := (hc.strings q).2 (List.mem_append_right _ hq)
    refine ⟨crumbs, xs, ps, h.crumbList.trans hc.crumbList, ⟨hc.ring.nodup, hc.ring.seg.congr ?_ ?_⟩, ?_, ?_, ?_,
      hc.nodup, ?_, ?_⟩
    · intro q hq
      exact h.next q (hnode hq)
    · intro q hq
      apply h.prev q
      apply hnode
      simpa [or_comm] using hq
    · rw [hnodes]
      exact hc.nodes
    · exact (h.data crumbs (hnode List.mem_cons_self)).trans hc.head
    · rw [← hc.data]
      apply List.map_congr_left
      intro q hq
      exact h.data q (hnode (List.mem_cons_of_mem _ hq))
    · rw [hstrings]
      exact hc.strings
    · rw [← hc.names]
      apply List.map_congr_left
      intro q hq
      exact h.str q (hstr hq)

/-- **The links are shown in order and everything is freed**: whatever was in memory and whatever addresses
the allocator hands out, every pointer that is followed is live, the strings are those that the list of
`Show.showNamespacesLinux` has, and what was in memory before is there again, and nothing else; so are the
breadcrumbs. -/
theorem showNamespacesLinux_frees (hfresh : ∀ n s, fresh n s ∉ s) (m₀ : Memory) (links : List MbStr) :
    ∃ m' lines, showNamespacesLinux fresh m₀ links = .ok (m', lines) ∧
      lines = links.foldl (fun ls line => Show.insertSorted line ls) [] ∧ lines.Perm links ∧
      lines.Pairwise (strcmp · · ≤ 0) ∧ m'.nodes = m₀.nodes ∧ m'.strings = m₀.strings ∧
      Elsewhere m₀ m' ∧ ∀ path, Crumbs.Follows m₀ path → Crumbs.Follows m' path := by
  let list := (m₀.prListNew fresh none).2
  obtain ⟨m₁, xs, ps, hm₁, h₁⟩ := (listed_new hfresh m₀).addAll hfresh links
  obtain ⟨m₂, hm₂, h₂⟩ := h₁.shows h₁.length_le
  change showLoop list _ (m₁.links.next list) (m₁.links.next (m₁.links.next list)) m₁ = _ at hm₂
  have hsort : links.foldl (fun ls line => Show.insertSorted line ls) [] = links.mergeSort byteLe :=
    foldl_insertBehind byteLe_trans byteLe_total links
  have hsorted : (links.mergeSort byteLe).Pairwise (strcmp · · ≤ 0) :=
    (List.pairwise_mergeSort byteLe_trans byteLe_total links).imp of_decide_eq_true
  have hlist : list ∈ m₁.nodes := h₁.node List.mem_cons_self
  have hfirst : m₁.links.next list ∈ m₁.nodes := h₁.node (h₁.ring.next_mem List.mem_cons_self)
  let m' : Memory := { m₂ with nodes := m₂.nodes.erase list }
  have hnodes : m'.nodes = m₀.nodes := by
    ext q
    refine Finset.mem_erase.trans ?_
    rw [h₂.nodes, List.mem_singleton]
    constructor
    · rintro ⟨hne, hq⟩
      exact hq.resolve_left hne
    · intro hq
      exact ⟨fun heq => h₂.apartNodes list List.mem_cons_self (heq ▸ hq), Or.inr hq⟩
  have hstrings : m'.strings = m₀.strings := by
    ext q
    refine (h₂.strings q).trans ?_
    simp
  have helse : Elsewhere m₀ m' := ⟨h₂.next, h₂.prev, h₂.data, h₂.str, h₂.crumbList⟩
  refine ⟨m', _, ?_, rfl, hsort ▸ List.mergeSort_perm links byteLe, hsort ▸ hsorted, hnodes, hstrings, helse,
    fun path => helse.follows hnodes hstrings⟩
  unfold showNamespacesLinux
  change ((links.foldlM (addLine fresh list) (m₀.prListNew fresh none).1).bind _) = _
  rw [hm₁]
  change (m₁.touch list).bind (fun _ => (m₁.touch (m₁.links.next list)).bind _) = _
  rw [touch_ok hlist, touch_ok hfirst]
  change (showLoop list _ (m₁.links.next list) (m₁.links.next (m₁.links.next list)) m₁).bind _ = _
  rw [hm₂]
  change (freeNode m₂ list).bind _ = _
  rw [freeNode, if_pos (h₂.node List.mem_cons_self)]
  rfl

/-- Two links, beside the breadcrumbs of an open group. -/
theorem showNamespacesLinux_frees_group :
    let m₀ := (Memory.addBreadcrumb lowest {} (bytes "namespaces")).toOption.getD {}
    ∃ m' lines, showNamespacesLinux lowest m₀ [bytes "uts uts:[1]", bytes "ipc ipc:[2]"] = .ok (m', lines) ∧
      lines = [bytes "ipc ipc:[2]", bytes "uts uts:[1]"] ∧ m'.nodes = m₀.nodes ∧ Elsewhere m₀ m' := by
  intro m₀
  obtain ⟨m', lines, hrun, hlines, -, -, hnodes, -, helse, -⟩ :=
    showNamespacesLinux_frees lowest_fresh m₀ [bytes "uts uts:[1]", bytes "ipc ipc:[2]"]
  exact ⟨m', lines, hrun, hlines.trans (by decide), hnodes, helse⟩

end Procenv.Namespaces
