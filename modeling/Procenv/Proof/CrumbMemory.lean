import Mathlib.Data.Fintype.EquivFin
import Mathlib.Data.Nat.Find
import Procenv.Data.Outcome
import Procenv.Model.CrumbMemory
import Procenv.Proof.Crumb

/-!
# The breadcrumbs are freed

As long as the calls nest, `crumb_list` is a ring of the live nodes, and the live strings are the names of
the open groups (`Holds`). A closing outside all groups removes and frees the head of the list itself, and
`crumb_list` is left dangling; from there on (`Spoiled`) a run either follows the dangling pointer, or the
allocator hands out the address of the head again and its string is never freed.

* `Holds.prepend`, `Holds.remove`, `Holds.entry`, `Holds.clear`: what the operations do to the list.
* `call_follows`, `call_spoiled`: a call.
* `run_released_iff`: **when a run frees everything**, whatever the allocator.
* `run_lines`: the names that such a run reads are those of the document.
-/

namespace Procenv.Crumbs

open Text Data Outcome Memory

variable {fresh : Nat → Finset Nat → Nat} {m : Memory} {list : Nat} {d : Option Nat} {xs ps : List Nat}
  {path : List MbStr} {name : MbStr}

/-! ## The list -/

/-- The list at `list` has the nodes `xs`, with the strings `ps` of the names `path`; `d` is the string
of the head. Nothing else is live. -/
structure Holds (m : Memory) (list : Nat) (d : Option Nat) (xs ps : List Nat) (path : List MbStr) : Prop where
  crumbList : m.crumbList = some list
  ring : Ring m.links.next m.links.prev list xs
  nodes : ∀ p, p ∈ m.nodes ↔ p ∈ list :: xs
  head : m.links.data list = d
  data : xs.map m.links.data = ps.map some
  nodup : (d.toList ++ ps).Nodup
  strings : ∀ p, p ∈ m.strings ↔ p ∈ d.toList ++ ps
  names : ps.map m.str = path

theorem touch_ok {p : Nat} (h : p ∈ m.nodes) : m.touch p = .ok () := if_pos h

theorem touch_error {p : Nat} (h : p ∉ m.nodes) : m.touch p = .error (.notLive p) := if_neg h

theorem Holds.card (h : Holds m list d xs ps path) : m.nodes.card = xs.length + 1 := by
  have hnodes : m.nodes = (list :: xs).toFinset := by
    ext p
    rw [h.nodes, List.mem_toFinset]
  rw [hnodes, List.toFinset_card_of_nodup h.ring.nodup, List.length_cons]

/-- A node for every name. -/
theorem Holds.length (h : Holds m list d xs ps path) : xs.length = ps.length ∧ ps.length = path.length := by
  have hdata := congrArg List.length h.data
  have hnames := congrArg List.length h.names
  simp only [List.length_map] at hdata hnames
  exact ⟨hdata, hnames⟩

/-- `m'` has the node `e` and the string `s` that it points to in blocks that were not in use in `m`. The rest
is as it was. -/
structure NewNode (m m' : Memory) (e s : Nat) (text : MbStr) : Prop where
  node : e ∉ m.nodes
  string : s ∉ m.strings
  nodes : ∀ q, q ∈ m'.nodes ↔ q = e ∨ q ∈ m.nodes
  strings : ∀ q, q ∈ m'.strings ↔ q = s ∨ q ∈ m.strings
  next : ∀ q ∈ m.nodes, m'.links.next q = m.links.next q
  prev : ∀ q ∈ m.nodes, m'.links.prev q = m.links.prev q
  data : ∀ q ∈ m.nodes, m'.links.data q = m.links.data q
  str : ∀ q ∈ m.strings, m'.str q = m.str q
  value : m'.links.data e = some s
  text : m'.str s = text
  crumbList : m'.crumbList = m.crumbList

/-- A copy of a text, and a node for it. -/
theorem newNode (hfresh : ∀ n s, fresh n s ∉ s) (m : Memory) {text : MbStr} {n : Nat} (hn : text.length ≤ n) :
    let copy := m.strndup fresh text n
    let node := copy.1.prListNew fresh (some copy.2)
    NewNode m node.1 node.2 copy.2 text := by
  intro copy node
  have hnode : node.2 ∉ m.nodes := fun hmem => hfresh _ _ (Finset.mem_union_left _ hmem)
  have hstring : copy.2 ∉ m.strings := fun hmem => hfresh _ _ (Finset.mem_union_right _ hmem)
  have hne {q : Nat} (hq : q ∈ m.nodes) : q ≠ node.2 := fun heq => hnode (heq ▸ hq)
  have hne' {q : Nat} (hq : q ∈ m.strings) : q ≠ copy.2 := fun heq => hstring (heq ▸ hq)
  refine ⟨hnode, hstring, fun _ => Finset.mem_insert, fun _ => Finset.mem_insert, ?_, ?_, ?_, ?_,
    Function.update_self .., (Function.update_self ..).trans (List.take_of_length_le hn), rfl⟩
  · intro q hq
    exact Function.update_of_ne (hne hq) ..
  · intro q hq
    exact Function.update_of_ne (hne hq) ..
  · intro q hq
    exact Function.update_of_ne (hne hq) ..
  · intro q hq
    exact Function.update_of_ne (hne' hq) ..

namespace NewNode

variable {m' : Memory} {e s : Nat} {text : MbStr} {l : List Nat}

/-- A list of other nodes is still there. -/
theorem ring (h : NewNode m m' e s text) (hmem : ∀ q ∈ list :: xs, q ∈ m.nodes)
    (hr : Ring m.links.next m.links.prev list xs) : Ring m'.links.next m'.links.prev list xs := by
  refine ⟨hr.nodup, hr.seg.congr (fun q hq => h.next q (hmem q hq)) fun q hq => h.prev q (hmem q ?_)⟩
  simpa [or_comm] using hq

theorem map_data (h : NewNode m m' e s text) (hl : ∀ q ∈ l, q ∈ m.nodes) :
    l.map m'.links.data = l.map m.links.data :=
  List.map_congr_left fun q hq => h.data q (hl q hq)

theorem map_str (h : NewNode m m' e s text) (hl : ∀ q ∈ l, q ∈ m.strings) : l.map m'.str = l.map m.str :=
  List.map_congr_left fun q hq => h.str q (hl q hq)

end NewNode

/-- **A name is added at the end of the list**, in a node and a string that were not in use. -/
theorem Holds.prepend (hfresh : ∀ n s, fresh n s ∉ s) (h : Holds m list d xs ps path) (name : MbStr) :
    ∃ m' e p, m.prListPrependStr fresh list name = .ok m' ∧
      Holds m' list d (xs ++ [e]) (ps ++ [p]) (path ++ [name]) := by
  let p := fresh m.allocs m.live
  let m₁ := (m.strndup fresh name (1 + name.length)).1
  let e := fresh m₁.allocs m₁.live
  let m₂ := (m₁.prListNew fresh (some p)).1
  have hnew : NewNode m m₂ e p name := newNode hfresh m (by omega)
  have hold {q : Nat} (hq : q ∈ list :: xs) : q ∈ m.nodes := (h.nodes q).2 hq
  have holds {q : Nat} (hq : q ∈ ps) : q ∈ m.strings := (h.strings q).2 (List.mem_append_right _ hq)
  have hp : p ∉ d.toList ++ ps := fun hmem => hnew.string ((h.strings p).2 hmem)
  have he : e ∉ list :: xs := fun hmem => hnew.node (hold hmem)
  have hnode (q : Nat) : q ∈ m₂.nodes ↔ q = e ∨ q ∈ list :: xs := by
    rw [← h.nodes]
    exact hnew.nodes q
  have hring : Ring m₂.links.next m₂.links.prev list xs := hnew.ring (fun _ => hold) h.ring
  refine ⟨{ m₂ with links := Procenv.prListPrepend m₂.links list e }, e, p, ?_, ?_⟩
  · change m₂.prListPrepend list e = _
    rw [Memory.prListPrepend, touch_ok ((hnode e).2 (Or.inl rfl)),
      touch_ok ((hnode list).2 (Or.inr List.mem_cons_self)), touch_ok ((hnode _).2 (Or.inr hring.prev_head_mem))]
    rfl
  · refine ⟨h.crumbList, prListPrepend_ring hring he, fun q => ?_, ?_, ?_, ?_, fun q => ?_, ?_⟩
    · refine (hnode q).trans ?_
      simp only [List.mem_cons, List.mem_append, List.not_mem_nil, or_false]
      tauto
    · exact (hnew.data list (hold List.mem_cons_self)).trans h.head
    · rw [List.map_append, List.map_append, ← h.data]
      congr 1
      · exact hnew.map_data fun q hq => hold (List.mem_cons_of_mem _ hq)
      · exact congrArg (fun o => [o]) hnew.value
    · rw [← List.append_assoc]
      exact List.nodup_append.2 ⟨h.nodup, List.nodup_singleton p, fun a ha b hb h' =>
        hp (List.mem_singleton.1 hb ▸ h' ▸ ha)⟩
    · refine (hnew.strings q).trans ?_
      rw [h.strings, ← List.append_assoc, List.mem_append (t := [p]), List.mem_singleton, or_comm]
    · rw [List.map_append, ← h.names]
      congr 1
      · exact hnew.map_str fun q => holds
      · exact congrArg (fun s => [s]) hnew.text

/-- `remove_breadcrumb` follows live pointers only. -/
theorem Holds.remove_eq (h : Holds m list d xs ps path) : m.removeBreadcrumb =
    (freeString { m with links := (Procenv.prListRemove m.links (m.links.prev list)).1 }
      (m.links.data (m.links.prev list))).bind fun m' => m'.freeNode (m.links.prev list) := by
  have hnode {q : Nat} (hq : q ∈ list :: xs) : m.touch q = .ok () := touch_ok ((h.nodes q).2 hq)
  have hlast := h.ring.prev_head_mem
  conv_lhs => rw [Memory.removeBreadcrumb, h.crumbList]
  dsimp only
  rw [hnode List.mem_cons_self, Memory.prListRemove, hnode hlast, hnode (h.ring.prev_mem hlast),
    hnode (h.ring.next_mem hlast)]
  rfl

/-- **The last name is removed**, with its node and its string. -/
theorem Holds.remove {e p : Nat} (h : Holds m list d (xs ++ [e]) (ps ++ [p]) (path ++ [name])) :
    ∃ m', m.removeBreadcrumb = .ok m' ∧ Holds m' list d xs ps path := by
  have hmem : e ∈ list :: (xs ++ [e]) := by simp
  have hdata := h.data
  rw [List.map_append, List.map_append] at hdata
  obtain ⟨hdata, hlast⟩ := List.append_inj' hdata rfl
  have hp : m.links.data e = some p := (List.cons.inj hlast).1
  have hnames := h.names
  rw [List.map_append] at hnames
  have hnodup := h.nodup
  rw [← List.append_assoc] at hnodup
  have hexs : e ∉ list :: xs := by
    have := h.ring.nodup
    rw [← List.cons_append] at this
    exact fun hmem => (List.nodup_append.1 this).2.2 e hmem e (by simp) rfl
  have hps : p ∉ d.toList ++ ps := fun hmem => (List.nodup_append.1 hnodup).2.2 p hmem p (by simp) rfl
  refine ⟨{ m with links := (Procenv.prListRemove m.links e).1, strings := m.strings.erase p,
                   nodes := m.nodes.erase e }, ?_, ?_⟩
  · rw [h.remove_eq, h.ring.prev_head, hp, freeString, if_pos ((h.strings p).2 (by simp))]
    exact if_pos ((h.nodes e).2 hmem)
  · refine ⟨h.crumbList, prListRemove_ring h.ring, fun q => ?_, h.head, hdata, (List.nodup_append.1 hnodup).1,
      fun q => ?_, (List.append_inj' hnames rfl).1⟩
    · refine Finset.mem_erase.trans ?_
      rw [h.nodes, ← List.cons_append, List.mem_append (t := [e]), List.mem_singleton]
      exact ⟨fun hq => hq.2.resolve_right hq.1, fun hq => ⟨fun h' => hexs (h' ▸ hq), Or.inl hq⟩⟩
    · refine Finset.mem_erase.trans ?_
      rw [h.strings, ← List.append_assoc, List.mem_append (t := [p]), List.mem_singleton]
      exact ⟨fun hq => hq.2.resolve_right hq.1, fun hq => ⟨fun h' => hps (h' ▸ hq), Or.inl hq⟩⟩

/-- **The head itself is removed** when no name is left, and freed with its own string. -/
theorem Holds.remove_head (h : Holds m list d [] [] path) :
    ∃ m', m.removeBreadcrumb = .ok m' ∧ m'.crumbList = some list ∧ m'.nodes = ∅ ∧ m'.strings = ∅ := by
  have hnodes : m.nodes.erase list = ∅ := by
    ext q
    simp [h.nodes]
  have hlist : list ∈ m.nodes := (h.nodes list).2 List.mem_cons_self
  rw [h.remove_eq, h.ring.prev_head_nil, h.head]
  cases hd : d with
  | none =>
    have hstrings : m.strings = ∅ := by
      ext q
      simp [h.strings, hd]
    exact ⟨_, if_pos hlist, h.crumbList, hnodes, hstrings⟩
  | some s =>
    have hs : s ∈ m.strings := (h.strings s).2 (by simp [hd])
    have hstrings : m.strings.erase s = ∅ := by
      ext q
      simp [h.strings, hd]
    rw [freeString, if_pos hs]
    exact ⟨_, if_pos hlist, h.crumbList, hnodes, hstrings⟩

/-- `entry` reads the names in their order. -/
theorem crumbLoop_eq {a fuel : Nat} (hseg : Seg m.links.next m.links.prev a xs list) (hlist : list ∉ xs)
    (hlen : xs.length ≤ fuel) (hnodes : ∀ p ∈ xs, p ∈ m.nodes) (hdata : xs.map m.links.data = ps.map some)
    (hstrings : ∀ p ∈ ps, p ∈ m.strings) : m.crumbLoop list fuel (m.links.next a) = .ok (ps.map m.str) := by
  induction xs generalizing a ps fuel with
  | nil =>
    obtain rfl : ps = [] := by simpa using hdata.symm
    rw [hseg.1]
    cases fuel with
    | zero => exact if_pos rfl
    | succ fuel => exact if_pos rfl
  | cons x xs ih =>
    obtain ⟨p, ps, rfl⟩ : ∃ p ps', ps = p :: ps' := by
      cases ps with
      | nil => simp at hdata
      | cons p ps => exact ⟨p, ps, rfl⟩
    obtain ⟨fuel, rfl⟩ : ∃ f, fuel = f + 1 := ⟨fuel - 1, by simp only [List.length_cons] at hlen; omega⟩
    obtain ⟨hnext, -, hseg⟩ := hseg
    obtain ⟨hx, hxs⟩ := List.cons.inj hdata
    rw [List.mem_cons, not_or] at hlist
    have hrest := ih hseg hlist.2 (by simpa using hlen) (fun q hq => hnodes q (List.mem_cons_of_mem _ hq)) hxs
      fun q hq => hstrings q (List.mem_cons_of_mem _ hq)
    rw [hnext, crumbLoop, if_neg (Ne.symm hlist.1), touch_ok (hnodes x List.mem_cons_self), hx,
      hrest, Memory.read, if_pos (hstrings p List.mem_cons_self)]
    rfl

theorem Holds.entry (h : Holds m list d xs ps path) : m.entry = .ok path := by
  have hlen : xs.length ≤ m.nodes.card := by
    rw [h.card]
    omega
  have hloop := crumbLoop_eq h.ring.seg (List.nodup_cons.1 h.ring.nodup).1 hlen
    (fun p hp => (h.nodes p).2 (List.mem_cons_of_mem _ hp)) h.data
    fun p hp => (h.strings p).2 (List.mem_append_right _ hp)
  rw [Memory.entry, h.crumbList]
  dsimp only
  rw [touch_ok ((h.nodes list).2 List.mem_cons_self), ← h.names]
  exact hloop

/-- **The loop of `clear_breadcrumbs` removes every name.** -/
theorem Holds.clear {fuel : Nat} (h : Holds m list d xs ps path) (hlen : xs.length ≤ fuel) :
    ∃ m', clearLoop list fuel m = .ok m' ∧ Holds m' list d [] [] [] := by
  have hlist {m : Memory} {xs ps : List Nat} {path : List MbStr} (h : Holds m list d xs ps path) :
      m.touch list = .ok () := touch_ok ((h.nodes list).2 List.mem_cons_self)
  have hdone {m : Memory} {ps : List Nat} {path : List MbStr} (h : Holds m list d [] ps path) (n : Nat) :
      clearLoop list n m = .ok m ∧ Holds m list d [] [] [] := by
    obtain ⟨hps, hpath⟩ := h.length
    obtain rfl : ps = [] := List.length_eq_zero_iff.1 hps.symm
    obtain rfl : path = [] := List.length_eq_zero_iff.1 hpath.symm
    refine ⟨?_, h⟩
    cases n with
    | zero =>
      rw [clearLoop, hlist h]
      exact if_pos h.ring.prev_head_nil
    | succ n =>
      rw [clearLoop, hlist h]
      exact if_pos h.ring.prev_head_nil
  induction fuel generalizing m xs ps path with
  | zero =>
    obtain rfl : xs = [] := List.length_eq_zero_iff.1 (Nat.le_zero.1 hlen)
    exact ⟨m, hdone h 0⟩
  | succ fuel ih =>
    rcases List.eq_nil_or_concat' xs with rfl | ⟨ys, e, rfl⟩
    · exact ⟨m, hdone h _⟩
    · obtain ⟨hps, hpath⟩ := h.length
      rcases List.eq_nil_or_concat' ps with rfl | ⟨qs, p, rfl⟩
      · simp at hps
      · rcases List.eq_nil_or_concat' path with rfl | ⟨names, name, rfl⟩
        · simp at hpath
        · obtain ⟨m₁, hm₁, h₁⟩ := h.remove
          obtain ⟨m', hm', h'⟩ := ih h₁ (by simpa using hlen)
          refine ⟨m', ?_, h'⟩
          rw [clearLoop, hlist h]
          change (if m.links.prev list = list then _ else m.removeBreadcrumb.bind _) = _
          rw [h.ring.prev_head, if_neg h.ring.last_ne_head, hm₁]
          exact hm'

/-- **`free_breadcrumbs` leaves the string of the head.** -/
theorem Holds.free (h : Holds m list d xs ps path) :
    ∃ m', m.freeBreadcrumbs .crumb = .ok m' ∧ m'.nodes = ∅ ∧ ∀ p, p ∈ m'.strings ↔ p ∈ d.toList := by
  obtain ⟨m₁, hm₁, h₁⟩ := h.clear (Nat.le_of_succ_le h.card.ge)
  have hnodes : m₁.nodes.erase list = ∅ := by
    ext q
    simp [h₁.nodes]
  refine ⟨{ m₁ with nodes := m₁.nodes.erase list }, ?_, hnodes, fun p => ?_⟩
  · unfold freeBreadcrumbs
    rw [h.crumbList]
    dsimp only
    rw [hm₁]
    exact if_pos ((h₁.nodes list).2 List.mem_cons_self)
  · rw [h₁.strings, List.append_nil]

/-! ## Calls -/

/-- The calls have nested so far, and `path` are the open groups; none before the first group is opened. -/
def Follows (m : Memory) : Option (List MbStr) → Prop
  | none => m.crumbList = none ∧ m.live = ∅
  | some path => ∃ list xs ps, Holds m list none xs ps path

/-- The head of the list has been freed; a node at its address has a string. -/
def Spoiled (m : Memory) : Prop :=
  ∃ list, m.crumbList = some list ∧ (m.live = ∅ ∨ ∃ s xs ps path, Holds m list (some s) xs ps path)

theorem live_empty (hn : m.nodes = ∅) (hs : m.strings = ∅) : m.live = ∅ := Finset.union_eq_empty.2 ⟨hn, hs⟩

theorem Holds.add (hfresh : ∀ n s, fresh n s ∉ s) (h : Holds m list d xs ps path) (name : MbStr) :
    ∃ m' e p, m.addBreadcrumb fresh name = .ok m' ∧ Holds m' list d (xs ++ [e]) (ps ++ [p]) (path ++ [name]) := by
  have hm : Holds { m with crumbList := some list } list d xs ps path :=
    ⟨rfl, h.ring, h.nodes, h.head, h.data, h.nodup, h.strings, h.names⟩
  rw [Memory.addBreadcrumb, h.crumbList]
  exact hm.prepend hfresh name

/-- The list is made with the first name. -/
theorem add_first (hfresh : ∀ n s, fresh n s ∉ s) (hnone : m.crumbList = none)
    (hlive : m.live = ∅) (name : MbStr) :
    ∃ m' list e p, m.addBreadcrumb fresh name = .ok m' ∧ Holds m' list none [e] [p] [name] := by
  obtain ⟨hnodes, hstrings⟩ := Finset.union_eq_empty.1 hlive
  let head := fresh m.allocs m.live
  have hm : Holds { (m.prListNew fresh none).1 with crumbList := some head } head none [] [] [] := by
    refine ⟨rfl, Ring.single ?_ ?_, fun p => ?_, ?_, rfl, by simp, fun p => ?_, rfl⟩
    · exact Function.update_self ..
    · exact Function.update_self ..
    · refine Finset.mem_insert.trans ?_
      simp [hnodes, head]
    · exact Function.update_self ..
    · change p ∈ m.strings ↔ _
      simp [hstrings]
  obtain ⟨m', e, p, hadd, h'⟩ := hm.prepend hfresh name
  refine ⟨m', head, e, p, ?_, h'⟩
  rw [Memory.addBreadcrumb, hnone]
  exact hadd

/-- **A name is added to a list whose head has been freed** only if the node gets the address of the head. -/
theorem add_dangling (hlist : m.crumbList = some list) (hlive : m.live = ∅) {m' : Memory}
    (h : m.addBreadcrumb fresh name = .ok m') : ∃ s, Holds m' list (some s) [] [] [] := by
  obtain ⟨hnodes, hstrings⟩ := Finset.union_eq_empty.1 hlive
  let p := fresh m.allocs m.live
  let m₁ := (m.strndup fresh name (1 + name.length)).1
  let e := fresh m₁.allocs m₁.live
  let m₂ := { (m₁.prListNew fresh (some p)).1 with crumbList := some list }
  have hnode (q : Nat) : q ∈ m₂.nodes ↔ q = e := by
    refine Finset.mem_insert.trans (or_iff_left ?_)
    change q ∉ m.nodes
    simp [hnodes]
  have hadd : m.addBreadcrumb fresh name = m₂.prListPrepend list e := by
    rw [Memory.addBreadcrumb, hlist]
    rfl
  rw [hadd, Memory.prListPrepend, touch_ok ((hnode e).2 rfl)] at h
  by_cases he : list = e
  · have hnext : m₂.links.next list = list := by
      rw [he]
      exact Function.update_self ..
    have hprev : m₂.links.prev list = list := by
      rw [he]
      exact Function.update_self ..
    have hmem : list ∈ m₂.nodes := (hnode list).2 he
    rw [hprev, touch_ok hmem] at h
    obtain rfl := Except.ok.inj h
    refine ⟨p, rfl, Ring.single ?_ ?_, fun q => ?_, ?_, rfl, by simp, fun q => ?_, rfl⟩
    · simp [Procenv.prListPrepend, PrHeap.setNext, PrHeap.setPrev, ← he, hprev]
    · simp [Procenv.prListPrepend, PrHeap.setNext, PrHeap.setPrev, ← he, hprev]
    · refine (hnode q).trans ?_
      simp [he]
    · rw [he]
      exact Function.update_self ..
    · refine Finset.mem_insert.trans ?_
      simp [hstrings, p]
  · have hmem : list ∉ m₂.nodes := fun hmem => he ((hnode list).1 hmem)
    rw [touch_error hmem] at h
    cases h

/-- The open groups, from the outermost on (none before the first one is opened), and those around
each entry so far. -/
structure Nesting where
  path : Option (List MbStr) := none
  paths : List (List MbStr) := []

/-- A call, where it nests: there is a group to close, and an entry does not come before all groups. -/
def Nesting.step (n : Nesting) : Event → Option Nesting
  | .sectionOpen name | .containerOpen name => some { n with path := some (n.path.getD [] ++ [name]) }
  | .sectionClose | .containerClose =>
    if n.path.getD [] = [] then none else some { n with path := n.path.map List.dropLast }
  | .entry _ _ => n.path.map fun path => { n with paths := n.paths ++ [path] }
  | .objectOpen _ | .objectClose _ => some n

variable {s s' : State} {n n' : Nesting} {e : Event} {es : List Event}

theorem Follows.add (hfresh : ∀ n s, fresh n s ∉ s) {path : Option (List MbStr)} (h : Follows m path)
    (name : MbStr) : ∃ m', m.addBreadcrumb fresh name = .ok m' ∧ Follows m' (some (path.getD [] ++ [name])) := by
  cases path with
  | none =>
    obtain ⟨m', list, e, p, hadd, h'⟩ := add_first hfresh h.1 h.2 name
    exact ⟨m', hadd, list, [e], [p], h'⟩
  | some path =>
    obtain ⟨list, xs, ps, h⟩ := h
    obtain ⟨m', e, p, hadd, h'⟩ := h.add hfresh name
    exact ⟨m', hadd, list, _, _, h'⟩

theorem Follows.remove {path : Option (List MbStr)} (h : Follows m path) (hpath : path.getD [] ≠ []) :
    ∃ m', m.removeBreadcrumb = .ok m' ∧ Follows m' (path.map List.dropLast) := by
  cases path with
  | none => exact absurd rfl hpath
  | some path =>
    obtain ⟨list, xs, ps, h⟩ := h
    obtain ⟨names, name, rfl⟩ := (List.eq_nil_or_concat' path).resolve_left hpath
    obtain ⟨hps, hnames⟩ := h.length
    rcases List.eq_nil_or_concat' xs with rfl | ⟨ys, e, rfl⟩
    · simp_all
    rcases List.eq_nil_or_concat' ps with rfl | ⟨qs, p, rfl⟩
    · simp_all
    obtain ⟨m', hremove, h'⟩ := h.remove
    exact ⟨m', hremove, list, ys, qs, by simpa using h'⟩

theorem follows_start : Follows ({} : State).memory ({} : Nesting).path := ⟨rfl, rfl⟩

/-- **A call that nests** does to the memory what it does to the open groups. -/
theorem call_follows (hfresh : ∀ n s, fresh n s ∉ s) (h : Follows s.memory n.path) (hpaths : s.paths = n.paths)
    (hn : n.step e = some n') :
    ∃ s', s.call fresh .crumb e = .ok s' ∧ Follows s'.memory n'.path ∧ s'.paths = n'.paths := by
  have hopen (name : MbStr) (he : e = .sectionOpen name ∨ e = .containerOpen name) :
      ∃ s', s.call fresh .crumb e = .ok s' ∧ Follows s'.memory n'.path ∧ s'.paths = n'.paths := by
    obtain ⟨m', hadd, h'⟩ := h.add hfresh name
    refine ⟨{ s with memory := m' }, ?_, ?_⟩
    · rcases he with rfl | rfl
      · simp only [State.call, hadd, bind, Except.bind, pure, Except.pure]
      · simp only [State.call, hadd, bind, Except.bind, pure, Except.pure]
    · obtain rfl : { n with path := some (n.path.getD [] ++ [name]) } = n' := by
        rcases he with rfl | rfl <;> exact Option.some.inj hn
      exact ⟨h', hpaths⟩
  have hclose (he : e = .sectionClose ∨ e = .containerClose) :
      ∃ s', s.call fresh .crumb e = .ok s' ∧ Follows s'.memory n'.path ∧ s'.paths = n'.paths := by
    have hstep : (if n.path.getD [] = [] then none else some { n with path := n.path.map List.dropLast }) =
      some n' := by
      rcases he with rfl | rfl <;> exact hn
    obtain ⟨hpath, hn⟩ := Option.ite_none_left_eq_some.1 hstep
    obtain ⟨m', hremove, h'⟩ := h.remove hpath
    refine ⟨{ s with memory := m' }, ?_, ?_⟩
    · rcases he with rfl | rfl
      · simp only [State.call, hremove, bind, Except.bind, pure, Except.pure]
      · simp only [State.call, hremove, bind, Except.bind, pure, Except.pure]
    · obtain rfl := Option.some.inj hn
      exact ⟨h', hpaths⟩
  cases e with
  | entry name value =>
    obtain ⟨path, hpath, rfl⟩ := Option.map_eq_some_iff.1 hn
    rw [hpath] at h
    obtain ⟨list, xs, ps, h⟩ := h
    refine ⟨{ s with paths := s.paths ++ [path] }, ?_, ?_, ?_⟩
    · simp only [State.call, h.entry, bind, Except.bind, pure, Except.pure]
    · simp only [hpath]
      exact ⟨list, xs, ps, h⟩
    · simp only [hpaths]
  | sectionOpen name => exact hopen name (Or.inl rfl)
  | containerOpen name => exact hopen name (Or.inr rfl)
  | sectionClose => exact hclose (Or.inl rfl)
  | containerClose => exact hclose (Or.inr rfl)
  | objectOpen retain =>
    obtain rfl := Option.some.inj hn
    exact ⟨s, rfl, h, hpaths⟩
  | objectClose retain =>
    obtain rfl := Option.some.inj hn
    exact ⟨s, rfl, h, hpaths⟩

/-- What a call has done to the memory. -/
theorem call_cases (h : s.call fresh .crumb e = .ok s') :
    (∃ name, (e = .sectionOpen name ∨ e = .containerOpen name) ∧
      s.memory.addBreadcrumb fresh name = .ok s'.memory) ∨
    ((e = .sectionClose ∨ e = .containerClose) ∧ s.memory.removeBreadcrumb = .ok s'.memory) ∨
    (∃ name value path, e = .entry name value ∧ s.memory.entry = .ok path ∧ s'.memory = s.memory) ∨
    (e.isObject = true ∧ s' = s) := by
  have hopen (name : MbStr)
      (h : (do let m ← s.memory.addBreadcrumb fresh name; return { s with memory := m }) = Except.ok s') :
      s.memory.addBreadcrumb fresh name = .ok s'.memory := by
    obtain ⟨m, hm, h⟩ := ok_of_bind h
    obtain rfl := Except.ok.inj h
    exact hm
  have hclose (h : (do let m ← s.memory.removeBreadcrumb; return { s with memory := m }) = Except.ok s') :
      s.memory.removeBreadcrumb = .ok s'.memory := by
    obtain ⟨m, hm, h⟩ := ok_of_bind h
    obtain rfl := Except.ok.inj h
    exact hm
  cases e with
  | entry name value =>
    obtain ⟨path, hpath, h⟩ := ok_of_bind h
    obtain rfl := Except.ok.inj h
    exact Or.inr (Or.inr (Or.inl ⟨name, value, path, rfl, hpath, rfl⟩))
  | sectionOpen name => exact Or.inl ⟨name, Or.inl rfl, hopen name h⟩
  | containerOpen name => exact Or.inl ⟨name, Or.inr rfl, hopen name h⟩
  | sectionClose => exact Or.inr (Or.inl ⟨Or.inl rfl, hclose h⟩)
  | containerClose => exact Or.inr (Or.inl ⟨Or.inr rfl, hclose h⟩)
  | objectOpen retain => exact Or.inr (Or.inr (Or.inr ⟨rfl, (Except.ok.inj h).symm⟩))
  | objectClose retain => exact Or.inr (Or.inr (Or.inr ⟨rfl, (Except.ok.inj h).symm⟩))

/-- **A call that does not nest** stops the run or frees the head of the list. -/
theorem call_breaks (h : Follows s.memory n.path) (hn : n.step e = none)
    (hcall : s.call fresh .crumb e = .ok s') :
    Spoiled s'.memory := by
  rcases call_cases hcall with ⟨name, he, -⟩ | ⟨he, hremove⟩ | ⟨name, value, path, rfl, hentry, -⟩ | ⟨he, -⟩
  · rcases he with rfl | rfl <;> cases hn
  · have hpath : n.path.getD [] = [] := by
      rcases he with rfl | rfl <;> simpa [Nesting.step] using hn
    cases hp : n.path with
    | none =>
      rw [hp] at h
      rw [Memory.removeBreadcrumb, h.1] at hremove
      cases hremove
    | some path =>
      rw [hp] at h hpath
      obtain rfl : path = [] := hpath
      obtain ⟨list, xs, ps, h⟩ := h
      obtain ⟨hps, hnames⟩ := h.length
      obtain rfl : ps = [] := List.length_eq_zero_iff.1 hnames
      obtain rfl : xs = [] := List.length_eq_zero_iff.1 hps
      obtain ⟨m', hremove', hlist, hnodes, hstrings⟩ := h.remove_head
      obtain rfl := Except.ok.inj (hremove'.symm.trans hremove)
      exact ⟨list, hlist, Or.inl (live_empty hnodes hstrings)⟩
  · have hp : n.path = none := Option.map_eq_none_iff.1 hn
    rw [hp] at h
    rw [Memory.entry, h.1] at hentry
    cases hentry
  · cases e <;> first | cases hn | cases he

/-- A call on memory that is spoiled stops the run or leaves it spoiled. -/
theorem call_spoiled (hfresh : ∀ n s, fresh n s ∉ s) (h : Spoiled s.memory)
    (hcall : s.call fresh .crumb e = .ok s') :
    Spoiled s'.memory := by
  obtain ⟨list, hlist, hmem⟩ := h
  rcases call_cases hcall with ⟨name, -, hadd⟩ | ⟨-, hremove⟩ | ⟨name, value, path, -, -, hs⟩ | ⟨-, rfl⟩
  · rcases hmem with hlive | ⟨d, xs, ps, path, h⟩
    · obtain ⟨d, h'⟩ := add_dangling hlist hlive hadd
      exact ⟨list, h'.crumbList, Or.inr ⟨d, [], [], [], h'⟩⟩
    · obtain ⟨m', e, p, hadd', h'⟩ := h.add hfresh name
      obtain rfl := Except.ok.inj (hadd'.symm.trans hadd)
      exact ⟨list, h'.crumbList, Or.inr ⟨d, _, _, _, h'⟩⟩
  · rcases hmem with hlive | ⟨d, xs, ps, path, h⟩
    · have hdead : list ∉ s.memory.nodes := by simp [(Finset.union_eq_empty.1 hlive).1]
      rw [Memory.removeBreadcrumb, hlist] at hremove
      dsimp only at hremove
      rw [touch_error hdead] at hremove
      cases hremove
    · obtain ⟨hps, hnames⟩ := h.length
      rcases List.eq_nil_or_concat' xs with rfl | ⟨ys, x, rfl⟩
      · obtain rfl : ps = [] := List.length_eq_zero_iff.1 hps.symm
        obtain ⟨m', hremove', hlist', hnodes, hstrings⟩ := h.remove_head
        obtain rfl := Except.ok.inj (hremove'.symm.trans hremove)
        exact ⟨list, hlist', Or.inl (live_empty hnodes hstrings)⟩
      · rcases List.eq_nil_or_concat' ps with rfl | ⟨qs, p, rfl⟩
        · simp at hps
        rcases List.eq_nil_or_concat' path with rfl | ⟨names, name, rfl⟩
        · simp at hnames
        obtain ⟨m', hremove', h'⟩ := h.remove
        obtain rfl := Except.ok.inj (hremove'.symm.trans hremove)
        exact ⟨list, h'.crumbList, Or.inr ⟨d, ys, qs, names, h'⟩⟩
  · rw [hs]
    exact ⟨list, hlist, hmem⟩
  · exact ⟨list, hlist, hmem⟩

/-! ## Runs -/

/-- **Calls that nest** do to the memory what they do to the open groups. -/
theorem calls_follow (hfresh : ∀ n s, fresh n s ∉ s) (h : Follows s.memory n.path) (hpaths : s.paths = n.paths)
    (hn : es.foldlM Nesting.step n = some n') :
    ∃ s', es.foldlM (State.call fresh .crumb) s = .ok s' ∧ Follows s'.memory n'.path ∧ s'.paths = n'.paths := by
  induction es generalizing s n with
  | nil =>
    obtain rfl : n = n' := by simpa using hn
    exact ⟨s, rfl, h, hpaths⟩
  | cons e es ih =>
    rw [List.foldlM_cons] at hn
    obtain ⟨n₁, h₁, hn⟩ := Option.bind_eq_some_iff.1 hn
    obtain ⟨s₁, hs₁, hfollows, hpaths₁⟩ := call_follows hfresh h hpaths h₁
    obtain ⟨s', hs', h'⟩ := ih hfollows hpaths₁ hn
    refine ⟨s', ?_, h'⟩
    rw [List.foldlM_cons, hs₁]
    exact hs'

/-- Calls that do not nest spoil the memory, if the run comes to their end. -/
theorem calls_spoil (hfresh : ∀ n s, fresh n s ∉ s) (h : Follows s.memory n.path) (hpaths : s.paths = n.paths)
    (hn : es.foldlM Nesting.step n = none) (hrun : es.foldlM (State.call fresh .crumb) s = .ok s') :
    Spoiled s'.memory := by
  induction es generalizing s n with
  | nil => cases hn
  | cons e es ih =>
    rw [List.foldlM_cons] at hn hrun
    obtain ⟨s₁, hs₁, hrun⟩ := ok_of_bind hrun
    cases h₁ : n.step e with
    | none =>
      -- from the first call that does not nest on
      have hspoiled := call_breaks h h₁ hs₁
      have hkeep : Sat (fun _ => True) (fun t : State => Spoiled t.memory)
        (es.foldlM (State.call fresh .crumb) s₁) := by
        refine Sat.foldlM (fun t e _ ht => ?_) hspoiled
        cases ht' : t.call fresh .crumb e with
        | ok t' => exact call_spoiled hfresh ht ht'
        | error f => exact trivial
      exact hkeep.result hrun
    | some n₁ =>
      rw [h₁] at hn
      obtain ⟨t, ht, hfollows, hpaths₁⟩ := call_follows hfresh h hpaths h₁
      obtain rfl := Except.ok.inj (ht.symm.trans hs₁)
      exact ih hfollows hpaths₁ hn hrun

/-- Memory in order is freed. -/
theorem Follows.free {path : Option (List MbStr)} (h : Follows m path) :
    ∃ m', m.freeBreadcrumbs .crumb = .ok m' ∧ m'.live = ∅ := by
  cases path with
  | none =>
    refine ⟨m, ?_, h.2⟩
    unfold freeBreadcrumbs
    rw [h.1]
  | some path =>
    obtain ⟨list, xs, ps, h⟩ := h
    obtain ⟨m', hfree, hnodes, hstrings⟩ := h.free
    refine ⟨m', hfree, live_empty hnodes ?_⟩
    ext p
    simp [hstrings]

/-- Memory that is spoiled is not. -/
theorem Spoiled.free (h : Spoiled m) {m' : Memory} (hfree : m.freeBreadcrumbs .crumb = .ok m') : m'.live ≠ ∅ := by
  obtain ⟨list, hlist, hmem⟩ := h
  rcases hmem with hlive | ⟨d, xs, ps, path, h⟩
  · have hdead : list ∉ m.nodes := by simp [(Finset.union_eq_empty.1 hlive).1]
    unfold freeBreadcrumbs at hfree
    rw [hlist, (Finset.union_eq_empty.1 hlive).1] at hfree
    dsimp only [Finset.card_empty] at hfree
    rw [clearLoop, touch_error hdead] at hfree
    cases hfree
  · obtain ⟨m₁, hfree₁, -, hstrings⟩ := h.free
    obtain rfl := Except.ok.inj (hfree₁.symm.trans hfree)
    have hd : d ∈ m₁.strings := (hstrings d).2 (by simp)
    intro hlive
    rw [(Finset.union_eq_empty.1 hlive).2] at hd
    exact absurd hd (Finset.notMem_empty d)

/-- **A run whose calls nest** frees every block. -/
theorem run_follows (hfresh : ∀ n s, fresh n s ∉ s) (hn : es.foldlM Nesting.step {} = some n') :
    ∃ s, run fresh .crumb es = .ok s ∧ s.memory.live = ∅ ∧ s.paths = n'.paths := by
  obtain ⟨t, ht, hfollows, hpaths⟩ := calls_follow hfresh follows_start rfl hn
  obtain ⟨m', hm', hlive⟩ := hfollows.free
  refine ⟨{ t with memory := m' }, ?_, hlive, hpaths⟩
  rw [run, ht]
  change (t.memory.freeBreadcrumbs .crumb).bind _ = _
  rw [hm']
  rfl

/-- **A run of the crumb format frees every block, and uses none that is not live, if and only if its calls
nest**, whatever addresses the allocator hands out. The entries have then read the names of the groups around
them. -/
theorem run_released_iff (hfresh : ∀ n s, fresh n s ∉ s) (es : List Event) (paths : List (List MbStr)) :
    (∃ s, run fresh .crumb es = .ok s ∧ s.memory.live = ∅ ∧ s.paths = paths) ↔
      ∃ path, es.foldlM Nesting.step {} = some ⟨path, paths⟩ := by
  constructor
  · rintro ⟨s, hrun, hlive, rfl⟩
    cases hn : es.foldlM Nesting.step {} with
    | none =>
      obtain ⟨t, ht, hend⟩ := ok_of_bind hrun
      obtain ⟨m', hm', hs⟩ := ok_of_bind hend
      obtain rfl := Except.ok.inj hs
      exact absurd hlive ((calls_spoil hfresh follows_start rfl hn ht).free hm')
    | some n' =>
      obtain ⟨s', hrun', -, hpaths⟩ := run_follows hfresh hn
      obtain rfl := Except.ok.inj (hrun'.symm.trans hrun)
      exact ⟨n'.path, by rw [hpaths]⟩
  · rintro ⟨path, hn⟩
    exact run_follows hfresh hn

/-- The lowest free address: an allocator that uses again what was freed. -/
def lowest (_ : Nat) (live : Finset Nat) : Nat := Nat.find (Infinite.exists_notMem_finset live)

theorem lowest_fresh (n : Nat) (live : Finset Nat) : lowest n live ∉ live :=
  Nat.find_spec (Infinite.exists_notMem_finset live)

/-- Two groups around an entry; a group closed twice and another one opened. -/
theorem run_released_groups :
    (∃ s, run lowest .crumb [.sectionOpen (bytes "cpu"), .containerOpen (bytes "sets"),
      .entry (bytes "n") (lit "2"),
        .containerClose, .sectionClose] = .ok s ∧ s.memory.live = ∅ ∧ s.paths = [[bytes "cpu", bytes "sets"]]) ∧
      ¬ ∃ s, run lowest .crumb [.sectionOpen (bytes "cpu"), .sectionClose, .sectionClose,
        .sectionOpen (bytes "tty")] = .ok s ∧
        s.memory.live = ∅ ∧ s.paths = [] := by
  refine ⟨(run_released_iff lowest_fresh _ _).2 ⟨some [], rfl⟩, fun h => ?_⟩
  obtain ⟨path, hpath⟩ := (run_released_iff lowest_fresh _ _).1 h
  cases hpath

/-! ## The document -/

/-- The names and the values of the entries. -/
def entriesOf (es : List Event) : List (MbStr × WStr) :=
  es.filterMap fun
    | .entry name value => some (name, value)
    | _ => none

/-- A call of a trail nests. An entry adds its line, after the names of the groups around it; the other calls add
none. -/
theorem step_nesting {cfg : Config} {t t' : Trail} (hpath : n.path.getD [] = t.path)
    (ht : t.step cfg e = some t') :
    ∃ n' new, n.step e = some n' ∧ n'.path.getD [] = t'.path ∧ n'.paths = n.paths ++ new ∧
      new.length = (entriesOf [e]).length ∧
      t'.lines = t.lines ++ List.zipWith (fun path e => cfg.crumbLine path e.1 e.2) new (entriesOf [e]) := by
  have hopen (name : MbStr) (he : e = .sectionOpen name ∨ e = .containerOpen name) :
      ∃ n', n.step e = some n' ∧ n'.path.getD [] = t'.path ∧ n'.paths = n.paths ∧ t'.lines = t.lines := by
    obtain rfl : { t with path := t.path ++ [name] } = t' := by
      rcases he with rfl | rfl <;> exact Option.some.inj ht
    refine ⟨{ n with path := some (n.path.getD [] ++ [name]) }, ?_, by rw [hpath]; rfl, rfl, rfl⟩
    rcases he with rfl | rfl <;> rfl
  have hclose (he : e = .sectionClose ∨ e = .containerClose) :
      ∃ n', n.step e = some n' ∧ n'.path.getD [] = t'.path ∧ n'.paths = n.paths ∧ t'.lines = t.lines := by
    obtain ⟨hp, rfl⟩ := Trail.step_close he ht
    refine ⟨{ n with path := n.path.map List.dropLast }, ?_, ?_, rfl, rfl⟩
    · rcases he with rfl | rfl <;> exact if_neg (hpath ▸ hp)
    · rw [← hpath]
      cases n.path <;> rfl
  have hquiet (he : entriesOf [e] = [])
      (h : ∃ n', n.step e = some n' ∧ n'.path.getD [] = t'.path ∧ n'.paths = n.paths ∧ t'.lines = t.lines) :
      ∃ n' new, n.step e = some n' ∧ n'.path.getD [] = t'.path ∧ n'.paths = n.paths ++ new ∧
        new.length = (entriesOf [e]).length ∧
        t'.lines = t.lines ++ List.zipWith (fun path e => cfg.crumbLine path e.1 e.2) new (entriesOf [e]) := by
    obtain ⟨n', hn', hp, hpaths, hlines⟩ := h
    exact ⟨n', [], hn', hp, by rw [hpaths, List.append_nil], by rw [he]; rfl, by simp [hlines]⟩
  cases e with
  | entry name value =>
    obtain ⟨hp, rfl⟩ := Trail.step_entry ht
    cases hn : n.path with
    | none =>
      rw [hn] at hpath
      exact absurd hpath.symm hp
    | some path =>
      rw [hn] at hpath
      refine ⟨{ n with paths := n.paths ++ [path] }, [path], ?_, ?_, rfl, rfl, ?_⟩
      · simp only [Nesting.step, hn, Option.map_some]
      · simpa [hn] using hpath
      · rw [← hpath]
        rfl
  | sectionOpen name => exact hquiet rfl (hopen name (Or.inl rfl))
  | containerOpen name => exact hquiet rfl (hopen name (Or.inr rfl))
  | sectionClose => exact hquiet rfl (hclose (Or.inl rfl))
  | containerClose => exact hquiet rfl (hclose (Or.inr rfl))
  | objectOpen retain =>
    obtain rfl := Option.some.inj ht
    exact hquiet rfl ⟨n, rfl, hpath, rfl, rfl⟩
  | objectClose retain =>
    obtain rfl := Option.some.inj ht
    exact hquiet rfl ⟨n, rfl, hpath, rfl, rfl⟩

/-- The lines of a trail are its entries after the groups around them. -/
theorem trail_nesting {cfg : Config} {t t' : Trail} (hpath : n.path.getD [] = t.path)
    (ht : es.foldlM (Trail.step cfg) t = some t') :
    ∃ n' new, es.foldlM Nesting.step n = some n' ∧ n'.paths = n.paths ++ new ∧
      new.length = (entriesOf es).length ∧
      t'.lines = t.lines ++ List.zipWith (fun path e => cfg.crumbLine path e.1 e.2) new (entriesOf es) := by
  induction es generalizing n t with
  | nil =>
    obtain rfl : t = t' := by simpa using ht
    exact ⟨n, [], rfl, by simp, rfl, by simp [entriesOf]⟩
  | cons e es ih =>
    rw [List.foldlM_cons] at ht
    obtain ⟨t₁, h₁, ht⟩ := Option.bind_eq_some_iff.1 ht
    obtain ⟨n₁, new₁, hn₁, hp, hpaths, hlen₁, hlines⟩ := step_nesting hpath h₁
    obtain ⟨n', new, hn', hnew, hlen, hrest⟩ := ih hp ht
    have hentries : entriesOf (e :: es) = entriesOf [e] ++ entriesOf es := List.filterMap_append (l := [e])
    refine ⟨n', new₁ ++ new, ?_, by rw [hnew, hpaths, List.append_assoc], ?_, ?_⟩
    · rw [List.foldlM_cons, hn₁]
      exact hn'
    · rw [hentries, List.length_append, List.length_append, hlen₁, hlen]
    · rw [hrest, hlines, hentries, List.zipWith_append hlen₁, List.append_assoc]

/-- **The document of a call tree has the names that are read in memory**: each line is an entry after the
names its loop reads, and every block is freed, whatever addresses the allocator hands out. -/
theorem run_lines (hfresh : ∀ n s, fresh n s ∉ s) {cfg : Config} (hf : cfg.outputFormat = .crumb)
    (ha : 0 ≤ cfg.indentAmount) (hsep : (cfg.locale.mbsrtowcs cfg.crumbSeparator).isSome)
    (htsep : (cfg.locale.mbsrtowcs cfg.textSeparator).isSome) (c : Calls) (hfit : c.fits .crumb false)
    (hbare : c.bareEntry = false) (henc : c.Encodable cfg) (es : List Event) (hes : eraseObjects es = c.events) :
    ∃ s o, run fresh cfg.outputFormat es = .ok s ∧ s.memory.live = ∅ ∧ runEvents cfg es {} = .ok o ∧
      s.paths.length = (entriesOf es).length ∧
      o.doc = unlines nl (List.zipWith (fun path e => cfg.crumbLine path e.1 e.2) s.paths (entriesOf es)) := by
  obtain ⟨o, ho, hdoc⟩ := run_crumbs hf ha hsep htsep hes hfit hbare henc
  obtain ⟨n', new, hn, hnew, hlen, hlines⟩ := trail_nesting (n := {}) rfl (trail_events hes cfg hfit hbare)
  obtain ⟨s, hs, hlive, hpaths⟩ := run_follows hfresh hn
  rw [hnew] at hpaths
  obtain rfl : s.paths = new := hpaths
  refine ⟨s, o, hf ▸ hs, hlive, ho, hlen, ?_⟩
  rw [hdoc.doc]
  exact congrArg (unlines nl) hlines

/-- Two entries at different depths. -/
theorem run_lines_limits :
    let cfg : Config := { outputFormat := .crumb, locale := posixLocale }
    let es : List Event := [.sectionOpen (bytes "limits"), .containerOpen (bytes "cpu"), .objectOpen false,
      .entry (bytes "soft") (lit "1"), .objectClose false, .containerClose, .entry (bytes "n") (lit "2"),
      .sectionClose]
    ∃ s o, run lowest .crumb es = .ok s ∧ s.memory.live = ∅ ∧ runEvents cfg es {} = .ok o ∧
      s.paths.length = 2 ∧
      o.doc = unlines nl (List.zipWith (fun path e => cfg.crumbLine path e.1 e.2) s.paths
        [(bytes "soft", lit "1"), (bytes "n", lit "2")]) := by
  intro cfg es
  let c : Calls := .group (.sect (bytes "limits"))
    (.group (.cont (bytes "cpu")) (.entry (bytes "soft") (lit "1") .nil) (.entry (bytes "n") (lit "2") .nil))
    .nil
  exact @run_lines lowest lowest_fresh cfg rfl (by decide) (by decide)
    (by decide) c (by decide) (by decide) (by decide) es (by decide)

end Procenv.Crumbs
