import Procenv.Model.Basic

/-!
# `pr_list.c`: circular doubly linked lists

The nodes of all lists live in one heap; `brk` is the first address never
allocated. Allocation succeeds, and freed nodes are not reused. Every function
does the pointer assignments of the source in their order. Visitors and comparisons do
not change the lists.
-/

namespace Procenv

/-- The heap of `PRList` nodes: the fields of each address. -/
structure PrHeap (δ : Type) where
  next : Nat → Nat
  prev : Nat → Nat
  data : Nat → Option δ
  brk : Nat

namespace PrHeap

variable {δ : Type}

/-- No node allocated. -/
def init : PrHeap δ := ⟨id, id, fun _ => none, 0⟩

/-- `p->next = q`. -/
def setNext (h : PrHeap δ) (p q : Nat) : PrHeap δ := { h with next := Function.update h.next p q }

/-- `p->prev = q`. -/
def setPrev (h : PrHeap δ) (p q : Nat) : PrHeap δ := { h with prev := Function.update h.prev p q }

/-- `p->data = d`. -/
def setData (h : PrHeap δ) (p : Nat) (d : Option δ) : PrHeap δ :=
  { h with data := Function.update h.data p d }

end PrHeap

variable {δ : Type}

/-- `pr_list_new`. -/
def prListNew (h : PrHeap δ) (data : Option δ) : PrHeap δ × Nat :=
  let list := h.brk
  let h := { h with brk := h.brk + 1 }
  let h := (h.setPrev list list).setNext list list
  (h.setData list data, list)

/-- `pr_list_empty`. -/
def prListEmpty (h : PrHeap δ) (list : Nat) : Bool :=
  h.next list = list && h.prev list = list

/-- `pr_list_append`. -/
def prListAppend (h : PrHeap δ) (list entry : Nat) : PrHeap δ :=
  let h := h.setNext entry (h.next list)
  let h := h.setPrev entry list
  let h := h.setPrev (h.next list) entry
  h.setNext list entry

/-- `pr_list_prepend`. -/
def prListPrepend (h : PrHeap δ) (list entry : Nat) : PrHeap δ :=
  let h := h.setNext entry list
  let h := h.setPrev entry (h.prev list)
  let h := h.setNext (h.prev list) entry
  h.setPrev list entry

/-- `pr_list_appendn_str`: `strndup (str, 1+len)`, then a new node after `list`. -/
def prListAppendnStr (h : PrHeap MbStr) (list : Nat) (str : MbStr) (len : Nat) : PrHeap MbStr × Nat :=
  let s := str.take (1 + len)
  let (h, entry) := prListNew h (some s)
  (prListAppend h list entry, entry)

/-- `pr_list_append_str`. -/
def prListAppendStr (h : PrHeap MbStr) (list : Nat) (str : MbStr) : PrHeap MbStr × Nat :=
  prListAppendnStr h list str str.length

/-- `pr_list_prependn_str`: `strndup (str, 1+len)`, then a new node before `list`. -/
def prListPrependnStr (h : PrHeap MbStr) (list : Nat) (str : MbStr) (len : Nat) :
    PrHeap MbStr × Nat :=
  let s := str.take (1 + len)
  let (h, entry) := prListNew h (some s)
  (prListPrepend h list entry, entry)

/-- `pr_list_prepend_str`. -/
def prListPrependStr (h : PrHeap MbStr) (list : Nat) (str : MbStr) : PrHeap MbStr × Nat :=
  prListPrependnStr h list str str.length

/-- `pr_list_remove`. -/
def prListRemove (h : PrHeap δ) (entry : Nat) : PrHeap δ × Nat :=
  let h := h.setNext (h.prev entry) (h.next entry)
  let h := h.setPrev (h.next entry) (h.prev entry)
  let h := h.setPrev entry entry
  (h.setNext entry entry, entry)

/-- The nodes from `iter` on, following `next` up to `list`, in at most `fuel` steps. -/
def prListWalk (h : PrHeap δ) (list : Nat) : Nat → Nat → Option (List Nat)
  | 0, iter => if iter = list then some [] else none
  | fuel + 1, iter =>
    if iter = list then some [] else (prListWalk h list fuel (h.next iter)).map (iter :: ·)

/-- `PR_LIST_FOREACH`: the nodes it visits. A list has at most `brk` nodes, so that a
walk that is not back after `brk` steps never comes back. -/
def prListForeach (h : PrHeap δ) (list : Nat) : Option (List Nat) :=
  prListWalk h list h.brk (h.next list)

/-! ## Sorted lists -/

/-- `PRListCmp`: a comparison of two nodes, that may read the lists. -/
abbrev PrListCmp (δ : Type) := PrHeap δ → Nat → Nat → Int

/-- The node that the loop of `pr_list_add_sorted_internal` hands to `pr_list_prepend` or
`pr_list_append`, from `p` on, in at most `fuel` steps; `step` is `pr_list_next`. -/
def prListSortedAt (h : PrHeap δ) (cmp : PrListCmp δ) (step : Nat → Nat) (list entry : Nat) :
    (fuel p : Nat) → Option Nat
  | 0, p => if p = list then some list else none
  | fuel + 1, p =>
    if p = list then some list
    else if cmp h entry p < 0 then some p
    else prListSortedAt h cmp step list entry fuel (step p)

/-- `pr_list_prepend_sorted`: `pr_list_add_sorted_internal` forwards. -/
def prListPrependSorted (h : PrHeap δ) (list entry : Nat) (cmp : PrListCmp δ) : Option (PrHeap δ) :=
  (prListSortedAt h cmp h.next list entry h.brk (h.next list)).map fun p => prListPrepend h p entry

/-- `pr_list_append_sorted`: `pr_list_add_sorted_internal` backwards. -/
def prListAppendSorted (h : PrHeap δ) (list entry : Nat) (cmp : PrListCmp δ) : Option (PrHeap δ) :=
  (prListSortedAt h cmp h.prev list entry h.brk (h.prev list)).map fun p => prListAppend h p entry

/-- `strcmp`, of which only the sign is given: the bytes are compared as unsigned numbers. -/
def strcmp : MbStr → MbStr → Int
  | [], [] => 0
  | [], _ :: _ => -1
  | _ :: _, [] => 1
  | a :: as, b :: bs => if a = b then strcmp as bs else if a < b then -1 else 1

/-- `strcmp (s, t) <= 0`: the order of the bytes, which is that of `strcoll` in the C locale. -/
def byteLe (s t : MbStr) : Bool := decide (strcmp s t ≤ 0)

/-- `pr_list_cmp_str`: `NULL` comes before every string. -/
def prListCmpStr : PrListCmp MbStr := fun h la lb =>
  match h.data la, h.data lb with
  | none, none => 0
  | none, some _ => -1
  | some _, none => 1
  | some a, some b => strcmp a b

/-- Successive calls of `pr_list_prepend_sorted`. -/
def prListPrependAllSorted (h : PrHeap δ) (list : Nat) (cmp : PrListCmp δ) (entries : List Nat) :
    Option (PrHeap δ) :=
  entries.foldlM (fun h entry => prListPrependSorted h list entry cmp) h

/-- Successive calls of `pr_list_append_sorted`. -/
def prListAppendAllSorted (h : PrHeap δ) (list : Nat) (cmp : PrListCmp δ) (entries : List Nat) :
    Option (PrHeap δ) :=
  entries.foldlM (fun h entry => prListAppendSorted h list entry cmp) h

/-! ## Visitors -/

/-- The nodes from `iter` on, following `prev` up to `list`, in at most `fuel` steps. -/
def prListWalkRev (h : PrHeap δ) (list : Nat) : Nat → Nat → Option (List Nat)
  | 0, iter => if iter = list then some [] else none
  | fuel + 1, iter =>
    if iter = list then some [] else (prListWalkRev h list fuel (h.prev iter)).map (iter :: ·)

/-- `PR_LIST_FOREACH_REV`: the nodes it visits. -/
def prListForeachRev (h : PrHeap δ) (list : Nat) : Option (List Nat) :=
  prListWalkRev h list h.brk (h.prev list)

/-- `pr_list_foreach_visit`: the nodes passed to the visitor. The loop has its condition at the end, so
that `list` is visited first. -/
def prListForeachVisit (h : PrHeap δ) (list : Nat) : Option (List Nat) :=
  (prListWalk h list h.brk (h.next list)).map (list :: ·)

/-- `pr_list_foreach_rev_visit`: from the node before `list` on. -/
def prListForeachRevVisit (h : PrHeap δ) (list : Nat) : Option (List Nat) :=
  let p := h.prev list
  (prListWalkRev h p h.brk (h.prev p)).map (p :: ·)

/-! ## Sequences of calls -/

/-- A call of a function that creates a node or changes links. -/
inductive PrOp (δ : Type)
  | new (data : Option δ)
  | append (list entry : Nat)
  | prepend (list entry : Nat)
  | appendSorted (list entry : Nat) (cmp : PrListCmp δ)
  | prependSorted (list entry : Nat) (cmp : PrListCmp δ)
  | remove (entry : Nat)

namespace PrOp

/-- Run a call; a sorted insertion that does not come back to its list has no result. -/
def run (h : PrHeap δ) : PrOp δ → Option (PrHeap δ)
  | new data => some (prListNew h data).1
  | append list entry => some (prListAppend h list entry)
  | prepend list entry => some (prListPrepend h list entry)
  | appendSorted list entry cmp => prListAppendSorted h list entry cmp
  | prependSorted list entry cmp => prListPrependSorted h list entry cmp
  | remove entry => some (prListRemove h entry).1

end PrOp

end Procenv
