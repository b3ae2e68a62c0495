import Procenv.Model.CrumbMemory
import Procenv.Model.Linux

/-!
# The memory of `show_namespaces_linux`

The links of `/proc/self/ns` are kept in a list of their own, sorted by their names, which the loop that
shows them takes apart: every node is removed and freed with its string while the loop stands on it. The
memory is that of the breadcrumbs, which stay in it.
-/

namespace Procenv.Namespaces

open Crumbs

/-- `pr_list_cmp_str`, with the pointers that it follows. -/
def prListCmpStr (m : Memory) (la lb : Nat) : Except Fault Int := do
  m.touch la
  m.touch lb
  match m.links.data la, m.links.data lb with
  | none, none => return 0
  | none, some _ => return -1
  | some _, none => return 1
  | some a, some b => return strcmp (← m.read (some a)) (← m.read (some b))

/-- The loop of `pr_list_add_sorted_internal` forwards, from `p` on, in at most `fuel` rounds: the node to
insert before. -/
def sortedAt (m : Memory) (list entry : Nat) : (fuel p : Nat) → Except Fault Nat
  | 0, p => if p = list then .ok list else .error .hang
  | fuel + 1, p =>
    if p = list then .ok list
    else do
      if (← prListCmpStr m entry p) < 0 then return p
      m.touch p
      sortedAt m list entry fuel (m.links.next p)

/-- `pr_list_prepend_str_sorted`. -/
def prListPrependStrSorted (m : Memory) (list entry : Nat) : Except Fault Memory := do
  m.touch list
  let p ← sortedAt m list entry m.nodes.card (m.links.next list)
  m.prListPrepend p entry

variable (fresh : Nat → Finset Nat → Nat)

/-- A link is added to the list: its name, a blank and what it points to. -/
def addLine (list : Nat) (m : Memory) (line : MbStr) : Except Fault Memory :=
  let (m, s) := m.strndup fresh line line.length
  let (m, entry) := m.prListNew fresh (some s)
  prListPrependStrSorted m list entry

/-- `PR_LIST_FOREACH_SAFE` with the body that frees the node, in at most `fuel` rounds: the strings, in
the order in which they are shown. -/
def showLoop (list : Nat) : (fuel iter tmp : Nat) → Memory → Except Fault (Memory × List MbStr)
  | 0, iter, _, m => if iter = list then .ok (m, []) else .error .hang
  | fuel + 1, iter, tmp, m =>
    if iter = list then .ok (m, [])
    else do
      let m ← m.prListRemove iter
      m.touch iter
      let line ← m.read (m.links.data iter)
      let m ← m.freeString (m.links.data iter)
      let m ← m.freeNode iter
      -- `iter = tmp, tmp = iter->next`
      m.touch tmp
      let (m, lines) ← showLoop list fuel tmp (m.links.next tmp) m
      return (m, line :: lines)

/-- `show_namespaces_linux`, from the links on. -/
def showNamespacesLinux (m : Memory) (links : List MbStr) : Except Fault (Memory × List MbStr) := do
  let (m, list) := m.prListNew fresh none
  let m ← links.foldlM (addLine fresh list) m
  m.touch list
  let iter := m.links.next list
  m.touch iter
  let (m, lines) ← showLoop list m.nodes.card iter (m.links.next iter) m
  return (← m.freeNode list, lines)

end Procenv.Namespaces
