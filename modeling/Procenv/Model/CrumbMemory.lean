import Mathlib.Data.Finset.Basic
import Mathlib.Data.Finset.Card
import Procenv.Model.Output

/-!
# `output.c`: the memory of the breadcrumbs

A breadcrumb is a node of `crumb_list` and a copy of its name. `add_breadcrumb` allocates both,
`remove_breadcrumb` frees both, and `output_finalise` frees what is left. `Memory` has the live
blocks of either kind: to follow a pointer to a node that is not live, to read such a string, or to
free such a block is a `Fault`.

`fresh` stands for `malloc`: it gives the address of a block from the number of those allocated before
and the addresses in use, and may hand out again what was freed. Allocation succeeds.
-/

namespace Procenv.Crumbs

/-- What stops a run. -/
inductive Fault
  /-- A failing `assert` in the named function. -/
  | assertFailed (fn : String)
  /-- No live block of the kind asked for at this address. -/
  | notLive (p : Nat)
  /-- A string read at `NULL`. -/
  | null
  /-- A walk that does not come back to its list. -/
  | hang
deriving DecidableEq, Repr

/-- The blocks and `crumb_list`. The data of a node is the address of its string. -/
structure Memory where
  nodes : Finset Nat := ∅
  strings : Finset Nat := ∅
  links : PrHeap Nat := PrHeap.init
  str : Nat → MbStr := fun _ => []
  allocs : Nat := 0
  crumbList : Option Nat := none

namespace Memory

variable (fresh : Nat → Finset Nat → Nat) (m : Memory)

/-- The addresses in use. -/
def live : Finset Nat := m.nodes ∪ m.strings

/-- `strndup`. -/
def strndup (s : MbStr) (n : Nat) : Memory × Nat :=
  let p := fresh m.allocs m.live
  ({ m with strings := insert p m.strings, str := Function.update m.str p (s.take n), allocs := m.allocs + 1 }, p)

/-- `pr_list_new`. -/
def prListNew (data : Option Nat) : Memory × Nat :=
  let list := fresh m.allocs m.live
  let links := (m.links.setPrev list list).setNext list list
  ({ m with nodes := insert list m.nodes, links := links.setData list data, allocs := m.allocs + 1 }, list)

/-- Follow a pointer to a node. -/
def touch (p : Nat) : Except Fault Unit := if p ∈ m.nodes then .ok () else .error (.notLive p)

/-- Read a string. -/
def read : Option Nat → Except Fault MbStr
  | none => .error .null
  | some p => if p ∈ m.strings then .ok (m.str p) else .error (.notLive p)

/-- `free` of a string; of `NULL` it does nothing. -/
def freeString : Option Nat → Except Fault Memory
  | none => .ok m
  | some p => if p ∈ m.strings then .ok { m with strings := m.strings.erase p } else .error (.notLive p)

/-- `free` of a node. -/
def freeNode (p : Nat) : Except Fault Memory :=
  if p ∈ m.nodes then .ok { m with nodes := m.nodes.erase p } else .error (.notLive p)

/-- `pr_list_prepend`, after the pointers that it follows. -/
def prListPrepend (list entry : Nat) : Except Fault Memory := do
  m.touch entry
  m.touch list
  m.touch (m.links.prev list)
  return { m with links := Procenv.prListPrepend m.links list entry }

/-- `pr_list_prependn_str`. -/
def prListPrependnStr (list : Nat) (str : MbStr) (len : Nat) : Except Fault Memory :=
  let (m, s) := m.strndup fresh str (1 + len)
  let (m, entry) := m.prListNew fresh (some s)
  m.prListPrepend list entry

/-- `pr_list_prepend_str`. -/
def prListPrependStr (list : Nat) (str : MbStr) : Except Fault Memory :=
  m.prListPrependnStr fresh list str str.length

/-- `pr_list_remove`, after the pointers that it follows. -/
def prListRemove (entry : Nat) : Except Fault Memory := do
  m.touch entry
  m.touch (m.links.prev entry)
  m.touch (m.links.next entry)
  return { m with links := (Procenv.prListRemove m.links entry).1 }

/-- `add_breadcrumb`. -/
def addBreadcrumb (name : MbStr) : Except Fault Memory :=
  let (m, list) := match m.crumbList with
    | some list => (m, list)
    | none => m.prListNew fresh none
  { m with crumbList := some list }.prListPrependStr fresh list name

/-- `remove_breadcrumb`. -/
def removeBreadcrumb : Except Fault Memory :=
  match m.crumbList with
  | none => .error (.assertFailed "remove_breadcrumb")
  | some list => do
    m.touch list
    let entry := m.links.prev list
    let m ← m.prListRemove entry
    let m ← m.freeString (m.links.data entry)
    m.freeNode entry

/-- The loop of `clear_breadcrumbs`, in at most `fuel` rounds. -/
def clearLoop (list : Nat) : Nat → Memory → Except Fault Memory
  | 0, m => do
    m.touch list
    if m.links.prev list = list then return m
    .error .hang
  | fuel + 1, m => do
    m.touch list
    if m.links.prev list = list then return m
    let m ← m.removeBreadcrumb
    clearLoop list fuel m

/-- `free_breadcrumbs`, with `clear_breadcrumbs` in it. -/
def freeBreadcrumbs (outputFormat : OutputFormat) : Except Fault Memory :=
  match outputFormat, m.crumbList with
  | .crumb, some list => do
    let m ← clearLoop list m.nodes.card m
    m.freeNode list
  | _, _ => .ok m

/-- The names that the loop of `entry` reads, from the node `iter` on, in at most `fuel` rounds. -/
def crumbLoop (list : Nat) : (fuel iter : Nat) → Except Fault (List MbStr)
  | 0, iter => if iter = list then .ok [] else .error .hang
  | fuel + 1, iter =>
    if iter = list then .ok []
    else do
      m.touch iter
      let crumb ← m.read (m.links.data iter)
      let rest ← crumbLoop list fuel (m.links.next iter)
      return crumb :: rest

/-- The names that `entry` reads. -/
def entry : Except Fault (List MbStr) :=
  match m.crumbList with
  | none => .error (.assertFailed "entry")
  | some list => do
    m.touch list
    m.crumbLoop list m.nodes.card (m.links.next list)

end Memory

/-! ## Runs -/

/-- The memory, and the names that each entry has read. -/
structure State where
  memory : Memory := {}
  paths : List (List MbStr) := []

variable (fresh : Nat → Finset Nat → Nat) (outputFormat : OutputFormat)

/-- What a call does to the breadcrumbs; only the crumb format has them. -/
def State.call (s : State) (e : Event) : Except Fault State :=
  match outputFormat with
  | .crumb =>
    match e with
    | .sectionOpen name | .containerOpen name => do
      return { s with memory := ← s.memory.addBreadcrumb fresh name }
    | .sectionClose | .containerClose => do return { s with memory := ← s.memory.removeBreadcrumb }
    | .entry _ _ => do return { s with paths := s.paths ++ [← s.memory.entry] }
    | .objectOpen _ | .objectClose _ => .ok s
  | .text | .json | .xml => .ok s

/-- A run: the calls, and `output_finalise`. -/
def run (es : List Event) : Except Fault State := do
  let s ← es.foldlM (State.call fresh outputFormat) {}
  return { s with memory := ← s.memory.freeBreadcrumbs outputFormat }

end Procenv.Crumbs
