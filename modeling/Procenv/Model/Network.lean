import Procenv.Data.Chain
import Procenv.Model.Append
import Procenv.Model.Display

/-!
# The cache of `show_network`

`show_network` as it runs: the cache is a list of nodes linked in both directions behind a node
without an interface, and the nodes are linked in, unlinked and freed by their addresses.
An access to no node is `Halt.outOfBounds`, a walk through more nodes than there are `Halt.hang`.
A node gets an address that no other had; a value that is `none` is what `calloc` leaves.
-/

namespace Procenv

open Text Data Show

/-- The nodes by their addresses, and the first address that was never given out. -/
structure NetworkHeap where
  nodes : Cells (Option NetworkMap)
  brk : Nat

namespace NetworkHeap

/-- Nothing is allocated. -/
def init : NetworkHeap := ⟨fun _ => none, 0⟩

/-- `calloc (1, sizeof (struct network_map))`, with the value that is then copied to the node. -/
def calloc (h : NetworkHeap) (value : Option NetworkMap) : NetworkHeap × Nat :=
  (⟨h.nodes.alloc h.brk value, h.brk + 1⟩, h.brk)

/-- An access to the nodes. -/
def update (h : NetworkHeap) (nodes : Option (Cells (Option NetworkMap))) : Except Halt NetworkHeap := do
  return { h with nodes := ← access "show_network" nodes }

end NetworkHeap

/-- The search for the interface: `node && node->ifaddr.ifa_name`, from one node on. -/
def findNode (nodes : Cells (Option NetworkMap)) (name : MbStr) :
    (fuel : Nat) → (node : Option Nat) → Except Halt (Option (Nat × NetworkMap))
  | 0, _ => .error .hang
  | _ + 1, none => .ok none
  | fuel + 1, some node => do
    match ← access "show_network" (nodes.value node) with
    | none => return none
    | some map =>
      if map.ifaddr.name = name then return some (node, map)
      findNode nodes name fuel (← access "show_network" (nodes.next node))

variable (env : Env)

/-- A round of the main loop of `show_network`. -/
def showNetworkEntryAt (head : Nat) (h : NetworkHeap) (ifa : Ifaddrs) : Show NetworkHeap := do
  let some addr := ifa.addr | return h
  if (addr.family : Int) = env.build.value "AF_PACKET" then
    let macAddress ← getMacAddress ifa.name
    assert "show_network" (← Call.alloc)
    let (h, node) := h.calloc (some { ifaddr := ifa, addr, macAddress })
    ofExcept (h.update (h.nodes.prepend head node))
  else
    let first ← ofExcept (access "show_network" (h.nodes.next head))
    match ← ofExcept (findNode h.nodes ifa.name (h.brk + 1) first) with
    | none =>
      showNetworkIf env ifa addr none
      return h
    | some (node, map) =>
      let macAddress ← map.macAddress.elim (pure none) fun mac => do
        return if ← Call.alloc then some mac else none
      let h ← ofExcept (h.update (h.nodes.unlink node))
      showNetworkIf env ifa addr macAddress
      return h

/-- The last loop of `show_network`: the nodes that are left are shown and freed. -/
def flushNetwork : (fuel : Nat) → (h : NetworkHeap) → (node : Option Nat) → Show NetworkHeap
  | 0, _, _ => .stop .hang
  | _ + 1, h, none => return h
  | fuel + 1, h, some node => do
    match ← ofExcept (access "show_network" (h.nodes.value node)) with
    | none => return h
    | some map =>
      let tmp ← ofExcept (access "show_network" (h.nodes.next node))
      showNetworkIf env map.ifaddr map.addr map.macAddress
      flushNetwork fuel (← ofExcept (h.update (h.nodes.free node))) tmp

/-- `show_network` from the list of the interfaces on. -/
def showInterfacesAt (ifAddrs : List Ifaddrs) : Show Unit := do
  assert "show_network" (← Call.alloc)
  let (h, head) := NetworkHeap.init.calloc none
  let h ← ifAddrs.foldlM (showNetworkEntryAt env head) h
  let h ← flushNetwork env (h.brk + 1) h (← ofExcept (access "show_network" (h.nodes.next head)))
  let _ ← ofExcept (h.update (h.nodes.free head))
  Show.footer

/-- `show_network`. -/
def showNetworkAt : Show Unit := do
  Show.header "network"
  let some ifAddrs ← Call.getifaddrs | return
  showInterfacesAt env ifAddrs

end Procenv
