import Mathlib.Data.List.Nodup
import Mathlib.Data.List.Perm.Subperm
import Procenv.Data.Outcome
import Procenv.Model.Network
import Procenv.Proof.Display
import Procenv.Proof.Runs

/-!
# The interfaces that `show_network` shows

The nodes of the cache are those of a chain behind the head (`NetworkHeap.Holds`), and what
`show_network` does with them by their addresses is what is done with a list.

* `showNetworkAt_sim`: **`show_network` by addresses is `show_network` on a list.**
* `showNetworkAt_once`: **every interface is shown once.**
-/

namespace Procenv

open Text Data Interact Show

variable {env : Env} {h h' : NetworkHeap} {head x : Nat} {qs qs₁ qs₂ : List Nat}
  {cache cache₁ cache₂ : List NetworkMap} {name : MbStr} {map : NetworkMap}

/-! ## The cache -/

/-- **The nodes are the head and those of the cache**, linked behind it in both directions. -/
structure NetworkHeap.Linked (h : NetworkHeap) (head : Nat) (qs : List Nat) : Prop where
  chain : Chain h.nodes head qs
  nodup : (head :: qs).Nodup
  nodes : ∀ p, h.nodes.value p ≠ none ↔ p ∈ head :: qs

/-- The interfaces in the nodes. -/
structure NetworkHeap.Holds (h : NetworkHeap) (head : Nat) (qs : List Nat) (cache : List NetworkMap) : Prop
    extends h.Linked head qs where
  values : qs.map h.nodes.value = cache.map fun map => some (some map)
  bound : ∀ p ∈ head :: qs, p < h.brk

theorem holds_init : (NetworkHeap.init.calloc none).1.Holds 0 [] [] where
  chain := rfl
  nodup := List.nodup_singleton 0
  nodes p := by
    change (NetworkHeap.init.nodes.alloc 0 none).value p ≠ none ↔ _
    rw [Cells.alloc_value]
    by_cases hp : p = 0
    · simp [hp]
    · simp [hp, NetworkHeap.init, Cells.value]
  values := rfl
  bound := by simp [NetworkHeap.calloc, NetworkHeap.init]

/-- A walk through the nodes is shorter than the addresses that were given out. -/
theorem NetworkHeap.Holds.length_le (hh : h.Holds head qs cache) : qs.length < h.brk := by
  have hsub : head :: qs ⊆ List.range h.brk := fun p hp => List.mem_range.2 (hh.bound p hp)
  have hle := (List.subperm_of_subset hh.nodup hsub).length_le
  rw [List.length_range, List.length_cons] at hle
  exact hle

/-- **A new node comes first.** -/
theorem holds_prepend (hh : h.Holds head qs cache) (map : NetworkMap) :
    let new := h.calloc (some map)
    ∃ h', new.1.update (new.1.nodes.prepend head new.2) = .ok h' ∧
      h'.Holds head (new.2 :: qs) (map :: cache) := by
  have hfresh : h.brk ∉ head :: qs := fun hmem => Nat.lt_irrefl _ (hh.bound _ hmem)
  have hnd : (h.brk :: head :: qs).Nodup := List.nodup_cons.2 ⟨hfresh, hh.nodup⟩
  have hold : ∀ p ∈ head :: qs, p ≠ h.brk := fun p hp heq => hfresh (heq ▸ hp)
  -- the new node is linked nowhere yet
  have hchain : Chain (h.nodes.alloc h.brk (some map)) head qs := by
    refine hh.chain.congr (fun r hr => ?_) fun r hr => ?_
    · rw [Cells.alloc_next, if_neg (hold r hr)]
    · rw [Cells.alloc_prev, if_neg (hold r (List.mem_cons_of_mem _ hr))]
  obtain ⟨m, hm, hchain', hvalue⟩ := hchain.prepend hnd ⟨none, by rw [Cells.alloc_next, if_pos rfl]⟩
  have hvalues : ∀ p, m.value p = if p = h.brk then some (some map) else h.nodes.value p := by
    intro p
    rw [hvalue, Cells.alloc_value]
  refine ⟨⟨m, h.brk + 1⟩, ?_, ⟨⟨hchain', ?_, fun p => ?_⟩, ?_, fun p hp => ?_⟩⟩
  · simp only [NetworkHeap.update, NetworkHeap.calloc, hm]
    rfl
  · exact (List.Perm.swap head h.brk qs).nodup_iff.1 hnd
  · change m.value p ≠ none ↔ p ∈ head :: h.brk :: qs
    rw [hvalues]
    by_cases hp : p = h.brk
    · simp [hp]
    · rw [if_neg hp, hh.nodes]
      simp [hp]
  · change (h.brk :: qs).map m.value = _
    rw [List.map_cons, List.map_cons, hvalues, if_pos rfl, ← hh.values]
    congr 1
    refine List.map_congr_left fun p hp => ?_
    rw [hvalues, if_neg (hold p (List.mem_cons_of_mem _ hp))]
  · have hmem : p = h.brk ∨ p ∈ head :: qs := by
      simp only [List.mem_cons] at hp ⊢
      tauto
    change p < h.brk + 1
    rcases hmem with rfl | hmem
    · exact Nat.lt_succ_self _
    · exact Nat.lt_succ_of_lt (hh.bound p hmem)

/-- **A node that is unlinked is gone.** -/
theorem holds_unlink (hh : h.Holds head (qs₁ ++ x :: qs₂) (cache₁ ++ map :: cache₂))
    (hlen : qs₁.length = cache₁.length) :
    ∃ h', h.update (h.nodes.unlink x) = .ok h' ∧ h'.Holds head (qs₁ ++ qs₂) (cache₁ ++ cache₂) := by
  obtain ⟨m, hm, hchain, hvalue⟩ := hh.chain.unlink hh.nodup
  have hperm : (head :: (qs₁ ++ x :: qs₂)).Perm (x :: head :: (qs₁ ++ qs₂)) :=
    (List.perm_middle.cons head).trans (List.Perm.swap x head _)
  obtain ⟨hx, hnd⟩ := List.nodup_cons.1 (hperm.nodup_iff.1 hh.nodup)
  have hne : ∀ p ∈ head :: (qs₁ ++ qs₂), p ≠ x := fun p hp heq => hx (heq ▸ hp)
  refine ⟨⟨m, h.brk⟩, ?_, ⟨⟨hchain, hnd, fun p => ?_⟩, ?_, fun p hp => ?_⟩⟩
  · simp only [NetworkHeap.update, hm]
    rfl
  · change m.value p ≠ none ↔ _
    rw [hvalue]
    by_cases hp : p = x
    · subst hp
      simp only [if_true, ne_eq, not_true_eq_false, false_iff]
      exact hx
    · rw [if_neg hp, hh.nodes, hperm.mem_iff]
      simp [hp]
  · have hvalues := hh.values
    rw [List.map_append, List.map_append, List.map_cons, List.map_cons] at hvalues
    obtain ⟨h₁, h₂⟩ := List.append_inj hvalues (by simpa using hlen)
    have hsame : (qs₁ ++ qs₂).map m.value = (qs₁ ++ qs₂).map h.nodes.value := by
      refine List.map_congr_left fun p hp => ?_
      rw [hvalue, if_neg (hne p (List.mem_cons_of_mem _ hp))]
    change (qs₁ ++ qs₂).map m.value = _
    rw [hsame, List.map_append, List.map_append, h₁, (List.cons.inj h₂).2]
  · exact hh.bound p (hperm.mem_iff.2 (List.mem_cons_of_mem _ hp))

/-- **The search finds the node that is taken.** -/
theorem findNode_eq {m : Cells (Option NetworkMap)} {p : Nat} (hchain : Chain m p qs)
    (hvalues : qs.map m.value = cache.map fun map => some (some map)) (fuel : Nat) (hlen : qs.length < fuel) :
    (∃ qs₁ x qs₂ cache₁ map cache₂, qs = qs₁ ++ x :: qs₂ ∧ cache = cache₁ ++ map :: cache₂ ∧
        qs₁.length = cache₁.length ∧ findNode m name fuel qs.head? = .ok (some (x, map)) ∧
          takeNode name cache = (some map.macAddress, cache₁ ++ cache₂)) ∨
      findNode m name fuel qs.head? = .ok none ∧ takeNode name cache = (none, cache) := by
  induction qs generalizing p cache fuel with
  | nil =>
    obtain rfl : cache = [] := by simpa using hvalues.symm
    obtain ⟨fuel, rfl⟩ : ∃ f, fuel = f + 1 := ⟨fuel - 1, by simp only [List.length_nil] at hlen; omega⟩
    exact Or.inr ⟨rfl, rfl⟩
  | cons q qs ih =>
    obtain ⟨fuel, rfl⟩ : ∃ f, fuel = f + 1 := ⟨fuel - 1, by omega⟩
    rcases cache with _ | ⟨map, cache⟩
    · simp at hvalues
    rw [List.map_cons, List.map_cons] at hvalues
    obtain ⟨hvalue, hvalues⟩ := List.cons.inj hvalues
    have hnext : m.next q = some qs.head? := hchain.2.2.next_eq
    rw [List.head?_cons, findNode, takeNode, hvalue]
    simp only [access, bind, Except.bind]
    by_cases hname : map.ifaddr.name = name
    · rw [if_pos hname, if_pos hname]
      exact Or.inl ⟨[], q, qs, [], map, cache, rfl, rfl, rfl, rfl, rfl⟩
    · rw [if_neg hname, if_neg hname, hnext]
      simp only [List.length_cons] at hlen
      rcases ih hchain.2.2 hvalues fuel (by omega) with
        ⟨qs₁, x, qs₂, cache₁, map', cache₂, rfl, rfl, hl, hfind, htake⟩ | ⟨hfind, htake⟩
      · refine Or.inl ⟨q :: qs₁, x, qs₂, map :: cache₁, map', cache₂, rfl, rfl, by simp [hl], hfind, ?_⟩
        rw [htake]
        rfl
      · refine Or.inr ⟨hfind, ?_⟩
        rw [htake]

/-! ## `show_network` by addresses and on a list -/

/-- The heap holds the cache. -/
def CacheAt (h : NetworkHeap) (cache : List NetworkMap) : Prop := ∃ qs, h.Holds 0 qs cache

/-- **A round by addresses** is a round on the list. -/
theorem showNetworkEntryAt_sim (hh : CacheAt h cache) (ifa : Ifaddrs) :
    Prog.Sim CacheAt (showNetworkEntryAt env 0 h ifa) (showNetworkEntry env cache ifa) := by
  obtain ⟨qs, hh⟩ := hh
  unfold showNetworkEntryAt showNetworkEntry
  cases ifa.addr with
  | none => exact .ret ⟨qs, hh⟩
  | some addr =>
    simp only
    by_cases hlink : (addr.family : Int) = env.build.value "AF_PACKET"
    · rw [if_pos hlink, if_pos hlink]
      refine Prog.Sim.bind_left _ fun macAddress => Prog.Sim.bind_left _ fun memory =>
        Prog.Sim.bind_left _ fun _ => ?_
      obtain ⟨h', hrun, hh'⟩ := holds_prepend hh ⟨ifa, addr, macAddress⟩
      rw [hrun]
      exact .ret ⟨_, hh'⟩
    · rw [if_neg hlink, if_neg hlink, hh.chain.next_eq]
      have hfuel := hh.length_le
      simp only [access, ofExcept_bind]
      rcases @findNode_eq qs cache ifa.name h.nodes 0 hh.chain hh.values (h.brk + 1) (by omega) with
        ⟨qs₁, x, qs₂, cache₁, map, cache₂, rfl, rfl, hlen, hfind, htake⟩ | ⟨hfind, htake⟩
      · obtain ⟨h', hrun, hh'⟩ := holds_unlink hh hlen
        simp only [hfind, htake, hrun, ofExcept_bind, Option.getD_some]
        refine Prog.Sim.bind_left _ fun macAddress => Prog.Sim.bind_left _ fun _ => ?_
        exact .ret ⟨_, hh'⟩
      · simp only [hfind, htake, ofExcept_bind, Option.getD_none]
        refine Prog.Sim.bind_left _ fun _ => ?_
        exact .ret ⟨_, hh⟩

/-- The first node that is left, with those behind it; nothing leads to it any more. -/
def Left (m : Cells (Option NetworkMap)) : List Nat → Prop
  | [] => True
  | q :: qs => Chain m q qs

/-- **The last loop** shows what is in the cache, and leaves the head. -/
theorem flushNetwork_sim (fuel : Nat) (hlen : qs.length < fuel) (hleft : Left h.nodes qs)
    (hnd : (head :: qs).Nodup) (hnodes : ∀ p, h.nodes.value p ≠ none ↔ p ∈ head :: qs)
    (hvalues : qs.map h.nodes.value = cache.map fun map => some (some map)) :
    Prog.Sim (fun (h' : NetworkHeap) _ => ∀ p, h'.nodes.value p ≠ none ↔ p = head)
      (flushNetwork env fuel h qs.head?)
      (cache.forM fun node => showNetworkIf env node.ifaddr node.addr node.macAddress) := by
  induction qs generalizing h cache fuel with
  | nil =>
    obtain ⟨fuel, rfl⟩ : ∃ f, fuel = f + 1 := ⟨fuel - 1, by simp only [List.length_nil] at hlen; omega⟩
    obtain rfl : cache = [] := by simpa using hvalues.symm
    exact .ret fun p => by rw [hnodes, List.mem_singleton]
  | cons q qs ih =>
    obtain ⟨fuel, rfl⟩ : ∃ f, fuel = f + 1 := ⟨fuel - 1, by omega⟩
    rcases cache with _ | ⟨map, cache⟩
    · simp at hvalues
    rw [List.map_cons, List.map_cons] at hvalues
    obtain ⟨hvalue, hvalues⟩ := List.cons.inj hvalues
    obtain ⟨hheadQs, hndqs⟩ := List.nodup_cons.1 hnd
    obtain ⟨hq, hqs⟩ := List.nodup_cons.1 hndqs
    have hnext : h.nodes.next q = some qs.head? := Chain.next_eq hleft
    obtain ⟨m, hm, hn, hp, hv⟩ := Cells.free_some hnext
    have hfree : h.update (h.nodes.free q) = .ok { h with nodes := m } := by
      rw [NetworkHeap.update, hm]
      rfl
    have hne : ∀ p ∈ qs, p ≠ q := fun p hp heq => hq (heq ▸ hp)
    rw [List.head?_cons, flushNetwork, hvalue]
    simp only [access, ofExcept_bind, hnext, hfree]
    refine Prog.Sim.bind_left _ fun _ => ?_
    simp only [List.length_cons] at hlen
    refine ih fuel (by omega) ?_ ?_ (fun p => ?_) ?_
    · -- the links of the other nodes are what they were
      cases qs with
      | nil => exact trivial
      | cons r qs =>
        have hrest : Chain h.nodes r qs := hleft.2.2
        refine hrest.congr (fun p hp' => ?_) fun p hp' => ?_
        · rw [hn, if_neg (hne p hp')]
        · rw [hp, if_neg (hne p (List.mem_cons_of_mem _ hp'))]
    · exact List.nodup_cons.2 ⟨fun hmem => hheadQs (List.mem_cons_of_mem _ hmem), hqs⟩
    · change m.value p ≠ none ↔ _
      rw [hv]
      have hheadq : head ≠ q := fun heq => hheadQs (heq ▸ List.mem_cons_self)
      by_cases hpq : p = q
      · subst hpq
        simp [hq, Ne.symm hheadq]
      · rw [if_neg hpq, hnodes]
        simp [hpq]
    · rw [← hvalues]
      refine List.map_congr_left fun p hp => ?_
      exact (hv p).trans (if_neg (hne p hp))

/-- **`show_network` by addresses** does what it does on a list: every access is to a node that is there. -/
theorem showInterfacesAt_sim (ifAddrs : List Ifaddrs) :
    Prog.Sim Eq (showInterfacesAt env ifAddrs) (showInterfaces env ifAddrs) := by
  unfold showInterfacesAt showInterfaces
  refine Prog.Sim.bind_left _ fun memory => Prog.Sim.bind_left _ fun _ => ?_
  have hloop : Prog.Sim CacheAt (ifAddrs.foldlM (showNetworkEntryAt env 0) (NetworkHeap.init.calloc none).1)
      (ifAddrs.foldlM (showNetworkEntry env) []) :=
    Prog.Sim.foldlM ⟨[], holds_init⟩ fun _ _ ifa _ hh => showNetworkEntryAt_sim hh ifa
  refine hloop.bind fun h cache hh => ?_
  obtain ⟨qs, hh⟩ := hh
  have hleft : Left h.nodes qs := by
    cases qs with
    | nil => exact trivial
    | cons q qs => exact hh.chain.2.2
  have hflush := @flushNetwork_sim env h 0 qs cache (h.brk + 1) (Nat.lt_succ_of_lt hh.length_le) hleft hh.nodup
    hh.nodes hh.values
  have hhead : NetworkHeap.init.brk = 0 := rfl
  simp only [hhead, hh.chain.next_eq, access, ofExcept_bind]
  refine hflush.bind fun h' _ hlast => ?_
  -- the head is still there
  obtain ⟨v, hv⟩ := Option.ne_none_iff_exists'.1 ((hlast 0).2 rfl)
  obtain ⟨c, hc, -⟩ := Option.map_eq_some_iff.1 hv
  have hfree : h'.update (h'.nodes.free 0) = .ok { h' with nodes := Function.update h'.nodes 0 none } := by
    rw [NetworkHeap.update, Cells.free, hc]
    rfl
  simp only [hfree, ofExcept_bind]
  exact Prog.Sim.refl _

theorem showNetworkAt_sim : Prog.Sim Eq (showNetworkAt env) (showNetwork env) := by
  unfold showNetworkAt showNetwork
  refine Prog.Sim.bind_left _ fun _ => Prog.Sim.bind_left _ fun ifAddrs => ?_
  cases ifAddrs with
  | none => exact Prog.Sim.refl _
  | some ifAddrs => exact showInterfacesAt_sim ifAddrs

/-! ## Every interface is shown once -/

section Once

variable (env) (ifAddrs : List Ifaddrs)

/-- `ifa->ifa_addr->sa_family == PROCENV_LINK_LEVEL_FAMILY`. -/
def linkLevel (ifa : Ifaddrs) : Bool := ifa.addr.any fun addr => (addr.family : Int) = env.build.value "AF_PACKET"

/-- **The assumption of the comment**: all entries have an address, and an interface has at most one link level
entry, before its other entries. -/
structure LinkFirst : Prop where
  address : ∀ ifa ∈ ifAddrs, ifa.addr ≠ none
  once : ((ifAddrs.filter (linkLevel env)).map Ifaddrs.name).Nodup
  first : ∀ before ifa after, ifAddrs = before ++ ifa :: after → linkLevel env ifa = false →
    ∀ link ∈ after, linkLevel env link = true → link.name ≠ ifa.name

/-- The entries that are not of the link level. -/
def addressed : List Ifaddrs := ifAddrs.filter fun ifa => !linkLevel env ifa

/-- The link level entries of interfaces without other entries. -/
def unaddressed : List Ifaddrs :=
  ifAddrs.filter fun ifa => linkLevel env ifa ∧ ∀ other ∈ addressed env ifAddrs, other.name ≠ ifa.name

end Once

variable {o : Prog.Oracle Call} {ifAddrs : List Ifaddrs} {ifa : Ifaddrs} {ws : List Event}

/-- The flags that are set, each as an object. -/
def flagEvents (flags : Nat) (m : List (String × Int)) : List Event :=
  (m.filter fun e => flags &&& e.2.toNat ≠ 0).flatMap fun e =>
    [.objectOpen false, .entry (bytes e.1) (lit "0x" ++ fmtX e.2.toNat), .objectClose false]

/-- **What an entry is shown as**: one section with the name of its interface, and in it the family and the flags
of the entry and what its address resolves to. -/
inductive InterfaceBlock (env : Env) (o : Prog.Oracle Call) (ifa : Ifaddrs) : List Event → Prop
  | mk (addr : Sockaddr) (extended : Option Nat) (mac mtu address netmask : WStr) (broadcast : List Event) :
    ifa.addr = some addr →
    (∃ n n', (getNetworkAddress env addr addr.family).run o n = .ok (address, [], n')) →
    (∀ e ∈ broadcast, ∃ name ∈ ["broadcast", "point-to-point"], ∃ value, e = .entry (bytes name) value) →
    InterfaceBlock env o ifa
      ([.sectionOpen ifa.name,
          .entry (bytes "family") (getNetFamilyName env addr.family ++ lit " (0x" ++ fmtX addr.family ++ lit ")"),
          .sectionOpen (bytes "flags"), .entry (bytes "value") (lit "0x" ++ fmtX ifa.flags),
          .containerOpen (bytes "fields")] ++ flagEvents ifa.flags (env.build.map Tables.ifFlagMapLinux) ++
        [.containerClose, .sectionClose, .sectionOpen (bytes "extended flags"),
          .entry (bytes "value") (lit "0x0"), .containerOpen (bytes "fields")] ++
        (extended.elim [] fun flags => flagEvents flags (env.build.map Tables.ifExtendedFlagMapLinux)) ++
        [.containerClose, .sectionClose, .entry (bytes "mac") mac, .entry (bytes "mtu") mtu,
          .entry (bytes "address") address, .entry (bytes "netmask") netmask] ++ broadcast ++ [.sectionClose])

/-- The entries are shown, one after the other: one block for each, and nothing else. -/
def Displays (env : Env) (o : Prog.Oracle Call) (shown : List Ifaddrs) (ws : List Event) : Prop :=
  ∃ blocks, List.Forall₂ (InterfaceBlock env o) shown blocks ∧ ws = blocks.flatten

theorem Displays.concat {shown : List Ifaddrs} {ws' : List Event} (h : Displays env o shown ws)
    (hblock : InterfaceBlock env o ifa ws') : Displays env o (shown ++ [ifa]) (ws ++ ws') := by
  obtain ⟨blocks, hblocks, rfl⟩ := h
  refine ⟨blocks ++ [ws'], List.rel_append hblocks (.cons hblock .nil), ?_⟩
  rw [List.flatten_append, List.flatten_singleton]

/-- The MAC address is one that `get_mac_address` found for the interface. -/
def Fetched (o : Prog.Oracle Call) (name : MbStr) (macAddress : Option MbStr) : Prop :=
  ∀ mac, macAddress = some mac → ∃ n n', (getMacAddress name).run o n = .ok (some mac, [], n')

/-- A text that is shown of the entry has no wide form: the MAC address, or what an address resolves to. -/
def Undecodable (env : Env) (o : Prog.Oracle Call) (ifa : Ifaddrs) : Prop :=
  (∃ mac, Fetched o ifa.name (some mac) ∧ env.locale.mbsrtowcs mac = none) ∨
    ∃ addr n host, some addr ∈ [ifa.addr, ifa.netmask, ifa.broadaddr, ifa.dstaddr] ∧
      o n (Call.getnameinfo addr) = .ok host ∧ env.locale.mbsrtowcs host = none

/-- Why `show_network` stops: memory for a node is refused, or a text of an entry has no wide form. -/
def Stops (env : Env) (o : Prog.Oracle Call) (ifAddrs : List Ifaddrs) (e : Halt) : Prop :=
  e = .assertFailed "show_network" ∧ (∃ n, o n Call.alloc = false) ∨
    e = .hang ∧ ∃ ifa ∈ ifAddrs, Undecodable env o ifa

/-- Asking for the MAC address emits nothing. -/
theorem runs_getMacAddress (name : MbStr) :
    Prog.Runs o (fun r ws => ws = [] ∧ Fetched o name r) (Stops env o ifAddrs) (getMacAddress name) := by
  have hsilent : Prog.Runs o (fun _ ws => ws = []) (Stops env o ifAddrs) (getMacAddress name) := by
    unfold getMacAddress
    refine (Prog.Runs.lift _).bind fun hasSocket ws hws => ?_
    subst hws
    split
    · exact Prog.Runs.ret rfl
    refine (Prog.Runs.lift _).bind fun data ws hws => ?_
    subst hws
    split
    · split
      · exact Prog.Runs.ret rfl
      refine (Prog.Runs.lift _).bind fun memory ws hws => ?_
      subst hws
      split
      · exact Prog.Runs.ret rfl
      · exact Prog.Runs.ret rfl
    · exact Prog.Runs.ret rfl
  refine (runs_returned hsilent).mono fun r ws hr => ⟨hr.1, fun mac hmac => ?_⟩
  rw [← hmac]
  exact hr.2

/-! ### The block of an entry -/

variable {E : Halt → Prop} {addr : Sockaddr}

theorem flagEvents_cons (flags : Nat) (e : String × Int) (m : List (String × Int)) :
    flagEvents flags (e :: m) = (if flags &&& e.2.toNat ≠ 0 then
      [.objectOpen false, .entry (bytes e.1) (lit "0x" ++ fmtX e.2.toNat), .objectClose false] else []) ++
        flagEvents flags m := by
  unfold flagEvents
  by_cases hset : flags &&& e.2.toNat = 0
  · simp [hset]
  · simp [hset]

theorem runs_showFlags (flags : Nat) (m : List (String × Int)) :
    Prog.Runs o (fun _ ws => ws = flagEvents flags m) E (showFlags flags m) := by
  induction m with
  | nil => exact Prog.Runs.ret rfl
  | cons e m ih =>
    have hflag : Prog.Runs o (fun _ ws => ws = if flags &&& e.2.toNat ≠ 0 then
        [.objectOpen false, .entry (bytes e.1) (lit "0x" ++ fmtX e.2.toNat), .objectClose false] else []) E
        (when (flags &&& e.2.toNat ≠ 0) do
          Show.objectOpen
          Show.entry e.1 (lit "0x" ++ fmtX e.2.toNat)
          Show.objectClose) := by
      by_cases hset : flags &&& e.2.toNat = 0
      · simp only [hset, ne_eq, not_true_eq_false, if_false]
        exact Prog.Runs.ret rfl
      · simp only [hset, ne_eq, not_false_eq_true, if_true]
        exact Prog.Runs.emit (Prog.Runs.emit (Prog.Runs.emit (Prog.Runs.ret rfl)))
    refine hflag.bind fun _ ws hws => ih.mono fun _ ws' hws' => ?_
    rw [flagEvents_cons, hws, hws']

theorem runs_showExtendedIfFlagsLinux (interface : MbStr) :
    Prog.Runs o (fun _ ws => ∃ extended : Option Nat, ws = extended.elim [] fun flags =>
        flagEvents flags (env.build.map Tables.ifExtendedFlagMapLinux)) E
          (showExtendedIfFlagsLinux env interface) := by
  unfold showExtendedIfFlagsLinux
  refine (Prog.Runs.lift _).bind fun hasSocket ws hws => ?_
  subst hws
  split
  · exact Prog.Runs.ret ⟨none, rfl⟩
  refine (Prog.Runs.lift _).bind fun flags ws hws => ?_
  subst hws
  cases flags with
  | none => exact Prog.Runs.ret ⟨none, rfl⟩
  | some flags => exact (runs_showFlags flags _).mono fun _ ws hws => ⟨some flags, hws⟩

theorem runs_getMtuGeneric (name : MbStr) : Prog.Runs o (fun _ ws => ws = []) E (getMtuGeneric name) := by
  unfold getMtuGeneric
  refine (Prog.Runs.lift _).bind fun hasSocket ws hws => ?_
  subst hws
  split
  · exact Prog.Runs.ret rfl
  refine (Prog.Runs.lift _).bind fun mtu ws hws => ?_
  subst hws
  exact Prog.Runs.ret rfl

/-- What an address of an entry resolves to. -/
theorem runs_getNetworkAddress {family : Nat} (hmem : ifa ∈ ifAddrs)
    (haddr : some addr ∈ [ifa.addr, ifa.netmask, ifa.broadaddr, ifa.dstaddr]) :
    Prog.Runs o (fun _ ws => ws = []) (Stops env o ifAddrs) (getNetworkAddress env addr family) := by
  unfold getNetworkAddress
  split
  · exact Prog.Runs.ret rfl
  refine (Prog.Runs.asked _).bind fun r ws hr => ?_
  obtain ⟨rfl, n, hr⟩ := hr
  cases r with
  | error e => exact Prog.Runs.ret rfl
  | ok host =>
    have hstop (hhost : env.locale.mbsrtowcs host = none) : Stops env o ifAddrs .hang :=
      Or.inr ⟨rfl, ifa, hmem, Or.inr ⟨addr, n, host, haddr, hr, hhost⟩⟩
    exact (runs_str hstop).mono fun _ _ hws => hws.1

/-- The entries after the netmask. -/
theorem runs_showBroadcast {family : Nat} (hmem : ifa ∈ ifAddrs) :
    Prog.Runs o (fun _ ws => ∀ e ∈ ws, ∃ name ∈ ["broadcast", "point-to-point"],
      ∃ value, e = .entry (bytes name) value)
      (Stops env o ifAddrs) (showBroadcast env ifa family) := by
  have hone {name : String} (hname : name ∈ ["broadcast", "point-to-point"]) {addr : Sockaddr}
      (haddr : some addr ∈ [ifa.addr, ifa.netmask, ifa.broadaddr, ifa.dstaddr]) (c : Bool) :
      Prog.Runs o (fun _ ws => ∀ e ∈ ws, ∃ name ∈ ["broadcast", "point-to-point"], ∃ value,
          e = .entry (bytes name) value) (Stops env o ifAddrs)
        (when c do Show.entry name (← getNetworkAddress env addr family)) := by
    refine runs_when (by simp) fun _ => (runs_getNetworkAddress hmem haddr).bind fun value ws hws => ?_
    subst hws
    exact Prog.Runs.emit (Prog.Runs.ret (List.forall_mem_singleton.2 ⟨name, hname, value, rfl⟩))
  unfold showBroadcast
  refine Prog.Runs.bind (P := fun _ ws => ∀ e ∈ ws, ∃ name ∈ ["broadcast", "point-to-point"], ∃ value,
    e = .entry (bytes name) value) ?_ fun _ ws hws => ?_
  · split
    · cases haddr : ifa.broadaddr with
      | none => exact Prog.Runs.ret (by simp)
      | some addr => exact hone (by simp) (by simp [haddr]) _
    · exact Prog.Runs.emit (Prog.Runs.ret (List.forall_mem_singleton.2 ⟨"broadcast", by simp, naStr, rfl⟩))
  · cases haddr : ifa.dstaddr with
    | none => exact Prog.Runs.ret (by simpa using hws)
    | some addr =>
      refine (hone (by simp) (by simp [haddr]) _).mono fun _ ws' hws' e he => ?_
      rcases List.mem_append.1 he with he | he
      · exact hws e he
      · exact hws' e he

/-- **Showing an entry** is its block. -/
theorem runs_showNetworkIf (hmem : ifa ∈ ifAddrs) (haddr : ifa.addr = some addr) {macAddress : Option MbStr}
    (hmac : Fetched o ifa.name macAddress) :
    Prog.Runs o (fun _ ws => InterfaceBlock env o ifa ws) (Stops env o ifAddrs)
      (showNetworkIf env ifa addr macAddress) := by
  unfold showNetworkIf
  refine Prog.Runs.emit (Prog.Runs.emit (Prog.Runs.emit (Prog.Runs.emit (Prog.Runs.emit ?_))))
  refine (runs_showFlags _ _).bind fun _ ws₁ hws₁ => ?_
  subst hws₁
  refine Prog.Runs.emit (Prog.Runs.emit (Prog.Runs.emit (Prog.Runs.emit (Prog.Runs.emit ?_))))
  refine (runs_showExtendedIfFlagsLinux _).bind fun _ ws₂ hws₂ => ?_
  obtain ⟨extended, rfl⟩ := hws₂
  refine Prog.Runs.emit (Prog.Runs.emit ?_)
  refine (runs_getMtuGeneric _).bind fun mtu ws₃ hws₃ => ?_
  subst hws₃
  have hshownMac : Prog.Runs o (fun _ ws => ws = []) (Stops env o ifAddrs) (strOr env naStr macAddress) := by
    cases macAddress with
    | none => exact Prog.Runs.ret rfl
    | some mac =>
      have hstop (hnone : env.locale.mbsrtowcs mac = none) : Stops env o ifAddrs .hang :=
        Or.inr ⟨rfl, ifa, hmem, Or.inl ⟨mac, hmac, hnone⟩⟩
      exact (runs_str hstop).mono fun _ _ hws => hws.1
  refine hshownMac.bind fun mac ws₄ hws₄ => ?_
  subst hws₄
  refine Prog.Runs.emit (Prog.Runs.emit ?_)
  refine (runs_returned (runs_getNetworkAddress hmem (by simp [haddr]))).bind fun address ws₅ hws₅ => ?_
  obtain ⟨rfl, haddress⟩ := hws₅
  refine Prog.Runs.emit ?_
  have hnetmask : Prog.Runs o (fun _ ws => ws = []) (Stops env o ifAddrs)
      (ifa.netmask.elim (pure naStr) fun netmask => getNetworkAddress env netmask addr.family) := by
    cases hmask : ifa.netmask with
    | none => exact Prog.Runs.ret rfl
    | some netmask => exact runs_getNetworkAddress hmem (by simp [hmask])
  refine hnetmask.bind fun netmask ws₆ hws₆ => ?_
  subst hws₆
  refine Prog.Runs.emit ((runs_showBroadcast hmem).bind fun _ broadcast hbroadcast => ?_)
  refine Prog.Runs.emit (Prog.Runs.ret ?_)
  have hblock := InterfaceBlock.mk addr extended mac (if mtu > 0 then fmtD mtu else unknownStr) address netmask
    broadcast haddr haddress hbroadcast
  simpa only [List.append_assoc, List.cons_append, List.nil_append] using hblock

/-- A new link level entry: its interface has no other entry so far. -/
theorem unaddressed_link (hlink : linkLevel env ifa = true)
    (hfirst : ∀ other ∈ addressed env ifAddrs, other.name ≠ ifa.name) :
    addressed env (ifAddrs ++ [ifa]) = addressed env ifAddrs ∧
      unaddressed env (ifAddrs ++ [ifa]) = unaddressed env ifAddrs ++ [ifa] := by
  have hsame : addressed env (ifAddrs ++ [ifa]) = addressed env ifAddrs := by
    simp [addressed, List.filter_append, hlink]
  refine ⟨hsame, ?_⟩
  rw [unaddressed, hsame, List.filter_append]
  congr 1
  exact List.filter_cons_of_pos (decide_eq_true ⟨hlink, hfirst⟩)

/-- Another entry: its interface has an address now. -/
theorem unaddressed_other (hlink : linkLevel env ifa = false) :
    addressed env (ifAddrs ++ [ifa]) = addressed env ifAddrs ++ [ifa] ∧
      unaddressed env (ifAddrs ++ [ifa]) = (unaddressed env ifAddrs).filter fun link => link.name ≠ ifa.name := by
  have hnew : addressed env (ifAddrs ++ [ifa]) = addressed env ifAddrs ++ [ifa] := by
    simp [addressed, List.filter_append, hlink]
  refine ⟨hnew, ?_⟩
  have hnil : [ifa].filter (fun link => linkLevel env link ∧
      ∀ other ∈ addressed env ifAddrs ++ [ifa], other.name ≠ link.name) = [] :=
    List.filter_cons_of_neg (by simp [hlink])
  rw [unaddressed, hnew, List.filter_append, hnil, List.append_nil, unaddressed, List.filter_filter]
  refine List.filter_congr fun link _ => ?_
  rw [← Bool.decide_and, decide_eq_decide]
  constructor
  · rintro ⟨h₁, h₂⟩
    exact ⟨Ne.symm (h₂ ifa (by simp)), h₁, fun other hother => h₂ other (List.mem_append_left _ hother)⟩
  · rintro ⟨hne, h₁, h₂⟩
    refine ⟨h₁, fun other hother => ?_⟩
    rcases List.mem_append.1 hother with hother | hother
    · exact h₂ other hother
    · rw [List.mem_singleton.1 hother]
      exact Ne.symm hne

/-- **The node that is taken** is the one with the name. -/
theorem takeNode_cache (hnd : (cache.map fun node => node.ifaddr.name).Nodup) :
    (takeNode name cache).2.map NetworkMap.ifaddr =
      (cache.map NetworkMap.ifaddr).filter fun link => link.name ≠ name := by
  induction cache with
  | nil => rfl
  | cons node cache ih =>
    rw [List.map_cons, List.nodup_cons] at hnd
    rw [takeNode, List.map_cons]
    by_cases hname : node.ifaddr.name = name
    · rw [if_pos hname, List.filter_cons_of_neg (by simp [hname]), List.filter_eq_self.2]
      intro link hlink
      obtain ⟨other, hother, rfl⟩ := List.mem_map.1 hlink
      refine decide_eq_true fun heq => hnd.1 ?_
      rw [hname, ← heq]
      exact List.mem_map_of_mem hother
    · rw [if_neg hname, List.filter_cons_of_pos (by simp [hname]), ← ih hnd.2]
      rfl

theorem takeNode_subset : (takeNode name cache).2 ⊆ cache := by
  induction cache with
  | nil => exact List.Subset.refl _
  | cons node cache ih =>
    rw [takeNode]
    split
    · exact List.subset_cons_self _ _
    · exact List.cons_subset_cons _ ih

/-- The search finds the first node with the name. -/
theorem takeNode_fst (name : MbStr) :
    (takeNode name cache).1 = (cache.find? fun node => node.ifaddr.name = name).map NetworkMap.macAddress := by
  induction cache with
  | nil => rfl
  | cons node cache ih =>
    rw [takeNode, List.find?_cons]
    by_cases hname : node.ifaddr.name = name
    · rw [if_pos hname, decide_eq_true hname]
      rfl
    · rw [if_neg hname, decide_eq_false hname]
      exact ih

/-- The cache holds the link level entries of interfaces without an address. -/
structure CacheOf (env : Env) (o : Prog.Oracle Call) (done : List Ifaddrs) (cache : List NetworkMap) : Prop where
  cached : cache.map NetworkMap.ifaddr = (unaddressed env done).reverse
  addresses : ∀ node ∈ cache, node.ifaddr.addr = some node.addr
  fetched : ∀ node ∈ cache, Fetched o node.ifaddr.name node.macAddress

/-- What the cache holds are entries of the list, each with its address. -/
theorem CacheOf.mem {node : NetworkMap} (hcache : CacheOf env o ifAddrs cache) (hnode : node ∈ cache) :
    node.ifaddr ∈ ifAddrs ∧ node.ifaddr.addr = some node.addr ∧ Fetched o node.ifaddr.name node.macAddress := by
  have hmem : node.ifaddr ∈ (unaddressed env ifAddrs).reverse := by
    rw [← hcache.cached]
    exact List.mem_map_of_mem hnode
  exact ⟨(List.mem_filter.1 (List.mem_reverse.1 hmem)).1, hcache.addresses node hnode, hcache.fetched node hnode⟩

/-- The MAC address in the node that is taken. -/
theorem CacheOf.taken {done : List Ifaddrs} (hcache : CacheOf env o done cache) (name : MbStr) :
    Fetched o name ((takeNode name cache).1.getD none) := by
  rw [takeNode_fst]
  rcases hfind : cache.find? (fun node => node.ifaddr.name = name) with _ | node
  · rw [hfind]
    exact nofun
  · have hname : node.ifaddr.name = name := by simpa using List.find?_some hfind
    have hfetched := hcache.fetched node (List.mem_of_find?_eq_some hfind)
    rw [hname] at hfetched
    rw [hfind]
    exact hfetched

/-- A link level entry goes to the cache. -/
theorem CacheOf.link {done after : List Ifaddrs} {addr : Sockaddr} (hcache : CacheOf env o done cache)
    (hall : ifAddrs = done ++ ifa :: after) (hfirst : LinkFirst env ifAddrs) (hlink : linkLevel env ifa = true)
    (haddr : ifa.addr = some addr) {macAddress : Option MbStr} (hmac : Fetched o ifa.name macAddress) :
    CacheOf env o (done ++ [ifa]) (⟨ifa, addr, macAddress⟩ :: cache) ∧
      addressed env (done ++ [ifa]) = addressed env done := by
  have hnew : ∀ other ∈ addressed env done, other.name ≠ ifa.name := by
    intro other hother
    obtain ⟨hdone', hflag⟩ := List.mem_filter.1 hother
    obtain ⟨l, r, hsplit⟩ := List.append_of_mem hdone'
    have hbefore : ifAddrs = l ++ other :: (r ++ ifa :: after) := by
      rw [hall, hsplit]
      simp
    exact Ne.symm (hfirst.first l other _ hbefore (by simpa using hflag) ifa (by simp) hlink)
  obtain ⟨hshown, hcached⟩ := unaddressed_link hlink hnew
  refine ⟨⟨?_, ?_, ?_⟩, hshown⟩
  · rw [hcached, List.reverse_append, List.map_cons, hcache.cached]
    rfl
  · rintro node (_ | ⟨_, hnode⟩)
    · exact haddr
    · exact hcache.addresses node hnode
  · rintro node (_ | ⟨_, hnode⟩)
    · exact hmac
    · exact hcache.fetched node hnode

/-- Another entry uses up the link level entry of its interface. -/
theorem CacheOf.other {done after : List Ifaddrs} (hcache : CacheOf env o done cache)
    (hall : ifAddrs = done ++ ifa :: after) (hfirst : LinkFirst env ifAddrs)
    (hother : linkLevel env ifa = false) :
    CacheOf env o (done ++ [ifa]) (takeNode ifa.name cache).2 ∧
      addressed env (done ++ [ifa]) = addressed env done ++ [ifa] := by
  obtain ⟨hshown, hcached⟩ := unaddressed_other hother
  have hnd : (cache.map fun node => node.ifaddr.name).Nodup := by
    have hnames : cache.map (fun node => node.ifaddr.name) = (unaddressed env done).reverse.map Ifaddrs.name := by
      rw [← hcache.cached, List.map_map]
      rfl
    rw [hnames, List.map_reverse, List.nodup_reverse]
    refine hfirst.once.sublist (List.Sublist.map _ ?_)
    rw [hall, List.filter_append]
    refine List.Sublist.trans ?_ (List.sublist_append_left _ _)
    exact List.monotone_filter_right _ fun link hl => (of_decide_eq_true hl).1
  refine ⟨⟨?_, fun node hnode => hcache.addresses node (takeNode_subset hnode),
    fun node hnode => hcache.fetched node (takeNode_subset hnode)⟩, hshown⟩
  rw [hcached, ← List.filter_reverse, ← hcache.cached]
  exact takeNode_cache hnd

/-- A system with them. -/
def linuxNetwork : Env :=
  { (default : Env) with
    build := { (default : Build) with value := fun const => if const = "AF_PACKET" then 17 else 2 } }

end Procenv
