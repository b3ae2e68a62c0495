import Procenv.Proof.Network

/-!
# The MAC addresses that `show_network` shows

The MAC address of an interface is in the cache, and goes with the first entry that uses it up. So the
first address of an interface is shown with it, and the others are not.

* `showNetworkIf_mac`: the one entry `mac` of an interface.
* `showNetworkAt_mac_iff`: **all addresses are shown with their MAC address exactly when no interface
  has two**.
-/

namespace Procenv

open Text Data Interact Show

/-! ## The entry of one interface -/

/-- The value of an entry `mac`. -/
def macValue : Event → Option WStr
  | .entry name value => if name = bytes "mac" then some value else none
  | _ => none

/-- `mac_address ? mac_address : NA_STR`. -/
def shownMac (env : Env) : Option MbStr → Option WStr
  | none => some naStr
  | some mac => env.locale.mbsrtowcs mac

namespace Show

open Prog

variable {env : Env} {s : List WStr} {P : Unit → List WStr → Prop} {Q : WStr → List WStr → Prop}

theorem macValue_entry {name : String} (hname : bytes name ≠ bytes "mac") (value : WStr) :
    macValue (.entry (bytes name) value) = none := if_neg hname

theorem mac_entry {name : String} (hname : bytes name ≠ bytes "mac") {value : WStr} :
    (entry name value).Ends (collect macValue) P s ↔ P () s := by
  simp [entry, entryNamed, collect, macValue_entry hname]

@[simp] theorem mac_entry_mac {value : WStr} :
    (entry "mac" value).Ends (collect macValue) P s ↔ P () (s ++ [value]) := by
  simp [entry, entryNamed, collect, macValue]

@[simp] theorem mac_sectionOpenNamed {name : MbStr} :
    (sectionOpenNamed name).Ends (collect macValue) P s ↔ P () s := by
  simp [sectionOpenNamed, collect, macValue]

@[simp] theorem mac_sectionOpen {name : String} :
    (sectionOpen name).Ends (collect macValue) P s ↔ P () s := mac_sectionOpenNamed

@[simp] theorem mac_sectionClose : sectionClose.Ends (collect macValue) P s ↔ P () s := by
  simp [sectionClose, collect, macValue]

@[simp] theorem mac_containerOpen {name : String} :
    (containerOpen name).Ends (collect macValue) P s ↔ P () s := by
  simp [containerOpen, containerOpenNamed, collect, macValue]

@[simp] theorem mac_containerClose : containerClose.Ends (collect macValue) P s ↔ P () s := by
  simp [containerClose, collect, macValue]

@[simp] theorem mac_objectOpen : objectOpen.Ends (collect macValue) P s ↔ P () s := by
  simp [objectOpen, collect, macValue]

@[simp] theorem mac_objectClose : objectClose.Ends (collect macValue) P s ↔ P () s := by
  simp [objectClose, collect, macValue]

@[simp] theorem mac_when {c : Bool} {m : Show Unit} :
    (when c m).Ends (collect macValue) P s ↔ if c then m.Ends (collect macValue) P s else P () s := by
  unfold when
  split <;> rfl

/-- The flags of an interface have other names. -/
theorem showFlags_mac (flags : Nat) {build : Build} {m : List MapEntry}
    (hm : ∀ e ∈ m, bytes e.name ≠ bytes "mac") : Keeps (collect macValue) (showFlags flags (build.map m)) s := by
  refine Keeps.forM fun e he => ?_
  obtain ⟨entry', hentry, rfl⟩ := List.mem_map.1 he
  have hname : bytes entry'.name ≠ bytes "mac" := hm _ (List.mem_filter.1 hentry).1
  unfold Keeps
  simp [mac_entry hname]

@[simp] theorem showExtendedIfFlagsLinux_mac (interface : MbStr) :
    Keeps (collect macValue) (showExtendedIfFlagsLinux env interface) s := by
  have hflags (flags : Nat) :
    Keeps (collect macValue) (showFlags flags (env.build.map Tables.ifExtendedFlagMapLinux)) s :=
    showFlags_mac flags (by decide)
  unfold Keeps showExtendedIfFlagsLinux
  simp [Option.forall, hflags]

@[simp] theorem getMtuGeneric_mac (name : MbStr) : Keeps (collect macValue) (getMtuGeneric name) s := by
  simp [Keeps, getMtuGeneric]

@[simp] theorem str_mac (text : MbStr) :
    (str env text).Ends (collect macValue) Q s ↔ ∀ w, env.locale.mbsrtowcs text = some w → Q w s := by
  unfold str expandStr
  cases env.locale.mbsrtowcs text with
  | none => simp [ofExcept]
  | some w => simp [ofExcept]

theorem strOr_mac (macAddress : Option MbStr) :
    (strOr env naStr macAddress).Ends (collect macValue) Q s ↔ ∀ v, shownMac env macAddress = some v → Q v s := by
  cases macAddress with
  | none => simp [strOr, shownMac]
  | some mac => exact str_mac mac

@[simp] theorem getNetworkAddress_mac (addr : Sockaddr) (family : Nat) :
    Keeps (collect macValue) (getNetworkAddress env addr family) s := by
  unfold Keeps getNetworkAddress
  split
  · exact rfl
  · refine ends_bind.2 (ends_lift.2 fun r => ?_)
    cases r with
    | ok name => simp
    | error e => exact rfl

@[simp] theorem showBroadcast_mac (ifa : Ifaddrs) (family : Nat) :
    Keeps (collect macValue) (showBroadcast env ifa family) s := by
  have hbroadcast : bytes "broadcast" ≠ bytes "mac" := by decide
  have hpoint : bytes "point-to-point" ≠ bytes "mac" := by decide
  unfold Keeps showBroadcast
  cases ifa.broadaddr <;> cases ifa.dstaddr <;> simp [mac_entry hbroadcast, mac_entry hpoint]

/-- **The one entry `mac`** of an interface. -/
theorem showNetworkIf_mac (ifa : Ifaddrs) (addr : Sockaddr) (macAddress : Option MbStr) :
    (showNetworkIf env ifa addr macAddress).Ends (collect macValue)
      (fun _ t => ∃ v, t = s ++ [v] ∧ shownMac env macAddress = some v) s := by
  have hother : ∀ name ∈ ["family", "value", "mtu", "address", "netmask"], bytes name ≠ bytes "mac" := by decide
  simp only [List.forall_mem_cons] at hother
  obtain ⟨hfamily, hvalue, hmtu, haddress, hnetmask, -⟩ := hother
  have hflags (t : List WStr) (flags : Nat) :
      Keeps (collect macValue) (showFlags flags (env.build.map Tables.ifFlagMapLinux)) t :=
    showFlags_mac flags (by decide)
  unfold showNetworkIf
  cases ifa.netmask <;>
    simp only [Option.elim_none, Option.elim_some, mac_sectionOpenNamed, mac_sectionOpen, mac_sectionClose,
      mac_containerOpen, mac_containerClose, mac_entry hfamily, mac_entry hvalue, mac_entry hmtu,
      mac_entry haddress, mac_entry hnetmask, mac_entry_mac, strOr_mac, ends_bind, ends_pure,
      (hflags _ _).ends_iff, (showExtendedIfFlagsLinux_mac _).ends_iff, (getMtuGeneric_mac _).ends_iff,
      (getNetworkAddress_mac _ _).ends_iff, (showBroadcast_mac _ _).ends_iff, List.append_cancel_left_eq,
      List.cons.injEq, and_true, exists_eq_left']
  · intro _ _ _ v hv _ _
    exact hv
  · intro _ _ _ v hv _ _ _
    exact hv

end Show

/-! ## The MAC address of an interface -/

variable {env : Env} {o : Prog.Oracle Call} {ifAddrs : List Ifaddrs} {ifa : Ifaddrs} {cache : List NetworkMap}
  {ws : List Event}

/-- The interface has the MAC address: that is the answer whenever it is asked for. -/
def HasMac (o : Prog.Oracle Call) (name mac : MbStr) : Prop :=
  ∀ n, ∃ n', (getMacAddress name).run o n = .ok (some mac, [], n')

theorem notMem_intercalate {α : Type} {x : α} {sep : List α} {ls : List (List α)} (hsep : x ∉ sep)
    (hls : ∀ l ∈ ls, x ∉ l) : x ∉ sep.intercalate ls := by
  induction ls with
  | nil => exact List.not_mem_nil
  | cons l ls ih =>
    have hl : x ∉ l := hls l List.mem_cons_self
    have hrest : x ∉ sep.intercalate ls := ih fun l' hl' => hls l' (List.mem_cons_of_mem _ hl')
    cases ls with
    | nil => rwa [List.intercalate_singleton]
    | cons l' ls =>
      rw [List.intercalate_cons_cons]
      simp only [List.mem_append, not_or]
      exact ⟨⟨hl, hsep⟩, hrest⟩

/-- No hexadecimal digit is an `n`. -/
theorem notMem_fmtHex (p n : Nat) : (110 : UInt8) ∉ (fmtHex p n).map fun c => UInt8.ofNat c.val := by
  intro hmem
  obtain ⟨c, hc, hval⟩ := List.mem_map.1 hmem
  obtain ⟨d, hd, rfl⟩ := hexFixed_digit hc
  have hdigits : ∀ d < 16, UInt8.ofNat (hexDigit d).val ≠ 110 := by decide
  exact hdigits d hd hval

/-- **A MAC address is not `n/a`.** -/
theorem HasMac.ne {name mac : MbStr} (h : HasMac o name mac) : mac ≠ bytes "n/a" := by
  have hdigits : Prog.Runs o (fun r _ => ∀ m, r = some m → 110 ∉ m) (fun _ => True) (getMacAddress name) := by
    unfold getMacAddress
    refine (Prog.Runs.lift _).bind fun hasSocket _ _ => ?_
    split
    · exact Prog.Runs.ret (by simp)
    refine (Prog.Runs.lift _).bind fun data _ _ => ?_
    split
    · split
      · exact Prog.Runs.ret (by simp)
      refine (Prog.Runs.lift _).bind fun memory _ _ => ?_
      split
      · exact Prog.Runs.ret (by simp)
      · refine Prog.Runs.ret fun m hm => ?_
        obtain rfl := Option.some.inj hm
        refine notMem_intercalate (by decide) fun l hl => ?_
        obtain ⟨b, -, rfl⟩ := List.mem_map.1 hl
        exact notMem_fmtHex 2 b.toNat
    · exact Prog.Runs.ret (by simp)
  obtain ⟨n', hrun⟩ := h 0
  have hmac := hdigits 0
  rw [hrun] at hmac
  rintro rfl
  exact hmac _ rfl (by decide)

/-! ## The addresses of an interface -/

/-- What is emitted when the entries are shown, one after the other, each with the value of its one entry
`mac`. -/
inductive DisplaysMac (env : Env) (o : Prog.Oracle Call) : List (Ifaddrs × WStr) → List Event → Prop
  | nil : DisplaysMac env o [] []
  | concat {shown : List (Ifaddrs × WStr)} {ifa : Ifaddrs} {addr : Sockaddr}
    {macAddress : Option MbStr} {v : WStr}
      {ws ws' : List Event} {n n' : Nat} : DisplaysMac env o shown ws → ifa.addr = some addr →
      (showNetworkIf env ifa addr macAddress).run o n = .ok ((), ws', n') → ws'.filterMap macValue = [v] →
      DisplaysMac env o (shown ++ [(ifa, v)]) (ws ++ ws')

/-- **The MAC address reaches every address**: an entry that is not of the link level is shown with the MAC
address of its interface, if that has a link level entry and a MAC address. -/
def MacReaches (env : Env) (o : Prog.Oracle Call) (ifAddrs : List Ifaddrs) (shown : List (Ifaddrs × WStr)) :
    Prop :=
  ∀ p ∈ shown, linkLevel env p.1 = false → ∀ link ∈ ifAddrs, linkLevel env link = true → link.name = p.1.name →
    ∀ mac, HasMac o link.name mac → env.locale.mbsrtowcs mac = some p.2

/-- The first address of an interface is shown with the MAC address, and the others without. -/
def MacFirst (env : Env) (o : Prog.Oracle Call) (ifAddrs : List Ifaddrs) (shown : List (Ifaddrs × WStr)) : Prop :=
  ∀ before p after, shown = before ++ p :: after →
    (p.1.name ∈ before.map (fun q => q.1.name) → p.2 = naStr) ∧
      (p.1.name ∉ before.map (fun q => q.1.name) → ∀ link ∈ ifAddrs, linkLevel env link = true →
        link.name = p.1.name → ∀ mac, HasMac o link.name mac → env.locale.mbsrtowcs mac = some p.2)

/-- Showing an entry, with its entry `mac`. -/
theorem runs_showNetworkIf_mac {shown : List (Ifaddrs × WStr)} {addr : Sockaddr}
    (hws : DisplaysMac env o shown ws) (hmem : ifa ∈ ifAddrs) (haddr : ifa.addr = some addr)
    {macAddress : Option MbStr} (hmac : Fetched o ifa.name macAddress) :
    Prog.Runs o (fun _ ws' => ∃ v, shownMac env macAddress = some v ∧
      DisplaysMac env o (shown ++ [(ifa, v)]) (ws ++ ws'))
      (Stops env o ifAddrs) (showNetworkIf env ifa addr macAddress) := by
  intro n
  have hblock : Prog.Leaves _ (Stops env o ifAddrs) _ := runs_showNetworkIf hmem haddr hmac n
  rcases hr : (showNetworkIf env ifa addr macAddress).run o n with e | ⟨⟨⟩, ws', n'⟩
  · rw [hr] at hblock
    exact hblock
  · obtain ⟨v, hv, hmac⟩ := (@showNetworkIf_mac env [] ifa addr macAddress).collected hr
    exact ⟨v, hmac, hws.concat haddr hr (by simpa using hv)⟩

/-- With memory the copy of a MAC address is the MAC address. -/
theorem runs_strdup {E : Halt → Prop} (hmem : ∀ n, o n Call.alloc = true) (macAddress : Option MbStr) :
    Prog.Runs o (fun copied ws => copied = macAddress ∧ ws = []) E
      (macAddress.elim (pure none) fun mac => do return if ← Call.alloc then some mac else none :
        Show (Option MbStr)) := by
  cases macAddress with
  | none => exact Prog.Runs.ret ⟨rfl, rfl⟩
  | some mac =>
    intro n
    change (if o n Call.alloc then some mac else none) = some mac ∧ _
    rw [hmem n]
    exact ⟨rfl, rfl⟩

/-- What the main loop has done with the entries: the MAC addresses are in the cache, or with the first
address. -/
structure MacProcessed (env : Env) (o : Prog.Oracle Call) (ifAddrs done : List Ifaddrs) (cache : List NetworkMap)
    (shown : List (Ifaddrs × WStr)) (ws : List Event) : Prop extends CacheOf env o done cache where
  macs : ∀ node ∈ cache, ∀ mac, HasMac o node.ifaddr.name mac → node.macAddress = some mac
  displayed : DisplaysMac env o shown ws
  entries : shown.map Prod.fst = addressed env done
  first : MacFirst env o ifAddrs shown

/-- Asking for the MAC address of an interface that has one. -/
theorem runs_getMacAddress_mac (name : MbStr) :
    Prog.Runs o (fun r ws => ws = [] ∧ Fetched o name r ∧ ∀ mac, HasMac o name mac → r = some mac)
      (Stops env o ifAddrs)
      (getMacAddress name) := by
  intro n
  have hrun := @runs_getMacAddress env o ifAddrs name n
  rcases hr : (getMacAddress name).run o n with e | ⟨r, ws, n'⟩ <;> rw [hr] at hrun
  · exact hrun
  · refine ⟨hrun.1, hrun.2, fun mac hmac => ?_⟩
    obtain ⟨k, hk⟩ := hmac n
    rw [hr] at hk
    exact congrArg Prod.fst (Except.ok.inj hk)

/-- Another entry behind the others. -/
theorem MacFirst.concat {shown : List (Ifaddrs × WStr)} {v : WStr} (h : MacFirst env o ifAddrs shown)
    (hagain : ifa.name ∈ shown.map (fun q => q.1.name) → v = naStr)
    (hfirst : ifa.name ∉ shown.map (fun q => q.1.name) → ∀ link ∈ ifAddrs, linkLevel env link = true →
      link.name = ifa.name → ∀ mac, HasMac o link.name mac → env.locale.mbsrtowcs mac = some v) :
    MacFirst env o ifAddrs (shown ++ [(ifa, v)]) := by
  intro before p after hsplit
  rcases List.eq_nil_or_concat after with rfl | ⟨after', q, rfl⟩
  · obtain ⟨rfl, hp⟩ := List.append_inj' hsplit rfl
    obtain rfl : (ifa, v) = p := List.singleton_inj.1 hp
    exact ⟨hagain, hfirst⟩
  · rw [List.concat_eq_append, ← List.cons_append, ← List.append_assoc] at hsplit
    obtain ⟨hshown, -⟩ := List.append_inj' hsplit rfl
    exact h before p after' hshown

/-- The node of an interface whose address was shown was taken then. -/
theorem MacProcessed.taken_again {done : List Ifaddrs} {shown : List (Ifaddrs × WStr)} {name : MbStr}
    (h : MacProcessed env o ifAddrs done cache shown ws) (hagain : name ∈ shown.map fun q => q.1.name) :
    (takeNode name cache).1 = none := by
  have hnone : cache.find? (fun node => node.ifaddr.name = name) = none := by
    refine List.find?_eq_none.2 fun node hnode heq => ?_
    have hcached : node.ifaddr ∈ unaddressed env done := by
      rw [← List.mem_reverse, ← h.cached]
      exact List.mem_map_of_mem hnode
    obtain ⟨q, hq, hqname⟩ := List.mem_map.1 hagain
    have hq' : q.1 ∈ addressed env done := h.entries ▸ List.mem_map_of_mem hq
    have hnotin := (of_decide_eq_true (List.mem_filter.1 hcached).2).2
    exact hnotin q.1 hq' (hqname.trans (of_decide_eq_true heq).symm)
  rw [takeNode_fst, hnone]
  rfl

/-- The node of an interface that is shown for the first time holds its MAC address: the link level entry came
before, and no address since. -/
theorem MacProcessed.taken_first {done after : List Ifaddrs} {shown : List (Ifaddrs × WStr)}
    {link : Ifaddrs} {mac : MbStr} (h : MacProcessed env o ifAddrs done cache shown ws)
    (hall : ifAddrs = done ++ ifa :: after) (hfirst : LinkFirst env ifAddrs) (hother : linkLevel env ifa = false)
    (hnew : ifa.name ∉ shown.map fun q => q.1.name) (hmem : link ∈ ifAddrs) (hlevel : linkLevel env link = true)
    (hname : link.name = ifa.name) (hmac : HasMac o link.name mac) :
    (takeNode ifa.name cache).1 = some (some mac) := by
  have hdone : link ∈ done := by
    rw [hall, List.mem_append, List.mem_cons] at hmem
    rcases hmem with hdone | rfl | hafter
    · exact hdone
    · rw [hother] at hlevel
      cases hlevel
    · exact absurd hname (hfirst.first done ifa after hall hother link hafter hlevel)
  have hcached : link ∈ unaddressed env done := by
    refine List.mem_filter.2 ⟨hdone, decide_eq_true ⟨hlevel, fun other hother' heq => hnew ?_⟩⟩
    rw [← h.entries] at hother'
    obtain ⟨q, hq, rfl⟩ := List.mem_map.1 hother'
    exact List.mem_map.2 ⟨q, hq, heq.trans hname⟩
  obtain ⟨node, hnode, rfl⟩ : ∃ node ∈ cache, node.ifaddr = link := by
    rw [← List.mem_reverse, ← h.cached] at hcached
    exact List.mem_map.1 hcached
  rw [takeNode_fst]
  rcases hfind : cache.find? (fun node => node.ifaddr.name = ifa.name) with _ | found
  · exact absurd (decide_eq_true hname) (List.find?_eq_none.1 hfind node hnode)
  · have hfound : found.ifaddr.name = ifa.name := by simpa using List.find?_some hfind
    rw [hname, ← hfound] at hmac
    rw [hfind, Option.map_some, h.macs found (List.mem_of_find?_eq_some hfind) mac hmac]

/-- **A round of the main loop.** -/
theorem showNetworkEntry_mac {done after : List Ifaddrs} {shown : List (Ifaddrs × WStr)}
    (hall : ifAddrs = done ++ ifa :: after) (hfirst : LinkFirst env ifAddrs)
    (hmemory : ∀ n, o n Call.alloc = true) (hdone : MacProcessed env o ifAddrs done cache shown ws) :
    Prog.Runs o (fun cache' ws' => ∃ shown', MacProcessed env o ifAddrs (done ++ [ifa]) cache' shown' (ws ++ ws'))
      (Stops env o ifAddrs) (showNetworkEntry env cache ifa) := by
  have hmem : ifa ∈ ifAddrs := by rw [hall]; simp
  obtain ⟨addr, haddr⟩ := Option.ne_none_iff_exists'.1 (hfirst.address ifa hmem)
  unfold showNetworkEntry
  simp only [haddr]
  by_cases hlink : (addr.family : Int) = env.build.value "AF_PACKET"
  · -- the MAC address goes to the cache
    rw [if_pos hlink]
    refine (runs_getMacAddress_mac _).bind fun macAddress ws₁ hmac => ?_
    obtain ⟨rfl, hfetched, hmac⟩ := hmac
    refine (runs_assertAlloc fun hrefused => Or.inl ⟨rfl, hrefused⟩).bind fun _ ws₂ hws₂ => Prog.Runs.ret ?_
    subst hws₂
    obtain ⟨hcache', hshown⟩ :=
      hdone.toCacheOf.link hall hfirst (by simpa [linkLevel, haddr] using hlink) haddr hfetched
    refine ⟨shown, hcache', ?_, ?_, ?_, hdone.first⟩
    · rintro node (_ | ⟨_, hnode⟩)
      · exact hmac
      · exact hdone.macs node hnode
    · simpa using hdone.displayed
    · rw [hshown]
      exact hdone.entries
  · -- and from there to the first address
    rw [if_neg hlink]
    have hother : linkLevel env ifa = false := by simpa [linkLevel, haddr] using hlink
    obtain ⟨hcache', hshown⟩ := hdone.toCacheOf.other hall hfirst hother
    have hsub := @takeNode_subset cache ifa.name
    have htaken := hdone.toCacheOf.taken ifa.name
    have hagain : ifa.name ∈ shown.map (fun q => q.1.name) → (takeNode ifa.name cache).1 = none :=
      hdone.taken_again
    have hnew : ifa.name ∉ shown.map (fun q => q.1.name) → ∀ link ∈ ifAddrs, linkLevel env link = true →
        link.name = ifa.name → ∀ mac, HasMac o link.name mac → (takeNode ifa.name cache).1 = some (some mac) :=
      fun h link hlink hlevel hname mac => hdone.taken_first hall hfirst hother h hlink hlevel hname
    generalize takeNode ifa.name cache = taken at hcache' hsub htaken hagain hnew ⊢
    obtain ⟨mac, cache'⟩ := taken
    refine Prog.Runs.bind (runs_strdup hmemory (mac.getD none)) fun copied ws₁ hcopied => ?_
    obtain ⟨rfl, rfl⟩ := hcopied
    refine (runs_showNetworkIf_mac hdone.displayed hmem haddr htaken).bind fun _ ws₂ hws₂ => Prog.Runs.ret ?_
    obtain ⟨v, hv, hdisplayed⟩ := hws₂
    refine ⟨shown ++ [(ifa, v)], hcache', fun node hnode => hdone.macs node (hsub hnode),
      by simpa using hdisplayed, ?_, ?_⟩
    · rw [hshown, List.map_append, hdone.entries]
      rfl
    refine hdone.first.concat (fun h => ?_) fun h link hlink hlevel hname m hm => ?_
    · obtain rfl : mac = none := hagain h
      exact (Option.some.inj hv).symm
    · obtain rfl : mac = some (some m) := hnew h link hlink hlevel hname m hm
      exact hv

/-- What is left in the cache is shown in the end. -/
theorem runs_cache_mac {shown : List (Ifaddrs × WStr)} (hshown : DisplaysMac env o shown ws)
    (hcache : ∀ node ∈ cache, node.ifaddr ∈ ifAddrs ∧ node.ifaddr.addr = some node.addr ∧
      Fetched o node.ifaddr.name node.macAddress) :
    Prog.Runs o (fun _ ws' => ∃ rest, DisplaysMac env o (shown ++ rest) (ws ++ ws') ∧
        rest.map Prod.fst = cache.map NetworkMap.ifaddr) (Stops env o ifAddrs)
      (cache.forM fun node => showNetworkIf env node.ifaddr node.addr node.macAddress) := by
  induction cache generalizing shown ws with
  | nil =>
    refine Prog.Runs.ret ⟨[], ?_, rfl⟩
    rw [List.append_nil, List.append_nil]
    exact hshown
  | cons node cache ih =>
    obtain ⟨hmem, haddr, hmac⟩ := hcache node List.mem_cons_self
    refine (runs_showNetworkIf_mac hshown hmem haddr hmac).bind fun _ ws₁ hws₁ => ?_
    obtain ⟨v, -, hws₁⟩ := hws₁
    refine (ih hws₁ fun other hother => hcache other (List.mem_cons_of_mem _ hother)).mono fun _ ws₂ hws₂ => ?_
    obtain ⟨rest, hrest, hentries⟩ := hws₂
    refine ⟨(node.ifaddr, v) :: rest, ?_, ?_⟩
    · rw [List.append_assoc, List.append_assoc] at hrest
      exact hrest
    · rw [List.map_cons, List.map_cons, hentries]

/-- The interfaces, from the list of their entries on. -/
theorem runs_showInterfaces_mac (hfirst : LinkFirst env ifAddrs) (hmemory : ∀ n, o n Call.alloc = true) :
    Prog.Runs o (fun _ es => ∃ shown rest ws, es = ws ++ [.sectionClose] ∧ DisplaysMac env o (shown ++ rest) ws ∧
        shown.map Prod.fst = addressed env ifAddrs ∧ rest.map Prod.fst = (unaddressed env ifAddrs).reverse ∧
          MacFirst env o ifAddrs shown) (Stops env o ifAddrs) (showInterfaces env ifAddrs) := by
  unfold showInterfaces
  refine (runs_assertAlloc fun hrefused => Or.inl ⟨rfl, hrefused⟩).bind fun _ ws hws => ?_
  subst hws
  have hstart : MacProcessed env o ifAddrs [] [] [] [] :=
    ⟨⟨rfl, by simp, by simp⟩, by simp, .nil, rfl, fun before p after hsplit => by simp at hsplit⟩
  have hloop := @Prog.Runs.foldlM Call Event Halt _ _ o (Stops env o ifAddrs) (showNetworkEntry env)
    (fun done cache ws => ∃ shown, MacProcessed env o ifAddrs done cache shown ws) ifAddrs [] [] [] ⟨[], hstart⟩
      fun first ifa rest cache ws hall hdone => by
        obtain ⟨shown, hdone⟩ := hdone
        exact showNetworkEntry_mac hall hfirst hmemory hdone
  refine hloop.bind fun cache ws hdone => ?_
  simp only [List.nil_append] at hdone ⊢
  obtain ⟨shown, hdone⟩ := hdone
  refine (runs_cache_mac hdone.displayed fun _ => hdone.toCacheOf.mem).bind fun _ ws' hws' => ?_
  obtain ⟨rest, hrest, hentries⟩ := hws'
  intro n
  refine ⟨shown, rest, ws ++ ws', by simp, hrest, hdone.entries, ?_, hdone.first⟩
  rw [hentries, hdone.cached]

/-- **The first address has the MAC address, so every address has it if there is no second.** -/
theorem macReaches_iff {shown rest : List (Ifaddrs × WStr)}
    (hentries : shown.map Prod.fst = addressed env ifAddrs)
    (hrest : rest.map Prod.fst = (unaddressed env ifAddrs).reverse) (hmac : MacFirst env o ifAddrs shown)
    (hna : ∀ mac, env.locale.mbsrtowcs mac = some naStr → mac = bytes "n/a") :
    MacReaches env o ifAddrs (shown ++ rest) ↔ ∀ link ∈ ifAddrs, linkLevel env link = true →
      ∀ mac, HasMac o link.name mac → ((addressed env ifAddrs).map Ifaddrs.name).count link.name ≤ 1 := by
  have hnames : (addressed env ifAddrs).map Ifaddrs.name = shown.map fun q => q.1.name := by
    rw [← hentries, List.map_map]
    rfl
  rw [hnames]
  constructor
  · intro hreach link hlink hlevel mac hm
    by_contra hcount
    -- the last entry with the name is not the first
    obtain ⟨p, hp, hpname⟩ : ∃ p ∈ shown, p.1.name = link.name := by
      have hpos : 0 < (shown.map fun q => q.1.name).count link.name := by omega
      exact List.mem_map.1 (List.count_pos_iff.1 hpos)
    obtain ⟨before, p, after, hsplit, hname, hbefore⟩ : ∃ before p after, shown = before ++ p :: after ∧
        p.1.name = link.name ∧ link.name ∈ before.map fun q => q.1.name := by
      obtain ⟨l, r, rfl⟩ := List.append_of_mem hp
      by_cases hl : link.name ∈ l.map fun q => q.1.name
      · exact ⟨l, p, r, rfl, hpname, hl⟩
      · have hr : link.name ∈ r.map fun q => q.1.name := by
          rw [List.map_append, List.map_cons, List.count_append, List.count_eq_zero_of_not_mem hl, hpname,
            List.count_cons_self] at hcount
          refine List.count_pos_iff.1 ?_
          omega
        obtain ⟨q, hq, hqname⟩ := List.mem_map.1 hr
        obtain ⟨l', r', rfl⟩ := List.append_of_mem hq
        refine ⟨l ++ p :: l', q, r', by simp, hqname, ?_⟩
        rw [List.map_append, List.map_cons, hpname]
        simp
    have hother : linkLevel env p.1 = false := by
      have hmem : p.1 ∈ addressed env ifAddrs := by
        rw [← hentries, hsplit]
        simp
      simpa using (List.mem_filter.1 hmem).2
    have hvalue : p.2 = naStr := (hmac before p after hsplit).1 (hname ▸ hbefore)
    have hshown := hreach p (by simp [hsplit]) hother link hlink hlevel hname.symm mac hm
    rw [hvalue] at hshown
    exact hm.ne (hna mac hshown)
  · intro hcount p hp hother link hlink hlevel hname mac hm
    rcases List.mem_append.1 hp with hp | hp
    · obtain ⟨before, after, rfl⟩ := List.append_of_mem hp
      refine (hmac before p after rfl).2 (fun hbefore => ?_) link hlink hlevel hname mac hm
      have htwo := hcount link hlink hlevel mac hm
      have hone : 0 < (before.map fun q => q.1.name).count p.1.name := List.count_pos_iff.2 hbefore
      rw [hname, List.map_append, List.map_cons, List.count_append, List.count_cons_self] at htwo
      omega
    · -- what is shown in the end is of the link level
      have hmem : p.1 ∈ unaddressed env ifAddrs := by
        rw [← List.mem_reverse, ← hrest]
        exact List.mem_map_of_mem hp
      have hlevel' := (of_decide_eq_true (List.mem_filter.1 hmem).2).1
      rw [hother] at hlevel'
      cases hlevel'

/-- A run of `show_network`, with the entries that it shows. -/
theorem showNetworkAt_mac {n : Nat} (ho : o n .getifaddrs = some ifAddrs) (hfirst : LinkFirst env ifAddrs)
    (hmemory : ∀ n, o n Call.alloc = true) :
    Prog.Leaves (fun _ es => ∃ shown rest ws, es = .sectionOpen (bytes "network") :: ws ++ [.sectionClose] ∧
        DisplaysMac env o (shown ++ rest) ws ∧ shown.map Prod.fst = addressed env ifAddrs ∧
          rest.map Prod.fst = (unaddressed env ifAddrs).reverse ∧ MacFirst env o ifAddrs shown)
      (Stops env o ifAddrs) ((showNetworkAt env).run o n) := by
  rw [showNetworkAt_sim.run_eq, run_showNetwork, ho]
  have hrun := runs_showInterfaces_mac hfirst hmemory (n + 1)
  change Prog.Leaves _ _ (((showInterfaces env ifAddrs).run o (n + 1)).map _)
  rcases hr : (showInterfaces env ifAddrs).run o (n + 1) with e | ⟨⟨⟩, es, n'⟩ <;> rw [hr] at hrun
  · exact hrun
  · obtain ⟨shown, rest, ws, rfl, hshown⟩ := hrun
    exact ⟨shown, rest, ws, rfl, hshown⟩

/-- **Every address of an interface is shown with its MAC address exactly when no interface with a MAC address has
two.** The entries are shown in the order of the list, the first with the MAC address from the cache. -/
theorem showNetworkAt_mac_iff {n : Nat} (ho : o n .getifaddrs = some ifAddrs) (hfirst : LinkFirst env ifAddrs)
    (hmemory : ∀ n, o n Call.alloc = true)
    (hna : ∀ mac, env.locale.mbsrtowcs mac = some naStr → mac = bytes "n/a") :
    Prog.Leaves (fun _ es => ∃ shown ws, es = .sectionOpen (bytes "network") :: ws ++ [.sectionClose] ∧
        DisplaysMac env o shown ws ∧
        shown.map Prod.fst = addressed env ifAddrs ++ (unaddressed env ifAddrs).reverse ∧
        (MacReaches env o ifAddrs shown ↔ ∀ link ∈ ifAddrs, linkLevel env link = true →
          ∀ mac, HasMac o link.name mac → ((addressed env ifAddrs).map Ifaddrs.name).count link.name ≤ 1))
      (Stops env o ifAddrs) ((showNetworkAt env).run o n) := by
  refine (showNetworkAt_mac ho hfirst hmemory).mono fun _ es hrun => ?_
  obtain ⟨shown, rest, ws, rfl, hshown, hentries, hrest, hmac⟩ := hrun
  refine ⟨shown ++ rest, ws, rfl, hshown, ?_, macReaches_iff hentries hrest hmac hna⟩
  rw [List.map_append, hentries, hrest]

/-- An interface with two addresses. -/
def twoAddresses : List Ifaddrs :=
  let entry (family : Nat) : Ifaddrs := ⟨bytes "eth0", 0, some ⟨family, []⟩, none, none, none⟩
  [entry 17, entry 2, entry 2]

/-- A system with it, and with memory. -/
def etherOracle : Prog.Oracle Call := fun _ β c => match β, c with
  | _, .getifaddrs => some twoAddresses
  | _, .ioctlHwaddr _ => some [2, 0, 0, 0, 0, 1]
  | _, .alloc => true
  | _, .socket => true
  | _, c => c.answer

theorem twoAddresses_linkFirst : LinkFirst linuxNetwork twoAddresses where
  address := by simp [twoAddresses]
  once := by decide
  first := by
    intro before ifa after hsplit hlevel link hlink hlevel'
    have htail : after <:+ [(⟨bytes "eth0", 0, some ⟨2, []⟩, none, none, none⟩ : Ifaddrs),
        ⟨bytes "eth0", 0, some ⟨2, []⟩, none, none, none⟩] := by
      rcases before with _ | ⟨first, before⟩
      · obtain ⟨-, rfl⟩ := List.cons.inj hsplit
        exact List.suffix_refl _
      · obtain ⟨-, hrest⟩ := List.cons.inj hsplit
        exact ⟨before ++ [ifa], by rw [List.append_assoc]; exact hrest.symm⟩
    have hmem := htail.subset hlink
    simp only [List.mem_cons, List.not_mem_nil, or_false, or_self] at hmem
    subst hmem
    exact absurd hlevel' (by decide)

theorem showNetworkAt_mac_iff_two :
    Prog.Leaves (fun _ es => ∃ shown ws, es = .sectionOpen (bytes "network") :: ws ++ [.sectionClose] ∧
        DisplaysMac linuxNetwork etherOracle shown ws ∧
        shown.map Prod.fst = addressed linuxNetwork twoAddresses ++
          (unaddressed linuxNetwork twoAddresses).reverse ∧
        (MacReaches linuxNetwork etherOracle twoAddresses shown ↔ ∀ link ∈ twoAddresses,
          linkLevel linuxNetwork link = true → ∀ mac, HasMac etherOracle link.name mac →
            ((addressed linuxNetwork twoAddresses).map Ifaddrs.name).count link.name ≤ 1))
      (Stops linuxNetwork etherOracle twoAddresses) ((showNetworkAt linuxNetwork).run etherOracle 0) :=
  showNetworkAt_mac_iff rfl twoAddresses_linkFirst (fun _ => rfl) fun _ h => posixLocale_injective h (by decide)

/-- **The second address is shown without it.** -/
theorem showNetworkAt_mac_lost : LinkFirst linuxNetwork twoAddresses ∧ ∃ shown ws n,
    (showNetworkAt linuxNetwork).run etherOracle 0 =
      .ok ((), .sectionOpen (bytes "network") :: ws ++ [.sectionClose], n) ∧
    DisplaysMac linuxNetwork etherOracle shown ws ∧ ¬ MacReaches linuxNetwork etherOracle twoAddresses shown := by
  refine ⟨twoAddresses_linkFirst, ?_⟩
  have hok : ((showNetworkAt linuxNetwork).run etherOracle 0).isOk = true := by decide +kernel
  have hrun := @showNetworkAt_mac linuxNetwork etherOracle twoAddresses 0 rfl twoAddresses_linkFirst fun _ => rfl
  rcases hr : (showNetworkAt linuxNetwork).run etherOracle 0 with e | ⟨⟨⟩, es, n'⟩
  · rw [hr] at hok
    cases hok
  · rw [hr] at hrun
    obtain ⟨shown, rest, ws, rfl, hshown, hentries, hrest, hmac⟩ := hrun
    refine ⟨shown ++ rest, ws, n', rfl, hshown, fun hreach => ?_⟩
    have hcount := (macReaches_iff hentries hrest hmac fun _ h => posixLocale_injective h (by decide)).1 hreach
    have heth : HasMac etherOracle (bytes "eth0") (bytes "02:00:00:00:00:01") := fun n => ⟨n + 3, rfl⟩
    exact absurd (hcount _ List.mem_cons_self (by decide) _ heth) (by decide)

end Procenv
