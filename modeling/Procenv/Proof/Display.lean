import Procenv.Proof.MainIndent
import Procenv.Proof.Platform

/-!
# The display routines close what they open

One lemma for each display routine: whatever the system answers, it leaves the stack of
the open groups as it found it (`Keeps nestJson`). The exception is `show_network`, which
returns from under its header if the list of interfaces cannot be had.

* `showRoutine_keeps`: every other routine keeps the stack.
* `showRoutine_balanced_iff`: **a routine's calls are balanced in every run**, unless it is
  `show_network` and `getifaddrs` fails.
* `showRoutine_wellNested`: the balanced ones are what the results on whole runs of `main`
  ask of a routine.
-/

namespace Procenv.Show

open Text Interact Interact.Prog

variable {env : Env} {S : List Group}

/-! ## The program and its build -/

theorem showMeta_keeps (h : inArray S = false) : Keeps nestJson (showMeta env) S := by
  unfold Keeps showMeta
  simp [h]

theorem showArgument_keeps (arg : MbStr) (i : Nat) (h : inArray S = true) :
    Keeps nestJson (showArgument env arg i) S := by
  unfold Keeps showArgument
  simp [h]

theorem showArguments_keeps (h : inArray S = false) : Keeps nestJson (showArguments env) S := by
  have hloop (args : List (MbStr × Nat)) (name : MbStr) (T : List Group) :
      Keeps nestJson (forM args fun x => showArgument env x.1 x.2) (.cont name :: T) :=
    Keeps.forM fun x _ => showArgument_keeps x.1 x.2 rfl
  unfold Keeps showArguments
  simp [h, hloop]

@[simp] theorem showBuildMacro_keeps (name const : String) (h : inArray S = false) :
    Keeps nestJson (showBuildMacro env name const) S := by
  unfold Keeps showBuildMacro
  simp [h]

theorem showFeatureTestMacro_keeps (const : String) (hasValue : Bool) (h : inArray S = false) :
    Keeps nestJson (showFeatureTestMacro env const hasValue) S := by
  unfold Keeps showFeatureTestMacro
  simp [h]

theorem showCompiler_keeps (h : inArray S = false) : Keeps nestJson (showCompiler env) S := by
  have hstamp (name : MbStr) : Keeps nestJson (ifdef env "__TIMESTAMP__"
      (showBuildMacro env "timestamp (__TIMESTAMP__)" "__TIMESTAMP__")) (.sect name :: S) :=
    ifdef_keeps _ (showBuildMacro_keeps _ _ rfl)
  have hmacros (name : MbStr) (T : List Group) : Keeps nestJson
      (forM Tables.featureTestMacros fun e => showFeatureTestMacro env e.1 e.2) (.sect name :: T) :=
    Keeps.forM fun e _ => showFeatureTestMacro_keeps e.1 e.2 rfl
  unfold Keeps showCompiler
  simp [h, hstamp, hmacros]

theorem showLibc_keeps (h : inArray S = false) : Keeps nestJson (showLibc env) S := by
  unfold Keeps showLibc
  simp [h]

theorem showSizeofType_keeps (type : String) (h : inArray S = false) :
    Keeps nestJson (showSizeofType env type) S := by
  unfold Keeps showSizeofType
  simp [h]

@[simp] theorem showSize_keeps (type : String) (h : inArray S = false) :
    Keeps nestJson (showSize env type) S := by
  unfold Keeps showSize
  simp [h]

theorem showSizeof_keeps (h : inArray S = false) : Keeps nestJson (showSizeof env) S := by
  have hloop (name : MbStr) : Keeps nestJson (forM Tables.sizeofTypes (showSizeofType env)) (.sect name :: S) :=
    Keeps.forM fun type _ => showSizeofType_keeps type rfl
  unfold Keeps showSizeof
  simp [h, hloop]

@[simp] theorem showIntRange_keeps (type unsignedMax min max : String) (bits : Nat) (h : inArray S = false) :
    Keeps nestJson (showIntRange env type unsignedMax min max bits) S := by
  unfold Keeps showIntRange
  simp [h]

@[simp] theorem showFloatRange_keeps (type min max : String) (h : inArray S = false) :
    Keeps nestJson (showFloatRange env type min max) S := by
  unfold Keeps showFloatRange
  simp [h]

theorem showRanges_keeps (h : inArray S = false) : Keeps nestJson (showRanges env) S := by
  unfold Keeps showRanges
  simp [h]

/-! ## The system -/

@[simp] theorem showPriorities_keeps (h : inArray S = false) : Keeps nestJson (showPriorities env) S := by
  unfold Keeps showPriorities
  simp [h]

theorem showCpu_keeps (h : inArray S = false) : Keeps nestJson (showCpu env) S := by
  unfold Keeps showCpu
  simp [h]

theorem showMemory_keeps (h : inArray S = false) : Keeps nestJson (showMemory env) S := by
  unfold Keeps showMemory
  simp [h]

@[simp] theorem showDataModel_keeps (h : inArray S = false) : Keeps nestJson (showDataModel env) S := by
  unfold Keeps showDataModel
  simp [h]

@[simp] theorem getKernelBitsGeneric_keeps : Keeps nestJson (getKernelBitsGeneric env) S := by
  simp [Keeps, getKernelBitsGeneric]

theorem showPlatform_keeps (h : inArray S = false) : Keeps nestJson (showPlatform env) S := by
  unfold Keeps showPlatform
  simp [h]

theorem showSysconfName_keeps (name : String) (h : inArray S = false) :
    Keeps nestJson (showSysconfName name) S := by
  unfold Keeps showSysconfName
  simp [h]

theorem showSysconf_keeps (h : inArray S = false) : Keeps nestJson (showSysconf env) S := by
  have hloop (name : MbStr) : Keeps nestJson
      (forM Tables.sysconfMap fun name => ifdef env name (showSysconfName name)) (.sect name :: S) :=
    Keeps.forM fun name _ => ifdef_keeps name (showSysconfName_keeps name rfl)
  unfold Keeps showSysconf
  simp [h, hloop]

theorem showDomainname_keeps (h : inArray S = false) : Keeps nestJson (showDomainname env) S := by
  unfold Keeps showDomainname
  simp [h]

theorem showUname_keeps (h : inArray S = false) : Keeps nestJson (showUname env) S := by
  have hdomain (name : MbStr) : Keeps nestJson (ifdef env "_GNU_SOURCE" (showDomainname env)) (.sect name :: S) :=
    ifdef_keeps _ (showDomainname_keeps rfl)
  unfold Keeps showUname
  simp [h, hdomain]

theorem showTime_keeps (h : inArray S = false) : Keeps nestJson (showTime env) S := by
  unfold Keeps showTime
  simp [h, Option.forall]

theorem showThreads_keeps (h : inArray S = false) : Keeps nestJson (showThreads env) S := by
  unfold Keeps showThreads
  simp [h, Option.forall]

/-! ## The process -/

@[simp] theorem allocOrDie_keeps (message : String) : Keeps nestJson (allocOrDie message) S := by
  simp [Keeps, allocOrDie]

theorem showEnvVar_keeps (var : MbStr) (h : inArray S = false) : Keeps nestJson (showEnvVar env var) S := by
  unfold showEnvVar
  split
  · trivial
  · unfold Keeps
    simp [h]

theorem showEnv_keeps (h : inArray S = false) : Keeps nestJson (showEnv env) S := by
  have halloc (vars : List MbStr) (name : MbStr) :
      Keeps nestJson (forM vars fun _ => allocOrDie "failed to allocate storage") (.sect name :: S) :=
    Keeps.forM fun _ _ => allocOrDie_keeps _
  have hloop (vars : List MbStr) (name : MbStr) : Keeps nestJson (forM vars (showEnvVar env)) (.sect name :: S) :=
    Keeps.forM fun var _ => showEnvVar_keeps var rfl
  unfold Keeps showEnv
  simp [h, halloc, hloop]

theorem showLocaleCategory_keeps (category : String) (h : inArray S = false) :
    Keeps nestJson (showLocaleCategory env category) S := by
  unfold Keeps showLocaleCategory
  simp [h]

theorem showLocale_keeps (h : inArray S = false) : Keeps nestJson (showLocale env) S := by
  have hloop (m : List (String × Int)) (name : MbStr) :
      Keeps nestJson (forM m fun x => showLocaleCategory env x.1) (.sect name :: S) :=
    Keeps.forM fun x _ => showLocaleCategory_keeps x.1 rfl
  unfold Keeps showLocale
  simp [h, hloop]

@[simp] theorem inChroot_keeps : Keeps nestJson inChroot S := by
  simp [Keeps, inChroot, Option.forall]

@[simp] theorem containerType_keeps : Keeps nestJson containerType S := by
  simp [Keeps, containerType, Option.forall]

theorem showHeadersVersion_keeps (h : inArray S = false) : Keeps nestJson (showHeadersVersion env) S := by
  unfold Keeps showHeadersVersion
  simp [h]

theorem showMisc_keeps (h : inArray S = false) : Keeps nestJson (showMisc env) S := by
  have hheaders (name : MbStr) :
      Keeps nestJson (ifdef env "LINUX_VERSION_CODE" (showHeadersVersion env)) (.sect name :: S) :=
    ifdef_keeps _ (showHeadersVersion_keeps rfl)
  unfold Keeps showMisc
  simp [h, hheaders]

theorem groupText_keeps (gid : Int) : Keeps nestJson (groupText gid) S := by
  simp [Keeps, groupText]

@[simp] theorem showAllGroups_keeps (h : inArray S = false) : Keeps nestJson (showAllGroups env) S := by
  refine (allocOrDie_keeps _).bind fun _ => (call_keeps Call.getgroups).bind fun groups => ?_
  cases groups with
  | none => trivial
  | some groups =>
    change Keeps nestJson (ite _ _ _) S
    split
    · unfold Keeps
      simp [h, Option.forall]
    · refine (allocOrDie_keeps _).bind fun _ => (Keeps.mapM fun gid _ => groupText_keeps gid).bind fun names => ?_
      unfold Keeps
      simp [h]

theorem showProc_keeps (h : inArray S = false) : Keeps nestJson (showProc env) S := by
  unfold Keeps showProc
  simp [h]

theorem showRusage_keeps (h : inArray S = false) : Keeps nestJson showRusage S := by
  unfold Keeps showRusage
  simp [h, Option.forall]

theorem showSignal_keeps (i : Nat) (h : inArray S = true) : Keeps nestJson (showSignal env i) S := by
  unfold Keeps showSignal
  simp [h, Option.forall]

theorem showSignals_keeps (h : inArray S = false) : Keeps nestJson (showSignals env) S := by
  have hloop (is : List Nat) (name : MbStr) (T : List Group) :
      Keeps nestJson (forM is (showSignal env)) (.cont name :: T) :=
    Keeps.forM fun i _ => showSignal_keeps i rfl
  unfold Keeps showSignals
  simp [h, hloop]

@[simp] theorem statTime_keeps (what : String) (t : Nat) : Keeps nestJson (statTime env what t) S := by
  unfold Keeps statTime
  simp [Option.forall]

@[simp] theorem searchPath_keeps (argv0 : MbStr) (isFirst : Bool) (elements : List MbStr) :
    Keeps nestJson (searchPath argv0 isFirst elements) S := by
  induction elements generalizing isFirst with
  | nil => exact rfl
  | cons element elements ih =>
    unfold Keeps at ih
    unfold Keeps searchPath
    simp [ih]

@[simp] theorem getPath_keeps (argv0 : MbStr) : Keeps nestJson (getPath env argv0) S := by
  unfold Keeps getPath
  simp [Option.forall]

theorem showStat_keeps (h : inArray S = false) : Keeps nestJson (showStat env) S := by
  refine (getPath_keeps _).bind fun path => ?_
  cases path with
  | none => trivial
  | some path =>
    unfold Keeps
    simp [h, Option.forall]

/-! ## Terminals -/

@[simp] theorem findTty_keeps (fds : List Int) : Keeps nestJson (findTty fds) S := by
  induction fds with
  | nil => exact rfl
  | cons fd fds ih =>
    unfold Keeps at ih
    unfold Keeps findTty
    simp [ih, Option.forall]

@[simp] theorem showConstsTty_keeps (flag locked : Nat) (consts : List MapEntry) (h : inArray S = false) :
    Keeps nestJson (showConstsTty env flag locked consts) S := by
  refine Keeps.forM fun e _ => ?_
  unfold Keeps
  simp [h]

@[simp] theorem showCcTty_keeps (tty locked : Termios) (h : inArray S = false) :
    Keeps nestJson (showCcTty env tty locked) S := by
  refine Keeps.forM fun e _ => ?_
  unfold Keeps
  simp [h]

@[simp] theorem showTtyFlags_keeps (name valueName : String) (flag locked : Nat) (consts : List MapEntry)
    (h : inArray S = false) : Keeps nestJson (showTtyFlags env name valueName flag locked consts) S := by
  unfold Keeps showTtyFlags
  simp [h]

/-- The attributes of a terminal end with the section that is open around them. -/
theorem ends_showTty (fd : Int) (tty : Termios) (name : MbStr) :
    (showTty env fd tty).Ends nestJson (fun _ T => T = S) (.sect name :: S) := by
  refine ends_bind.2 ((getTtyLockedStatusLinux_keeps fd).ends fun locked => ?_)
  simp [Option.forall]

theorem showTtyAttrs_keeps (h : inArray S = false) : Keeps nestJson (showTtyAttrs env) S := by
  refine ends_bind.2 (ends_header.2 ⟨h, ends_bind.2 ((findTty_keeps _).ends fun found => ?_)⟩)
  cases found with
  | none => exact ends_footer.2 rfl
  | some found => exact ends_showTty found.1 found.2 _

/-! ## The network -/

@[simp] theorem getMacAddress_keeps (name : MbStr) : Keeps nestJson (getMacAddress name) S := by
  unfold Keeps getMacAddress
  simp [Option.forall]

@[simp] theorem getMtuGeneric_keeps (name : MbStr) : Keeps nestJson (getMtuGeneric name) S := by
  simp [Keeps, getMtuGeneric]

@[simp] theorem getNetworkAddress_keeps (addr : Sockaddr) (family : Nat) :
    Keeps nestJson (getNetworkAddress env addr family) S := by
  unfold getNetworkAddress
  split
  · exact rfl
  · refine (call_keeps (Call.getnameinfo addr)).bind fun r => ?_
    cases r with
    | ok name => exact str_keeps name
    | error e => exact rfl

@[simp] theorem showBroadcast_keeps (ifa : Ifaddrs) (family : Nat) (h : inArray S = false) :
    Keeps nestJson (showBroadcast env ifa family) S := by
  unfold Keeps showBroadcast
  cases ifa.broadaddr <;> cases ifa.dstaddr <;> simp [h]

theorem showNetworkIf_keeps (ifa : Ifaddrs) (addr : Sockaddr) (macAddress : Option MbStr)
    (h : inArray S = false) :
    Keeps nestJson (showNetworkIf env ifa addr macAddress) S := by
  unfold Keeps showNetworkIf
  cases ifa.netmask <;> simp [h, showFlags_keeps]

theorem showNetworkEntry_keeps (cache : List NetworkMap) (ifa : Ifaddrs) (h : inArray S = false) :
    Keeps nestJson (showNetworkEntry env cache ifa) S := by
  unfold Keeps showNetworkEntry
  cases ifa.addr with
  | none => exact rfl
  | some addr =>
    simp only [ends_ite, ends_bind, ends_lift, ends_pure]
    split
    · exact (getMacAddress_keeps _).ends fun _ c => ends_assert.2 fun _ => rfl
    · have hcopied : Keeps nestJson (((takeNode ifa.name cache).1.getD none).elim (pure none) fun mac => do
          return if ← Call.alloc then some mac else none : Show (Option MbStr)) S := by
        cases (takeNode ifa.name cache).1.getD none <;> simp [Keeps]
      exact hcopied.ends fun mac => (showNetworkIf_keeps ifa addr mac h).ends fun _ => rfl

/-- With the list of interfaces, `show_network` closes its section. -/
theorem ends_showInterfaces (ifAddrs : List Ifaddrs) (name : MbStr) :
    (showInterfaces env ifAddrs).Ends nestJson (fun _ T => T = S) (.sect name :: S) := by
  have hentries : Keeps nestJson (ifAddrs.foldlM (showNetworkEntry env) []) (.sect name :: S) :=
    Keeps.foldlM fun cache ifa _ => showNetworkEntry_keeps cache ifa rfl
  have hrest (cache : List NetworkMap) : Keeps nestJson
      (cache.forM fun node => showNetworkIf env node.ifaddr node.addr node.macAddress) (.sect name :: S) :=
    Keeps.forM fun node _ => showNetworkIf_keeps _ _ _ rfl
  unfold showInterfaces
  simp only [ends_bind, ends_lift, ends_assert]
  exact fun _ _ => hentries.ends fun cache => (hrest cache).ends fun _ => ends_footer.2 rfl

/-! ## All routines -/

theorem showVersion_keeps (h : inArray S = false) : Keeps nestJson (showVersion env) S := by
  unfold Keeps showVersion
  simp [h]

/-- **Every routine but `show_network` keeps the stack.** -/
theorem showRoutine_keeps {r : Routine} (hr : r ≠ .showNetwork) (h : inArray S = false) :
    Keeps nestJson (showRoutine env r) S := by
  -- a routine opens its own section, or goes through one of the two wrappers
  cases r with
  | showMeta => exact showMeta_keeps h
  | showArguments => exact showArguments_keeps h
  | showCapabilities => exact underHeader_keeps _ h (showCapabilitiesLinux_keeps rfl)
  | showCgroups => exact underHeader_keeps _ h (showCgroupsLinux_keeps rfl)
  | showClocks => exact underHeader_keeps _ h (showClocksGeneric_keeps rfl)
  | showCompiler => exact showCompiler_keeps h
  | showConfstrs => exact underHeader_keeps _ h (showConfstrsGeneric_keeps rfl)
  | showCpu => exact showCpu_keeps h
  | showEnv => exact showEnv_keeps h
  | showFds => exact underContainer_keeps _ h (showFdsLinux_keeps rfl)
  | showLibc => exact showLibc_keeps h
  | showLibs => exact underContainer_keeps _ h (showLibsGeneric_keeps rfl)
  | showRlimits => exact underHeader_keeps _ h (showRlimitsLinux_keeps rfl)
  | showLocale => exact showLocale_keeps h
  | showMemory => exact showMemory_keeps h
  | showMsgQueues => exact underHeader_keeps _ h (showMsgQueuesLinux_keeps rfl)
  | showMisc => exact showMisc_keeps h
  | showMounts what => exact underHeader_keeps _ h (showMountsGenericLinux_keeps what rfl)
  | showNamespaces => exact underContainer_keeps _ h (showNamespacesLinux_keeps rfl)
  | showNetwork => exact absurd rfl hr
  | showOom => exact underHeader_keeps _ h (showOomLinux_keeps rfl)
  | showPlatform => exact showPlatform_keeps h
  | showProc => exact showProc_keeps h
  | showRanges => exact showRanges_keeps h
  | showRusage => exact showRusage_keeps h
  | showSemaphores => exact underHeader_keeps _ h (showSemaphoresLinux_keeps rfl)
  | showSharedMem => exact underHeader_keeps _ h (showSharedMemLinux_keeps rfl)
  | showSignals => exact showSignals_keeps h
  | showSizeof => exact showSizeof_keeps h
  | showStat => exact showStat_keeps h
  | showSysconf => exact showSysconf_keeps h
  | showThreads => exact showThreads_keeps h
  | showTime => exact showTime_keeps h
  | showTimezone => exact underHeader_keeps _ h (showTimezoneGeneric_keeps rfl)
  | showTtyAttrs => exact showTtyAttrs_keeps h
  | showUname => exact showUname_keeps h
  | showVersion => exact showVersion_keeps h

section Runs

variable {o : Oracle Call} {n n' : Nat} {es : List Event}

/-- A run of `show_network` goes on under its header as `getifaddrs` answers. -/
theorem run_showNetwork :
    (showNetwork env).run o n =
      (((o n .getifaddrs).elim (pure ()) (showInterfaces env)).run o (n + 1)).map
        fun (a, ws, n') => (a, .sectionOpen (bytes "network") :: ws, n') := by
  unfold showNetwork
  rw [run_bind]
  change Except.map _ _ = _
  rw [run_bind, run_lift]
  cases o n .getifaddrs with
  | none => rfl
  | some ifAddrs =>
    change Except.map _ (Except.map _ ((showInterfaces env ifAddrs).run o (n + 1))) =
      Except.map _ ((showInterfaces env ifAddrs).run o (n + 1))
    cases (showInterfaces env ifAddrs).run o (n + 1) <;> rfl

/-- Without a list of interfaces it leaves its section open. -/
theorem run_showNetwork_none (ho : o n .getifaddrs = none)
    (hrun : (showNetwork env).run o n = .ok ((), es, n')) : es = [.sectionOpen (bytes "network")] := by
  rw [run_showNetwork, ho] at hrun
  obtain ⟨-, h, -⟩ : () = () ∧ [.sectionOpen (bytes "network")] = es ∧ n + 1 = n' := by
    simpa [Except.map] using hrun
  exact h.symm

theorem run_showNetwork_some {ifAddrs : List Ifaddrs} (ho : o n .getifaddrs = some ifAddrs)
    (hrun : (showNetwork env).run o n = .ok ((), es, n')) : es.foldlM nestJson [] = some [] := by
  rw [run_showNetwork, ho] at hrun
  cases h : (showInterfaces env ifAddrs).run o (n + 1) with
  | error e => simp [h, Except.map] at hrun
  | ok r =>
    obtain ⟨rfl, -⟩ : .sectionOpen (bytes "network") :: r.2.1 = es ∧ r.2.2 = n' := by
      simpa [h, Except.map] using hrun
    obtain ⟨T, hT, rfl⟩ := (ends_showInterfaces (S := []) ifAddrs (bytes "network")).run h
    rw [List.foldlM_cons]
    exact hT

theorem run_balanced {r : Routine} (h : ¬ (r = .showNetwork ∧ o n .getifaddrs = none))
    (hrun : (showRoutine env r).run o n = .ok ((), es, n')) : Balanced es := by
  refine balanced_of_nestJson ?_
  by_cases hr : r = .showNetwork
  · subst hr
    obtain ⟨ifAddrs, ho⟩ := Option.ne_none_iff_exists'.1 fun ho => h ⟨rfl, ho⟩
    exact run_showNetwork_some ho hrun
  · obtain ⟨T, hT, rfl⟩ := (showRoutine_keeps (S := []) hr rfl).run hrun
    exact hT

/-- A tree of JSON's grammar is well nested in every format. -/
theorem wellNested_events {c : Calls} (hfit : c.fits .json false) (fmt : OutputFormat) :
    WellNested fmt c.events := by
  by_cases hf : fmt = .json
  · exact ⟨c, hf ▸ hfit, if_pos hf⟩
  · exact ⟨c.spliceObjects, c.fits_spliceObjects hf, by rw [if_neg hf, c.events_spliceObjects]⟩

/-- **A routine is well nested in every format**, as the results on whole runs of `main` ask. -/
theorem showRoutine_wellNested {r : Routine} (h : ¬ (r = .showNetwork ∧ o n .getifaddrs = none))
    (hrun : (showRoutine env r).run o n = .ok ((), es, n')) (fmt : OutputFormat) : WellNested fmt es := by
  obtain ⟨c, hfit, rfl⟩ := (run_balanced h hrun).json
  exact wellNested_events hfit fmt

/-- **The calls of a routine are balanced in every run that returns**, but those of `show_network` when
there is no list of interfaces. -/
theorem showRoutine_balanced_iff (env : Env) (r : Routine) (o : Oracle Call) (n n' : Nat) (es : List Event)
    (hrun : (showRoutine env r).run o n = .ok ((), es, n')) :
    Balanced es ↔ ¬ (r = .showNetwork ∧ o n .getifaddrs = none) := by
  constructor
  · rintro hbal ⟨rfl, ho⟩
    obtain rfl := run_showNetwork_none ho hrun
    simpa [nest] using hbal.groups []
  · intro h
    exact run_balanced h hrun

/-- A system without interfaces. -/
theorem showRoutine_balanced_no_interface :
    let o : Oracle Call := fun _ β c => match β, c with
      | _, .getifaddrs => some []
      | _, .alloc => true
      | _, c => c.answer
    (showRoutine default .showNetwork).run o 0 =
      .ok ((), [.sectionOpen (bytes "network"), .sectionClose], 2) ∧
    Balanced [.sectionOpen (bytes "network"), .sectionClose] := by
  intro o
  have hrun : (showRoutine default .showNetwork).run o 0 =
      .ok ((), [.sectionOpen (bytes "network"), .sectionClose], 2) := rfl
  exact ⟨hrun, (showRoutine_balanced_iff default .showNetwork o 0 2 _ hrun).2 (by simp [o])⟩

/-- Where the list of the interfaces cannot be had, the section of the network stays open. -/
theorem showNetwork_unbalanced :
    ∃ (env : Env) (o : Oracle Call) (es : List Event) (n : Nat), .showNetwork ∈ dumpRoutines ∧
      (showRoutine env .showNetwork).run o 0 = .ok ((), es, n) ∧
        es.foldlM nest [] = some [.sect (bytes "network")] ∧
      ¬ Balanced es :=
  ⟨default, fun _ _ c => c.answer, [.sectionOpen (bytes "network")], 1, by decide, rfl, rfl,
    fun h => by simpa [nest] using h.groups []⟩

end Runs

end Procenv.Show
