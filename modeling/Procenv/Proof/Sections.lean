import Procenv.Proof.Display

/-!
# A routine makes one group

What a display routine adds to the document is a single group: a section of its own name, or a container.
Nothing comes before its opening, and nothing is left to do after its closing.

* `Opens.run`: a routine that opens a group, and closes it last whatever was open before, makes one group.
* `showRoutine_opens`: every routine does so but `show_network`.
* `showRoutine_group`: **the calls of a run of a routine are its group**.
* `showRoutine_trace`: wherever a routine is stopped, it has made the first calls of its group.
* `dumpRoutines_groups`: the groups of `dump` have different names.
-/

namespace Procenv.Show

open Interact Interact.Prog

variable {env : Env} {g : Group} {α β : Type} {o : Oracle Call} {n n' : Nat} {es : List Event}

/-! ## Programs that make one group -/

/-- The first call opens `g`; where the program returns, what was open before is open again. -/
def Opens (g : Group) : Show Unit → Prop
  | .ret _ => False
  | .stop _ => True
  | .emit w k => w = g.opening ∧ ∀ S, k.Ends nestJson (fun _ T => T = S) (g :: S)
  | .ask _ k => ∀ b, Opens g (k b)

/-- The program makes no call of its own before it goes on. -/
abbrev Silent (m : Show α) (Q : α → Prop) : Prop := m.Ends (fun (_ : Unit) _ => none) (fun a _ => Q a) ()

/-- What is asked before the opening does not matter. -/
theorem Opens.bind {m : Show α} {f : α → Show Unit} (h : Silent m fun a => Opens g (f a)) :
    Opens g (m >>= f) := by
  change Opens g (m.bind f)
  induction m with
  | ret a => exact h
  | stop e => trivial
  | emit w k =>
    obtain ⟨t, ht, -⟩ := h
    cases ht
  | ask c k ih => exact fun b => ih b (h b)

theorem opens_header (name : String) {f : Unit → Show Unit}
    (h : ∀ S, (f ()).Ends nestJson (fun _ T => T = S) (.sect (bytes name) :: S)) :
    Opens (.sect (bytes name)) (header name >>= f) := ⟨rfl, h⟩

theorem opens_containerOpen (name : String) {f : Unit → Show Unit}
    (h : ∀ S, (f ()).Ends nestJson (fun _ T => T = S) (.cont (bytes name) :: S)) :
    Opens (.cont (bytes name)) (containerOpen name >>= f) := ⟨rfl, h⟩

/-- The calls of a tree are accepted where it fits. -/
theorem nestJson_events {S : List Group} {c : Calls} (h : c.fits .json (inArray S)) :
    c.events.foldlM nestJson S = some S := by
  induction c generalizing S with
  | nil => rfl
  | entry name value next ih =>
    simp only [Calls.fits, Bool.and_eq_true, Bool.not_eq_true'] at h
    rw [Calls.events, List.foldlM_cons]
    simpa [nestJson, nest, Event.allowed, h.1] using ih h.2
  | group g kids next ihk ihn =>
    obtain ⟨hg, hk, hn⟩ := fits_group h
    have hopen : nestJson S g.opening = some (g :: S) := by
      cases g <;> simp_all [nestJson, nest, Event.allowed, Group.opening, Group.isObject]
    have hclose : nestJson (g :: S) g.closing = some S := by
      cases g <;> simp [nestJson, nest, Event.allowed, Group.closing]
    have hkids : kids.events.foldlM nestJson (g :: S) = some (g :: S) := by
      apply ihk
      cases g <;> exact hk
    rw [Calls.events, List.foldlM_cons, hopen]
    change (kids.events ++ g.closing :: next.events).foldlM nestJson (g :: S) = _
    rw [List.foldlM_append, hkids]
    change (g.closing :: next.events).foldlM nestJson (g :: S) = _
    rw [List.foldlM_cons, hclose]
    exact ihn hn

theorem nestJson_closing (g : Group) (S : List Group) : nestJson (g :: S) g.closing = some S := by
  cases g <;> simp [nestJson, nest, Event.allowed, Group.closing]

theorem nestJson_closings (T : List Group) : (T.map Group.closing).foldlM nestJson T = some [] := by
  induction T with
  | nil => rfl
  | cons g T ih =>
    rw [List.map_cons, List.foldlM_cons, nestJson_closing]
    exact ih

/-- A closing is allowed everywhere. -/
theorem closing_allowed {T S : List Group} {e : Event} (he : e ∈ T.map Group.closing) : e.allowed S = true := by
  obtain ⟨g, -, rfl⟩ := List.mem_map.1 he
  cases g <;> rfl

/-- The first call of a tree outside of arrays is not allowed in one. -/
theorem first_not_allowed {c : Calls} {e : Event} {es : List Event} {S : List Group} (h : c.fits .json false)
    (hc : c.events = e :: es) (hS : inArray S = true) : e.allowed S = false := by
  cases c with
  | nil => cases hc
  | entry name value next =>
    obtain ⟨rfl, -⟩ := List.cons.inj hc
    simp [Event.allowed, hS]
  | group g kids next =>
    obtain ⟨hg, -, -⟩ := fits_group h
    obtain ⟨rfl, -⟩ := List.cons.inj hc
    cases g with
    | object => cases hg
    | sect name => simp [Group.opening, Event.allowed, hS]
    | cont name => simp [Group.opening, Event.allowed, hS]

/-- Calls that are accepted after a group has been opened in any surroundings are the first calls in the group:
with the closings of what is still open they are those of one tree. -/
theorem closes_first {T : List Group} (hT : es.foldlM nestJson [g] = some T)
    (h : ∀ S, ∃ T, es.foldlM nestJson (g :: S) = some T) :
    ∃ kids : Calls, kids.fits .json (g.isArray .json) ∧
      es ++ T.map Group.closing = kids.events ++ [g.closing] := by
  have hclosed : (es ++ T.map Group.closing).foldlM nestJson [g] = some [] := by
    rw [List.foldlM_append, hT]
    exact nestJson_closings T
  obtain ⟨kids, rest, hkids, hsplit, next, hnext, rfl⟩ := closes_of_nestJson hclosed
  refine ⟨kids, hkids, ?_⟩
  cases hevents : next.events with
  | nil => rw [hsplit, hevents]
  | cons e rest =>
    -- in an array only objects may follow, outside of one there are none
    have hrefused (S : List Group) (hS : inArray S = true) : e.allowed S = false :=
      first_not_allowed hnext hevents hS
    have hopen : e ∉ T.map Group.closing := fun he => by
      have hallowed := closing_allowed (S := [.cont []]) he
      rw [hrefused [.cont []] rfl] at hallowed
      cases hallowed
    rw [hevents, List.append_cons] at hsplit
    rcases List.append_eq_append_iff.1 hsplit with ⟨as, -, hclosings⟩ | ⟨bs, rfl, hrest⟩
    · exact absurd (by simp [hclosings]) hopen
    · cases bs with
      | nil => exact absurd (hrest ▸ List.mem_cons_self : e ∈ [] ++ T.map Group.closing) hopen
      | cons e' bs =>
        obtain ⟨rfl, -⟩ := List.cons.inj hrest
        obtain ⟨U, hU⟩ := h [.cont []]
        have hin : kids.events.foldlM nestJson [g, .cont []] = some [g, .cont []] := by
          apply nestJson_events
          cases g <;> exact hkids
        rw [List.append_assoc, List.foldlM_append, hin] at hU
        change (g.closing :: e :: bs).foldlM nestJson [g, .cont []] = _ at hU
        rw [List.foldlM_cons, nestJson_closing] at hU
        change (nestJson [.cont []] e).bind _ = _ at hU
        rw [nestJson, if_neg (by simp [hrefused])] at hU
        cases hU

/-- Calls that close a group in any surroundings do nothing after that. -/
theorem closes_one (h : ∀ S, es.foldlM nestJson (g :: S) = some S) :
    ∃ kids : Calls, kids.fits .json (g.isArray .json) ∧ es = kids.events ++ [g.closing] := by
  obtain ⟨kids, hkids, hes⟩ := closes_first (h []) fun S => ⟨S, h S⟩
  exact ⟨kids, hkids, by simpa using hes⟩

/-- **A program that opens a group makes that group and nothing else.** -/
theorem Opens.run {m : Show Unit} (h : Opens g m) (hrun : m.run o n = .ok ((), es, n')) :
    ∃ kids : Calls, kids.fits .json (g.isArray .json) ∧ es = (Calls.group g kids .nil).events := by
  induction m generalizing n with
  | ret a => exact h.elim
  | stop e => cases hrun
  | emit w k =>
    obtain ⟨rfl, hk⟩ := h
    rw [Prog.run] at hrun
    cases hrest : k.run o n with
    | error e =>
      rw [hrest] at hrun
      cases hrun
    | ok r =>
      rw [hrest] at hrun
      obtain ⟨hes, -⟩ := Prod.mk.inj (Prod.mk.inj (Except.ok.inj hrun)).2
      have hcloses : ∀ S, r.2.1.foldlM nestJson (g :: S) = some S := by
        intro S
        obtain ⟨T, hT, rfl⟩ := (hk S).run hrest
        exact hT
      obtain ⟨kids, hkids, hevents⟩ := closes_one hcloses
      exact ⟨kids, hkids, by rw [← hes, hevents]; rfl⟩
  | ask c k ih => exact ih _ (h _) hrun

/-- The calls are the first ones of a group: none at all, or with the closings of what is still open the whole
group. -/
def FirstCalls (g : Group) (es : List Event) : Prop :=
  es = [] ∨ ∃ (kids : Calls) (T : List Group), kids.fits .json (g.isArray .json) ∧
    es ++ T.map Group.closing = (Calls.group g kids .nil).events

theorem firstCalls_emit {k : Show Unit} {Q : List Group → List Group → Prop}
    (hk : ∀ S, k.Ends nestJson (fun _ T => Q S T) (g :: S)) (o : Oracle Call) (n : Nat) :
    FirstCalls g ((Prog.emit g.opening k).trace o n).1 := by
  obtain ⟨T, hT⟩ := (hk []).trace o n
  obtain ⟨kids, hkids, hes⟩ := closes_first hT fun S => (hk S).trace o n
  exact Or.inr ⟨kids, T, hkids, congrArg (g.opening :: ·) hes⟩

/-- **A program that opens a group makes the first calls of that group**, wherever it is stopped. -/
theorem Opens.trace {m : Show Unit} (h : Opens g m) (o : Oracle Call) (n : Nat) :
    FirstCalls g (m.trace o n).1 := by
  induction m generalizing n with
  | ret a => exact h.elim
  | stop e => exact Or.inl rfl
  | emit w k =>
    obtain ⟨rfl, hk⟩ := h
    exact firstCalls_emit hk o n
  | ask c k ih => exact ih _ (h _) (n + 1)

/-! ## The program and its build -/

theorem showMeta_opens : Opens (.sect (bytes "meta")) (showMeta env) := by
  refine opens_header "meta" fun S => ?_
  simp

theorem showArguments_opens : Opens (.sect (bytes "arguments")) (showArguments env) := by
  have hloop (args : List (MbStr × Nat)) (name : MbStr) (T : List Group) :
      Keeps nestJson (forM args fun x => showArgument env x.1 x.2) (.cont name :: T) :=
    Keeps.forM fun x _ => showArgument_keeps x.1 x.2 rfl
  refine opens_header "arguments" fun S => ?_
  simp [hloop]

theorem showCompiler_opens : Opens (.sect (bytes "compiler")) (showCompiler env) := by
  have hstamp (name : MbStr) (S : List Group) : Keeps nestJson (ifdef env "__TIMESTAMP__"
      (showBuildMacro env "timestamp (__TIMESTAMP__)" "__TIMESTAMP__")) (.sect name :: S) :=
    ifdef_keeps _ (showBuildMacro_keeps _ _ rfl)
  have hmacros (name : MbStr) (T : List Group) : Keeps nestJson
      (forM Tables.featureTestMacros fun e => showFeatureTestMacro env e.1 e.2) (.sect name :: T) :=
    Keeps.forM fun e _ => showFeatureTestMacro_keeps e.1 e.2 rfl
  refine opens_header "compiler" fun S => ?_
  simp [hstamp, hmacros]

theorem showLibc_opens : Opens (.sect (bytes "libc")) (showLibc env) := by
  refine opens_header "libc" fun S => ?_
  simp

theorem showSizeof_opens : Opens (.sect (bytes "sizeof")) (showSizeof env) := by
  have hloop (name : MbStr) (S : List Group) :
      Keeps nestJson (forM Tables.sizeofTypes (showSizeofType env)) (.sect name :: S) :=
    Keeps.forM fun type _ => showSizeofType_keeps type rfl
  refine opens_header "sizeof" fun S => ?_
  simp [hloop]

theorem showRanges_opens : Opens (.sect (bytes "ranges")) (showRanges env) := by
  refine opens_header "ranges" fun S => ?_
  simp

theorem showVersion_opens : Opens (.sect (bytes "version")) (showVersion env) := by
  refine opens_header "version" fun S => ?_
  simp

/-- What is shown under a header by another function. -/
theorem underHeader_opens (name : String) {m : Show Unit}
    (h : ∀ S, Keeps nestJson m (.sect (bytes name) :: S)) : Opens (.sect (bytes name)) (underHeader name m) :=
  opens_header name fun S => ends_bind.2 ((h S).ends fun _ => ends_footer.2 rfl)

theorem underContainer_opens (name : String) {m : Show Unit}
    (h : ∀ S, Keeps nestJson m (.cont (bytes name) :: S)) : Opens (.cont (bytes name)) (underContainer name m) :=
  opens_containerOpen name fun S => ends_bind.2 ((h S).ends fun _ => ends_containerClose.2 rfl)

/-! ## The system -/

theorem showCpu_opens : Opens (.sect (bytes "cpu")) (showCpu env) := by
  refine opens_header "cpu" fun S => ?_
  simp

theorem showMemory_opens : Opens (.sect (bytes "memory")) (showMemory env) := by
  refine opens_header "memory" fun S => ?_
  simp

theorem showPlatform_opens : Opens (.sect (bytes "platform")) (showPlatform env) := by
  refine opens_header "platform" fun S => ?_
  simp

theorem showSysconf_opens : Opens (.sect (bytes "sysconf")) (showSysconf env) := by
  have hloop (name : MbStr) (S : List Group) : Keeps nestJson
      (forM Tables.sysconfMap fun name => ifdef env name (showSysconfName name)) (.sect name :: S) :=
    Keeps.forM fun name _ => ifdef_keeps name (showSysconfName_keeps name rfl)
  refine opens_header "sysconf" fun S => ?_
  simp [hloop]

theorem showUname_opens : Opens (.sect (bytes "uname")) (showUname env) := by
  have hdomain (name : MbStr) (S : List Group) :
      Keeps nestJson (ifdef env "_GNU_SOURCE" (showDomainname env)) (.sect name :: S) :=
    ifdef_keeps _ (showDomainname_keeps rfl)
  refine opens_header "uname" fun S => ?_
  simp [hdomain]

theorem showTime_opens : Opens (.sect (bytes "time")) (showTime env) := by
  intro time
  cases time with
  | none => trivial
  | some time =>
    intro tm
    cases tm with
    | none => trivial
    | some tm =>
      intro formatted
      cases formatted with
      | none => trivial
      | some formatted =>
        change Opens _ (ofExcept (chompLine "show_time" formatted) >>= _)
        cases chompLine "show_time" formatted with
        | error e => trivial
        | ok line =>
          refine opens_header "time" fun S => ?_
          simp

theorem showThreads_opens : Opens (.sect (bytes "threads")) (showThreads env) := by
  refine opens_header "threads" fun S => ?_
  simp [Option.forall]

/-! ## The process -/

theorem showEnv_opens : Opens (.sect (bytes "environment")) (showEnv env) := by
  have halloc (vars : List MbStr) (name : MbStr) (S : List Group) :
      Keeps nestJson (forM vars fun _ => allocOrDie "failed to allocate storage") (.sect name :: S) :=
    Keeps.forM fun _ _ => allocOrDie_keeps _
  have hloop (vars : List MbStr) (name : MbStr) (S : List Group) :
      Keeps nestJson (forM vars (showEnvVar env)) (.sect name :: S) :=
    Keeps.forM fun var _ => showEnvVar_keeps var rfl
  refine opens_header "environment" fun S => ?_
  simp [halloc, hloop]

theorem showLocale_opens : Opens (.sect (bytes "locale")) (showLocale env) := by
  have hloop (m : List (String × Int)) (name : MbStr) (S : List Group) :
      Keeps nestJson (forM m fun x => showLocaleCategory env x.1) (.sect name :: S) :=
    Keeps.forM fun x _ => showLocaleCategory_keeps x.1 rfl
  refine opens_header "locale" fun S => ?_
  simp [hloop]

theorem showMisc_opens : Opens (.sect (bytes "misc")) (showMisc env) := by
  have hheaders (name : MbStr) (S : List Group) :
      Keeps nestJson (ifdef env "LINUX_VERSION_CODE" (showHeadersVersion env)) (.sect name :: S) :=
    ifdef_keeps _ (showHeadersVersion_keeps rfl)
  refine opens_header "misc" fun S => ?_
  simp [hheaders]

theorem showProc_opens : Opens (.sect (bytes "process")) (showProc env) := by
  refine opens_header "process" fun S => ?_
  simp

theorem showSignals_opens : Opens (.cont (bytes "signals")) (showSignals env) := by
  have hloop (is : List Nat) (name : MbStr) (T : List Group) :
      Keeps nestJson (forM is (showSignal env)) (.cont name :: T) :=
    Keeps.forM fun i _ => showSignal_keeps i rfl
  refine opens_containerOpen "signals" fun S => ?_
  simp [hloop]

theorem showTtyAttrs_opens : Opens (.sect (bytes "tty")) (showTtyAttrs env) := by
  refine opens_header "tty" fun S => ends_bind.2 ((findTty_keeps _).ends fun found => ?_)
  cases found with
  | none => exact ends_footer.2 rfl
  | some found => exact ends_showTty found.1 found.2 _

theorem showRusage_opens : Opens (.sect (bytes "rusage")) showRusage := by
  intro usage
  cases usage with
  | none => trivial
  | some usage =>
    refine opens_header "rusage" fun S => ?_
    simp

/-- `get_path` emits nothing. -/
theorem searchPath_silent (argv0 : MbStr) (isFirst : Bool) (elements : List MbStr) :
    Silent (searchPath argv0 isFirst elements) fun _ => True := by
  induction elements generalizing isFirst with
  | nil => trivial
  | cons element elements ih =>
    have hstop (c : Bool) : Silent (when c (.stop (.outOfBounds "get_path"))) fun _ => True := by
      cases c <;> trivial
    refine ends_bind.2 ((hstop _).mono fun _ _ _ => ends_bind.2 ((hstop _).mono fun _ _ _ => ?_))
    intro st
    cases st with
    | none => exact ih false
    | some st => exact fun _ => trivial

theorem getPath_silent (argv0 : MbStr) : Silent (getPath env argv0) fun _ => True := by
  have hsearch := searchPath_silent argv0
  unfold Silent at hsearch
  unfold Silent getPath when assert
  simp [Option.forall, hsearch]

theorem showStat_opens : Opens (.sect (bytes "stat")) (showStat env) := by
  refine Opens.bind ((getPath_silent _).mono fun path _ _ => ?_)
  cases path with
  | none => trivial
  | some path =>
    intro realPath
    cases realPath with
    | none => trivial
    | some realPath =>
      intro st
      cases st with
      | none => trivial
      | some st =>
        refine opens_header "stat" fun S => ?_
        simp [Option.forall]

/-! ## All routines -/

/-- The group that a routine makes. -/
def group : Routine → Group
  | .showMeta => .sect (bytes "meta")
  | .showArguments => .sect (bytes "arguments")
  | .showCapabilities => .sect (bytes "capabilities")
  | .showCgroups => .sect (bytes "cgroups")
  | .showClocks => .sect (bytes "clocks")
  | .showCompiler => .sect (bytes "compiler")
  | .showConfstrs => .sect (bytes "confstr")
  | .showCpu => .sect (bytes "cpu")
  | .showEnv => .sect (bytes "environment")
  | .showFds => .cont (bytes "file descriptors")
  | .showLibc => .sect (bytes "libc")
  | .showLibs => .cont (bytes "libraries")
  | .showRlimits => .sect (bytes "limits")
  | .showLocale => .sect (bytes "locale")
  | .showMemory => .sect (bytes "memory")
  | .showMsgQueues => .sect (bytes "message queues")
  | .showMisc => .sect (bytes "misc")
  | .showMounts .pathconf => .sect (bytes "pathconf")
  | .showMounts _ => .sect (bytes "mounts")
  | .showNamespaces => .cont (bytes "namespaces")
  | .showNetwork => .sect (bytes "network")
  | .showOom => .sect (bytes "oom")
  | .showPlatform => .sect (bytes "platform")
  | .showProc => .sect (bytes "process")
  | .showRanges => .sect (bytes "ranges")
  | .showRusage => .sect (bytes "rusage")
  | .showSemaphores => .sect (bytes "semaphores")
  | .showSharedMem => .sect (bytes "shared memory")
  | .showSignals => .cont (bytes "signals")
  | .showSizeof => .sect (bytes "sizeof")
  | .showStat => .sect (bytes "stat")
  | .showSysconf => .sect (bytes "sysconf")
  | .showThreads => .sect (bytes "threads")
  | .showTime => .sect (bytes "time")
  | .showTimezone => .sect (bytes "timezone")
  | .showTtyAttrs => .sect (bytes "tty")
  | .showUname => .sect (bytes "uname")
  | .showVersion => .sect (bytes "version")

theorem group_isObject (r : Routine) : (group r).isObject = false := by
  cases r with
  | showMounts what => cases what <;> rfl
  | _ => rfl

/-- Every routine but `show_network` opens its group and closes it last. -/
theorem showRoutine_opens {r : Routine} (hr : r ≠ .showNetwork) : Opens (group r) (showRoutine env r) := by
  cases r with
  | showMeta => exact showMeta_opens
  | showArguments => exact showArguments_opens
  | showCapabilities => exact underHeader_opens _ fun S => showCapabilitiesLinux_keeps rfl
  | showCgroups => exact underHeader_opens _ fun S => showCgroupsLinux_keeps rfl
  | showClocks => exact underHeader_opens _ fun S => showClocksGeneric_keeps rfl
  | showCompiler => exact showCompiler_opens
  | showConfstrs => exact underHeader_opens _ fun S => showConfstrsGeneric_keeps rfl
  | showCpu => exact showCpu_opens
  | showEnv => exact showEnv_opens
  | showFds => exact underContainer_opens _ fun S => showFdsLinux_keeps rfl
  | showLibc => exact showLibc_opens
  | showLibs => exact underContainer_opens _ fun S => showLibsGeneric_keeps rfl
  | showRlimits => exact underHeader_opens _ fun S => showRlimitsLinux_keeps rfl
  | showLocale => exact showLocale_opens
  | showMemory => exact showMemory_opens
  | showMsgQueues => exact underHeader_opens _ fun S => showMsgQueuesLinux_keeps rfl
  | showMisc => exact showMisc_opens
  | showMounts what =>
    have hmounts (name : String) :
      Opens (.sect (bytes name)) (underHeader name (showMountsGenericLinux env what)) :=
      underHeader_opens _ fun S => showMountsGenericLinux_keeps what rfl
    cases what with
    | all => exact hmounts "mounts"
    | mounts => exact hmounts "mounts"
    | pathconf => exact hmounts "pathconf"
  | showNamespaces => exact underContainer_opens _ fun S => showNamespacesLinux_keeps rfl
  | showNetwork => exact absurd rfl hr
  | showOom => exact underHeader_opens _ fun S => showOomLinux_keeps rfl
  | showPlatform => exact showPlatform_opens
  | showProc => exact showProc_opens
  | showRanges => exact showRanges_opens
  | showRusage => exact showRusage_opens
  | showSemaphores => exact underHeader_opens _ fun S => showSemaphoresLinux_keeps rfl
  | showSharedMem => exact underHeader_opens _ fun S => showSharedMemLinux_keeps rfl
  | showSignals => exact showSignals_opens
  | showSizeof => exact showSizeof_opens
  | showStat => exact showStat_opens
  | showSysconf => exact showSysconf_opens
  | showThreads => exact showThreads_opens
  | showTime => exact showTime_opens
  | showTimezone => exact underHeader_opens _ fun S => showTimezoneGeneric_keeps rfl
  | showTtyAttrs => exact showTtyAttrs_opens
  | showUname => exact showUname_opens
  | showVersion => exact showVersion_opens

/-- With the list of interfaces, `show_network` makes its section. -/
theorem showNetwork_group {ifAddrs : List Ifaddrs} (ho : o n .getifaddrs = some ifAddrs)
    (hrun : (showNetwork env).run o n = .ok ((), es, n')) :
    ∃ kids : Calls, kids.fits .json false ∧ es = (Calls.group (.sect (bytes "network")) kids .nil).events := by
  rw [run_showNetwork, ho] at hrun
  cases hrest : (showInterfaces env ifAddrs).run o (n + 1) with
  | error e =>
    simp only [Option.elim_some, hrest] at hrun
    cases hrun
  | ok r =>
    simp only [Option.elim_some, hrest] at hrun
    obtain ⟨hes, -⟩ := Prod.mk.inj (Prod.mk.inj (Except.ok.inj hrun)).2
    have hcloses : ∀ S, r.2.1.foldlM nestJson (.sect (bytes "network") :: S) = some S := by
      intro S
      obtain ⟨T, hT, rfl⟩ := (ends_showInterfaces ifAddrs (bytes "network")).run hrest
      exact hT
    obtain ⟨kids, hkids, hevents⟩ := closes_one hcloses
    exact ⟨kids, hkids, by rw [← hes, hevents]; rfl⟩

/-- **The calls of a routine are one group of its name**, in every run that returns, but for `show_network`
when there is no list of interfaces. -/
theorem showRoutine_group {r : Routine} (h : r = .showNetwork → o n .getifaddrs ≠ none)
    (hrun : (showRoutine env r).run o n = .ok ((), es, n')) :
    ∃ kids : Calls, kids.fits .json ((group r).isArray .json) ∧
      es = (Calls.group (group r) kids .nil).events := by
  by_cases hr : r = .showNetwork
  · subst hr
    obtain ⟨ifAddrs, ho⟩ := Option.ne_none_iff_exists'.1 (h rfl)
    exact showNetwork_group ho hrun
  · exact (showRoutine_opens hr).run hrun

theorem showNetwork_trace (env : Env) (o : Oracle Call) (n : Nat) :
    FirstCalls (.sect (bytes "network")) ((showNetwork env).trace o n).1 := by
  refine firstCalls_emit (Q := fun _ _ => True) (fun S => ?_) o n
  refine ends_bind.2 (ends_bind.2 ?_)
  rw [ends_lift]
  intro answer
  cases answer with
  | none => trivial
  | some ifAddrs => exact (ends_showInterfaces ifAddrs (bytes "network")).mono fun _ _ _ => trivial

/-- **Wherever a routine is stopped, its calls are the first ones of its group.** -/
theorem showRoutine_trace (env : Env) (r : Routine) (o : Oracle Call) (n : Nat) :
    FirstCalls (group r) ((showRoutine env r).trace o n).1 := by
  by_cases hr : r = .showNetwork
  · subst hr
    exact showNetwork_trace env o n
  · exact (showRoutine_opens hr).trace o n

/-- **`dump` makes groups of different names.** -/
theorem dumpRoutines_groups : (dumpRoutines.map fun r => (group r).name).Nodup := by decide

end Procenv.Show
