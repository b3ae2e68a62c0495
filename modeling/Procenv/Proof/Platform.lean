import Procenv.Proof.Nesting

/-!
# The platform operations close what they open

Every platform operation leaves the stack of the open groups as it found it
(`Keeps nestJson`), whatever the system answers: one lemma for each function, whose
proof runs through its calls. The operations on lists of descriptors, libraries and
flags are called in a container and show objects; the others are called outside of
containers.
-/

namespace Procenv.Show

open Text Interact Interact.Prog

variable {env : Env} {S : List Group}

/-! ## Helpers that show nothing -/

section Helpers

variable {Q : Option MbStr → List Group → Prop}

@[simp] theorem ends_getUserName {uid : Int} : (getUserName uid).Ends nestJson Q S ↔ ∀ a, Q a S := by
  simp [getUserName]

@[simp] theorem ends_getGroupName {gid : Int} : (getGroupName gid).Ends nestJson Q S ↔ ∀ a, Q a S := by
  simp [getGroupName]

end Helpers

theorem call_keeps {α : Type} (c : Call α) : Keeps nestJson (liftM c : Show α) S := fun _ => rfl

@[simp] theorem str_keeps (s : MbStr) : Keeps nestJson (str env s) S := by
  simp [Keeps, str]

@[simp] theorem strOrNull_keeps (s : Option MbStr) : Keeps nestJson (strOrNull env s) S := by
  cases s <;> simp [Keeps, strOrNull, str]

@[simp] theorem strOr_keeps (default : WStr) (s : Option MbStr) : Keeps nestJson (strOr env default s) S := by
  cases s <;> simp [Keeps, strOr, str]

@[simp] theorem withName_keeps (n : Int) (name : Option MbStr) : Keeps nestJson (withName env n name) S := by
  unfold Keeps withName
  simp

@[simp] theorem getSysconf_keeps (name : String) : Keeps nestJson (getSysconf name) S := by
  simp [Keeps, getSysconf]

@[simp] theorem fdValid_keeps (fd : Int) : Keeps nestJson (fdValid fd) S := by
  simp [Keeps, fdValid]

@[simp] theorem getMajorMinor_keeps (path : MbStr) : Keeps nestJson (getMajorMinor path) S := by
  simp [Keeps, getMajorMinor, Option.forall]

@[simp] theorem formatPerms_keeps (mode : Nat) : Keeps nestJson (formatPerms mode) S := by
  simp [Keeps, formatPerms]

@[simp] theorem formatTime_keeps (t : Nat) : Keeps nestJson (formatTime env t) S := by
  unfold Keeps formatTime
  simp [Option.forall]

@[simp] theorem formatTimeOrNa_keeps (t : Nat) : Keeps nestJson (formatTimeOrNa env t) S := by
  unfold formatTimeOrNa
  split
  · exact formatTime_keeps t
  · exact rfl

@[simp] theorem pidToName_keeps (pid : Int) : Keeps nestJson (pidToName pid) S := by
  unfold Keeps pidToName
  simp only [ends_bind, ends_lift, Option.forall]
  refine ⟨by simp, fun content => ?_⟩
  split <;> simp

@[simp] theorem pidText_keeps (pid : Int) (name : Option MbStr) : Keeps nestJson (pidText env pid name) S := by
  unfold Keeps pidText
  simp

/-! ## Control -/

section Control

variable {m : Show Unit}

theorem when_keeps (c : Bool) (hm : Keeps nestJson m S) : Keeps nestJson (when c m) S := by
  unfold when
  split
  · exact hm
  · exact rfl

theorem ifdef_keeps (name : String) (hm : Keeps nestJson m S) : Keeps nestJson (ifdef env name m) S :=
  when_keeps _ hm

@[simp] theorem linuxKernelVersion_keeps (major minor revision : Int) :
    Keeps nestJson (linuxKernelVersion env major minor revision) S := by
  simp [Keeps, linuxKernelVersion]

theorem ifKernel_keeps (version : Option (Int × Int × Int)) (hm : Keeps nestJson m S) :
    Keeps nestJson (ifKernel env version m) S := by
  unfold ifKernel
  split
  · exact hm
  · exact (linuxKernelVersion_keeps _ _ _).bind fun c => when_keeps c hm

theorem underHeader_keeps (name : String) (h : inArray S = false)
    (hm : Keeps nestJson m (.sect (bytes name) :: S)) : Keeps nestJson (underHeader name m) S := by
  unfold Keeps underHeader
  simp [h, hm]

theorem underContainer_keeps (name : String) (h : inArray S = false)
    (hm : Keeps nestJson m (.cont (bytes name) :: S)) : Keeps nestJson (underContainer name m) S := by
  unfold Keeps underContainer
  simp [h, hm]

end Control

/-! ## Flags as objects -/

@[simp] theorem showConst_keeps (flags : Nat) (const : String) (h : inArray S = true) :
    Keeps nestJson (showConst env flags const) S := by
  unfold Keeps showConst
  simp [h]

theorem showFlags_keeps (flags : Nat) (m : List (String × Int)) (h : inArray S = true) :
    Keeps nestJson (showFlags flags m) S := by
  refine Keeps.forM fun e _ => when_keeps _ ?_
  unfold Keeps
  simp [h]

/-! ## Clocks, configuration strings and path limits -/

theorem showClockRes_keeps (clock : String) (h : inArray S = false) : Keeps nestJson (showClockRes clock) S := by
  unfold Keeps showClockRes
  simp [h]

theorem showClocksGeneric_keeps (h : inArray S = false) : Keeps nestJson (showClocksGeneric env) S :=
  Keeps.forM fun clock _ => ifdef_keeps clock (showClockRes_keeps clock h)

theorem showConfstr_keeps (name shown : String) (h : inArray S = false) :
    Keeps nestJson (showConfstr env name shown) S := by
  unfold Keeps showConfstr
  simp [h]

theorem showConfstrsGeneric_keeps (h : inArray S = false) : Keeps nestJson (showConfstrsGeneric env) S :=
  Keeps.forM fun e _ => ifdef_keeps e.1 (showConfstr_keeps e.1 e.2 h)

theorem showPathconf_keeps (path : MbStr) (name : String) (h : inArray S = false) :
    Keeps nestJson (showPathconf path name) S := by
  unfold Keeps showPathconf
  simp [h]

@[simp] theorem showPathconfs_keeps (what : ShowMountType) (dir : MbStr) (h : inArray S = false) :
    Keeps nestJson (showPathconfs env what dir) S := by
  have hloop (name : MbStr) : Keeps nestJson
      (forM Tables.pathconfNames fun name => ifdef env name (showPathconf dir name)) (.sect name :: S) :=
    Keeps.forM fun name _ => ifdef_keeps name (showPathconf_keeps dir name rfl)
  unfold Keeps showPathconfs
  simp [h, hloop]

/-! ## Processors and memory -/

@[simp] theorem showCpuAffinitiesGeneric_keeps (h : inArray S = false) :
    Keeps nestJson showCpuAffinitiesGeneric S := by
  unfold Keeps showCpuAffinitiesGeneric
  simp [h, Option.forall]

@[simp] theorem mkMemSection_keeps (name : String) (value : Nat) (h : inArray S = false) :
    Keeps nestJson (mkMemSection name value) S := by
  unfold Keeps mkMemSection showHumanSizeEntry
  simp [h]

@[simp] theorem showMemoryGeneric_keeps (h : inArray S = false) : Keeps nestJson showMemoryGeneric S := by
  unfold Keeps showMemoryGeneric
  simp [h, Option.forall]

/-! ## Mounts -/

@[simp] theorem getCanonicalGenericLinux_keeps (path : MbStr) :
    Keeps nestJson (getCanonicalGenericLinux path) S := by
  simp [Keeps, getCanonicalGenericLinux, Option.forall]

@[simp] theorem canonicalText_keeps (fsname : MbStr) : Keeps nestJson (canonicalText env fsname) S :=
  (getCanonicalGenericLinux_keeps fsname).bind fun r => (str_keeps r.1).bind fun _ => rfl

@[simp] theorem showMountStats_keeps (fs : Option Statvfs) (h : inArray S = false) :
    Keeps nestJson (showMountStats fs) S := by
  cases fs <;> simp [Keeps, showMountStats, h]

theorem showMount_keeps (what : ShowMountType) (mnt : Mntent) (h : inArray S = false) :
    Keeps nestJson (showMount env what mnt) S := by
  unfold showMount
  split
  · exact showPathconfs_keeps what mnt.dir h
  · unfold Keeps
    simp [h]

theorem showMountsGenericLinux_keeps (what : ShowMountType) (h : inArray S = false) :
    Keeps nestJson (showMountsGenericLinux env what) S := by
  have hloop (mnts : List Mntent) : Keeps nestJson (forM mnts (showMount env what)) S :=
    Keeps.forM fun mnt _ => showMount_keeps what mnt h
  unfold Keeps showMountsGenericLinux
  simp [hloop, Option.forall]

/-! ## The time zone and the libraries -/

theorem showTimezoneGeneric_keeps (h : inArray S = false) : Keeps nestJson (showTimezoneGeneric env) S := by
  unfold Keeps showTimezoneGeneric
  simp [h]

theorem libsCallback_keeps (name : Option MbStr) (addr : Nat) (h : inArray S = true) :
    Keeps nestJson (libsCallback env name addr) S := by
  cases name with
  | none => exact rfl
  | some path =>
    unfold Keeps libsCallback
    simp [h]

theorem showLibsGeneric_keeps (h : inArray S = true) : Keeps nestJson (showLibsGeneric env) S :=
  (call_keeps _).bind fun _ => Keeps.forM fun lib _ => libsCallback_keeps lib.1 lib.2 h

/-! ## Capabilities -/

@[simp] theorem getAmbientCapability_keeps (cap : Int) : Keeps nestJson (getAmbientCapability env cap) S :=
  (linuxKernelVersion_keeps 4 3 0).bind fun c => by
    unfold Keeps
    split <;> simp

@[simp] theorem getCapabilityByFlagType_keeps (type : String) (cap : Int) :
    Keeps nestJson (getCapabilityByFlagType type cap) S := by
  simp [Keeps, getCapabilityByFlagType]

theorem showCapabilityNamed_keeps (cap : Int) (name : MbStr) (h : inArray S = false) :
    Keeps nestJson (showCapabilityNamed env cap name) S := by
  unfold Keeps showCapabilityNamed
  simp [h]

theorem showCapabilityGroup_keeps (version : Option (Int × Int × Int)) (guarded : Bool) (caps : List String)
    (h : inArray S = false) : Keeps nestJson (showCapabilityGroup env version guarded caps) S :=
  when_keeps _ (ifKernel_keeps version (Keeps.forM fun _ _ =>
    ifdef_keeps _ (showCapabilityNamed_keeps _ _ h)))

theorem showUnknownCapabilities_keeps (h : inArray S = false) :
    Keeps nestJson (showUnknownCapabilities env) S :=
  (call_keeps Call.capGetBounds).bind fun _ => Keeps.forM fun _ _ => showCapabilityNamed_keeps _ _ h

theorem showKeepcaps_keeps (h : inArray S = false) : Keeps nestJson showKeepcaps S := by
  unfold Keeps showKeepcaps
  simp [h]

theorem showSecurebits_keeps (h : inArray S = false) : Keeps nestJson (showSecurebits env) S := by
  unfold Keeps showSecurebits
  simp [h]

theorem showCapabilitiesLinux_keeps (h : inArray S = false) : Keeps nestJson (showCapabilitiesLinux env) S := by
  have hknown (name : MbStr) {f : Option (Int × Int × Int) × Bool × List String → Show Unit}
      (hf : ∀ group, f group = showCapabilityGroup env group.1 group.2.1 group.2.2) :
      Keeps nestJson (forM knownCapabilities f) (.sect name :: S) :=
    Keeps.forM fun group _ => hf group ▸ showCapabilityGroup_keeps _ _ _ rfl
  have hunknown (name : MbStr) :
      Keeps nestJson (ifdef env "PR_CAPBSET_READ" (showUnknownCapabilities env)) (.sect name :: S) :=
    ifdef_keeps _ (showUnknownCapabilities_keeps rfl)
  have hkeep : Keeps nestJson (ifdef env "PR_GET_KEEPCAPS" (ifKernel env (some (2, 2, 18)) showKeepcaps)) S :=
    ifdef_keeps _ (ifKernel_keeps _ (showKeepcaps_keeps h))
  have hbits : Keeps nestJson (ifdef env "PR_GET_SECUREBITS" (ifdef env "HAVE_LINUX_SECUREBITS_H"
      (ifKernel env (some (2, 6, 26)) (showSecurebits env)))) S :=
    ifdef_keeps _ (ifdef_keeps _ (ifKernel_keeps _ (showSecurebits_keeps h)))
  unfold Keeps showCapabilitiesLinux
  simp [h, hknown, hunknown, hkeep, hbits]

/-! ## Files of the process -/

theorem showCgroup_keeps (line : MbStr) (h : inArray S = false) : Keeps nestJson (showCgroup env line) S := by
  unfold Keeps showCgroup
  simp only [ends_bind, ends_ofExcept, ends_lift, ends_when]
  intro buffer _ ok
  split
  · exact ends_die
  · split <;> simp [h]

theorem showCgroupsLinux_keeps (h : inArray S = false) : Keeps nestJson (showCgroupsLinux env) S := by
  have hloop (lines : List MbStr) : Keeps nestJson (forM lines (showCgroup env)) S :=
    Keeps.forM fun line _ => showCgroup_keeps line h
  unfold Keeps showCgroupsLinux
  simp [hloop, Option.forall]

@[simp] theorem showFdTerminal_keeps (link : MbStr) (st : Stat) (h : inArray S = false) :
    Keeps nestJson (showFdTerminal env link st) S := by
  unfold Keeps showFdTerminal
  simp [h]

theorem showFd_keeps (name : MbStr) (h : inArray S = true) : Keeps nestJson (showFd env name) S := by
  unfold Keeps showFd
  simp [h, Option.forall]

theorem showFdsLinux_keeps (h : inArray S = true) : Keeps nestJson (showFdsLinux env) S := by
  have hloop (names : List MbStr) : Keeps nestJson (forM names (showFd env)) S :=
    Keeps.forM fun name _ => showFd_keeps name h
  unfold Keeps showFdsLinux
  simp [hloop, Option.forall]

theorem addNamespace_keeps (list : List MbStr) (name : MbStr) : Keeps nestJson (addNamespace list name) S := by
  simp [Keeps, addNamespace, Option.forall]

theorem showNamespace_keeps (line : MbStr) (h : inArray S = true) :
    Keeps nestJson (showNamespace env line) S := by
  unfold Keeps showNamespace
  split <;> simp [h]

theorem showNamespacesLinux_keeps (h : inArray S = true) : Keeps nestJson (showNamespacesLinux env) S := by
  have hread (names : List MbStr) : Keeps nestJson (names.foldlM addNamespace []) S :=
    Keeps.foldlM fun list name _ => addNamespace_keeps list name
  have hshow (list : List MbStr) : Keeps nestJson (forM list (showNamespace env)) S :=
    Keeps.forM fun line _ => showNamespace_keeps line h
  unfold Keeps showNamespacesLinux
  simp only [ends_bind, ends_lift, Option.forall]
  exact ⟨rfl, fun names => (hread names).ends hshow⟩

theorem showOomFile_keeps (seen : Bool) (file : String) (h : inArray S = false) :
    Keeps nestJson (showOomFile env seen file) S := by
  have hloop (lines : List MbStr) : Keeps nestJson (lines.forM fun line => do
      let buffer ← ofExcept (chompLine "show_oom_linux" line)
      entry file (← str env buffer)) S := by
    refine Keeps.forM fun line _ => ?_
    unfold Keeps
    simp [h]
  unfold Keeps showOomFile
  simp only [ends_bind, ends_lift, Option.forall]
  exact ⟨rfl, fun content => (hloop _).ends fun _ => rfl⟩

theorem showOomLinux_keeps (h : inArray S = false) : Keeps nestJson (showOomLinux env) S := by
  refine (Keeps.foldlM fun seen file _ => showOomFile_keeps seen file h).bind fun seen => when_keeps _ ?_
  unfold Keeps
  simp [h]

@[simp] theorem handleProcBranchLinux_keeps (h : inArray S = false) :
    Keeps nestJson (handleProcBranchLinux env) S := by
  refine (call_keeps Call.procBranch).bind fun r => (str_keeps _).bind fun text => ?_
  unfold Keeps
  simp [h]

/-! ## Processors, priorities and limits -/

@[simp] theorem showCpuLinux_keeps (h : inArray S = false) : Keeps nestJson showCpuLinux S := by
  unfold Keeps showCpuLinux
  simp [h]

@[simp] theorem handleSchedulerTypeLinux_keeps (h : inArray S = false) :
    Keeps nestJson (handleSchedulerTypeLinux env) S := by
  unfold Keeps handleSchedulerTypeLinux
  simp [h]

@[simp] theorem showIoPriority_keeps (name : String) (ioprio : Int) (h : inArray S = false) :
    Keeps nestJson (showIoPriority env name ioprio) S := by
  unfold Keeps showIoPriority
  simp [h]

@[simp] theorem showIoPrioritiesLinux_keeps (h : inArray S = false) :
    Keeps nestJson (showIoPrioritiesLinux env) S := by
  unfold Keeps showIoPrioritiesLinux
  simp [h]

theorem showLimit_keeps (limit : String) (h : inArray S = false) : Keeps nestJson (showLimit limit) S := by
  unfold Keeps showLimit
  simp [h, Option.forall]

theorem showRlimitsLinux_keeps (h : inArray S = false) : Keeps nestJson (showRlimitsLinux env) S :=
  Keeps.forM fun e _ => when_keeps _ (ifKernel_keeps e.2 (showLimit_keeps e.1 h))

/-! ## Memory -/

@[simp] theorem showNuma_keeps (h : inArray S = false) : Keeps nestJson (showNuma env) S := by
  unfold Keeps showNuma
  simp [h, Option.forall]

@[simp] theorem handleNumaMemoryLinux_keeps (h : inArray S = false) :
    Keeps nestJson (handleNumaMemoryLinux env) S := by
  unfold Keeps handleNumaMemoryLinux
  simp [h]

/-! ## `prctl` and the security module -/

@[simp] theorem showPrctl_keeps (option : String) (version : Option (Int × Int × Int)) (name : String)
    (text : Int → Int → WStr) (h : inArray S = false) :
    Keeps nestJson (showPrctl env option version name text) S := by
  refine ifdef_keeps option (ifKernel_keeps version ?_)
  unfold Keeps
  simp [h]

@[simp] theorem showPrctlName_keeps (h : inArray S = false) : Keeps nestJson (showPrctlName env) S := by
  refine ifdef_keeps _ (ifKernel_keeps _ ?_)
  unfold Keeps
  simp [h]

@[simp] theorem showPrctlLinux_keeps (h : inArray S = false) : Keeps nestJson (showPrctlLinux env) S := by
  unfold Keeps showPrctlLinux
  simp [h]

theorem apparmorContext_keeps : Keeps nestJson (apparmorContext env) S := by
  simp [Keeps, apparmorContext, Option.forall]

theorem selinuxContext_keeps (context : Option MbStr) : Keeps nestJson (selinuxContext env context) S := by
  simp [Keeps, selinuxContext, Option.forall]

@[simp] theorem showSecurityModuleContextLinux_keeps (h : inArray S = false) :
    Keeps nestJson (showSecurityModuleContextLinux env) S := by
  refine apparmorContext_keeps.bind fun r => (selinuxContext_keeps r.1).bind fun context => ?_
  unfold Keeps
  cases context with
  | none => simp [h]
  | some context =>
    cases r.2 <;> simp [h]

@[simp] theorem securityModule_keeps : Keeps nestJson (securityModule env) S := by
  simp [Keeps, securityModule]

@[simp] theorem showSecurityModuleLinux_keeps (h : inArray S = false) :
    Keeps nestJson (showSecurityModuleLinux env) S := by
  unfold Keeps showSecurityModuleLinux
  simp [h]

/-! ## Message queues, semaphores and shared memory -/

@[simp] theorem showIpcPermissions_keeps (perm : IpcPerm) (modestr : WStr) (h : inArray S = false) :
    Keeps nestJson (showIpcPermissions perm modestr) S := by
  unfold Keeps showIpcPermissions
  simp [h]

@[simp] theorem showIpcOwners_keeps (perm : IpcPerm) (h : inArray S = false) :
    Keeps nestJson (showIpcOwners env perm) S := by
  unfold Keeps showIpcOwners
  simp [h]

@[simp] theorem showIpcKey_keeps (perm : IpcPerm) (h : inArray S = false) :
    Keeps nestJson (showIpcKey env perm) S := by
  unfold Keeps showIpcKey
  simp [h]

theorem showMsgQueue_keeps (i : Nat) (h : inArray S = false) : Keeps nestJson (showMsgQueue env i) S := by
  refine (call_keeps (Call.msgStat i)).bind fun r => ?_
  cases r with
  | none => exact rfl
  | some ds =>
    refine (formatPerms_keeps _).bind fun modestr => (formatTimeOrNa_keeps _).bind fun stime =>
      (formatTimeOrNa_keeps _).bind fun rtime => (formatTimeOrNa_keeps _).bind fun ctime =>
      (pidToName_keeps _).bind fun lspid => (pidToName_keeps _).bind fun lrpid => ?_
    unfold Keeps
    simp [h]

theorem showSemaphore_keeps (i : Nat) (h : inArray S = false) : Keeps nestJson (showSemaphore env i) S := by
  refine (call_keeps (Call.semStat i)).bind fun r => ?_
  cases r with
  | none => exact rfl
  | some ds =>
    refine (formatPerms_keeps _).bind fun modestr => (formatTimeOrNa_keeps _).bind fun otime =>
      (formatTime_keeps _).bind fun ctime => ?_
    unfold Keeps
    simp [h]

theorem showSegment_keeps (i : Nat) (h : inArray S = false) : Keeps nestJson (showSegment env i) S := by
  refine (call_keeps (Call.shmStat i)).bind fun r => ?_
  cases r with
  | none => exact rfl
  | some ds =>
    refine (formatPerms_keeps _).bind fun modestr => (formatTime_keeps _).bind fun atime =>
      (formatTime_keeps _).bind fun ctime => (formatTime_keeps _).bind fun dtime =>
      (pidToName_keeps _).bind fun cpid => (pidToName_keeps _).bind fun lpid => ?_
    unfold Keeps
    simp [h]

theorem showMsgQueuesLinux_keeps (h : inArray S = false) : Keeps nestJson (showMsgQueuesLinux env) S := by
  have hloop (max : Nat) (T : List Group) :
    Keeps nestJson (forM (List.range max) (showMsgQueue env)) (.object :: T) :=
    Keeps.forM fun i _ => showMsgQueue_keeps i rfl
  unfold Keeps showMsgQueuesLinux
  simp [h, hloop, Option.forall]

theorem showSemaphoresLinux_keeps (h : inArray S = false) : Keeps nestJson (showSemaphoresLinux env) S := by
  have hloop (max : Nat) (T : List Group) :
    Keeps nestJson (forM (List.range max) (showSemaphore env)) (.object :: T) :=
    Keeps.forM fun i _ => showSemaphore_keeps i rfl
  unfold Keeps showSemaphoresLinux
  simp [h, hloop, Option.forall]

theorem showSharedMemLinux_keeps (h : inArray S = false) : Keeps nestJson (showSharedMemLinux env) S := by
  have hloop (max : Nat) (T : List Group) :
    Keeps nestJson (forM (List.range max) (showSegment env)) (.object :: T) :=
    Keeps.forM fun i _ => showSegment_keeps i rfl
  unfold Keeps showSharedMemLinux
  simp [h, hloop, Option.forall]

/-! ## Interfaces and terminals -/

@[simp] theorem showExtendedIfFlagsLinux_keeps (interface : MbStr) (h : inArray S = true) :
    Keeps nestJson (showExtendedIfFlagsLinux env interface) S := by
  unfold Keeps showExtendedIfFlagsLinux
  simp [h, Option.forall, showFlags_keeps]

@[simp] theorem getTtyLockedStatusLinux_keeps (fd : Int) : Keeps nestJson (getTtyLockedStatusLinux fd) S := by
  simp [Keeps, getTtyLockedStatusLinux, Option.forall]

@[simp] theorem inVmLinux_keeps : Keeps nestJson inVmLinux S := by
  unfold Keeps inVmLinux
  simp only [ends_bind, ends_lift, Option.forall]
  refine ⟨by simp, fun content => ?_⟩
  split <;> simp

end Procenv.Show
