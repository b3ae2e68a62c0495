import Procenv.Data.Insertion
import Procenv.Model.Generic
import Procenv.Model.PrList

/-!
# The Linux platform operations

The functions of `platform/linux/platform.c` behind the operations that the display
routines call.
-/

namespace Procenv.Show

open Text

variable (env : Env)

/-! ## The kernel version -/

/-- `%d` of `sscanf`: the number as `strtol` reads it, stored in an `int`, and what follows it. -/
def scanD (s : MbStr) : Option (Int × MbStr) :=
  let unsigned : MbStr := match s.dropWhile isSpace with
    | 45 :: s => s
    | 43 :: s => s
    | s => s
  let digits := unsigned.takeWhile fun c => 48 ≤ c && c ≤ 57
  if digits = [] then none
  else some (atoi s, unsigned.drop digits.length)

/-- `sscanf (release, "%d.%d.%d")`: the numbers read. -/
def scanRelease : (fields : Nat) → MbStr → List Int
  | 0, _ => []
  | fields + 1, s =>
    match scanD s with
    | none => []
    | some (n, 46 :: s) => n :: scanRelease fields s
    | some (n, _) => [n]

/-- A version in a word, a byte for each number; `-1` leaves its byte out. -/
def versionWord (major minor revision : Int) : BitVec 32 :=
  let byte (n : Int) (shift : Nat) (mask : BitVec 32) : BitVec 32 :=
    if n = -1 then 0 else BitVec.ofInt 32 n <<< shift &&& mask
  byte revision 0 0x0000FF ||| byte minor 8 0x00FF00 ||| byte major 16 0xFF0000

/-- `linux_kernel_version`. -/
def linuxKernelVersion (major minor revision : Int) : Show Bool := do
  assert "linux_kernel_version" (0 < major)
  let read := scanRelease 3 env.uts.release
  let actualMajor := read[0]?.getD (-1)
  assert "linux_kernel_version" (actualMajor ≠ -1)
  let actual := versionWord actualMajor (read[1]?.getD (-1)) (read[2]?.getD (-1))
  let requested := versionWord major minor (if minor = -1 then -1 else revision)
  return decide (requested.toInt ≤ actual.toInt)

/-- `if (LINUX_KERNEL_MMR (...)) m`, without the test if there is none. -/
def ifKernel (version : Option (Int × Int × Int)) (m : Show Unit) : Show Unit :=
  match version with
  | none => m
  | some (major, minor, revision) => do when (← linuxKernelVersion env major minor revision) m

/-! ## Capabilities -/

/-- `get_ambient_capability`. -/
def getAmbientCapability (cap : Int) : Show Int := do
  if !(← linuxKernelVersion env 4 3 0) then return 0
  return if (← Call.prctlAmbient cap) = 1 then 1 else 0

/-- `get_capability_by_flag_type`. -/
def getCapabilityByFlagType (type : String) (cap : Int) : Show Int := do
  let (ret, result) ← Call.capGetFlag cap type
  return if ret < 0 then ret else result

/-- `value < 0 ? NOT_DEFINED_STR : set == CAP_SET ? YES_STR : NO_STR`. -/
def capText (value set : Int) : WStr :=
  if value < 0 then definedStr false else yesNo (set = env.build.value "CAP_SET")

/-- `_show_capability`. -/
def showCapabilityNamed (cap : Int) (name : MbStr) : Show Unit := do
  let bound ← Call.capGetBound cap
  let ambient ← getAmbientCapability env cap
  let effective ← getCapabilityByFlagType "CAP_EFFECTIVE" cap
  let inheritable ← getCapabilityByFlagType "CAP_INHERITABLE" cap
  let permitted ← getCapabilityByFlagType "CAP_PERMITTED" cap
  sectionOpenNamed name
  entry "number" (fmtD cap)
  entry "supported" (yesNo (0 ≤ (← Call.capGetBound cap)))
  entry "in bounding set" (if bound < 0 then unknownStr else yesNo (bound ≠ 0))
  -- shown from the permitted flag where it is defined
  entry "ambient" (capText env ambient permitted)
  entry "effective" (capText env effective effective)
  entry "inheritable" (capText env inheritable inheritable)
  entry "permitted" (capText env permitted permitted)
  sectionClose

/-- `show_capability`, nothing without `PR_CAPBSET_READ`. -/
def showCapability (cap : String) : Show Unit :=
  ifdef env "PR_CAPBSET_READ" (showCapabilityNamed env (env.build.value cap) (bytes cap))

/-- The known capabilities: the kernel that has them, whether they are inside `#ifdef`, and their
names. -/
def knownCapabilities : List (Option (Int × Int × Int) × Bool × List String) :=
  [(none, false,
    ["CAP_CHOWN", "CAP_DAC_OVERRIDE", "CAP_DAC_READ_SEARCH", "CAP_FOWNER", "CAP_FSETID", "CAP_KILL",
     "CAP_SETGID", "CAP_SETUID", "CAP_SETPCAP", "CAP_LINUX_IMMUTABLE", "CAP_NET_BIND_SERVICE",
     "CAP_NET_BROADCAST", "CAP_NET_ADMIN", "CAP_NET_RAW", "CAP_IPC_LOCK", "CAP_IPC_OWNER", "CAP_SYS_MODULE",
     "CAP_SYS_RAWIO", "CAP_SYS_CHROOT", "CAP_SYS_PTRACE", "CAP_SYS_PACCT", "CAP_SYS_ADMIN", "CAP_SYS_BOOT",
     "CAP_SYS_NICE", "CAP_SYS_RESOURCE", "CAP_SYS_TIME", "CAP_SYS_TTY_CONFIG"]),
   (some (2, 4, -1), false, ["CAP_MKNOD", "CAP_LEASE"]),
   (some (2, 6, 11), false, ["CAP_AUDIT_WRITE", "CAP_AUDIT_CONTROL"]),
   (some (2, 6, 24), false, ["CAP_SETFCAP"]),
   (some (2, 6, 25), false, ["CAP_MAC_OVERRIDE", "CAP_MAC_ADMIN"]),
   (some (2, 6, 37), true, ["CAP_SYSLOG"]),
   (some (3, 0, -1), true, ["CAP_WAKE_ALARM"]),
   (some (3, 5, -1), true, ["CAP_BLOCK_SUSPEND"]),
   (some (3, 16, -1), true, ["CAP_AUDIT_READ"]),
   (some (5, 8, -1), true, ["CAP_PERFMON"]),
   (some (5, 8, -1), true, ["CAP_BPF"]),
   (some (5, 9, -1), true, ["CAP_CHECKPOINT_RESTORE"])]

/-- The capabilities of one kernel. -/
def showCapabilityGroup (version : Option (Int × Int × Int)) (guarded : Bool) (caps : List String) : Show Unit :=
  when (!guarded || caps.all env.build.defined) (ifKernel env version (caps.forM (showCapability env)))

/-- The capabilities that are not known, `cap_get_bound` failing behind the last. -/
def showUnknownCapabilities : Show Unit := do
  let lastKnown := env.build.value "CAP_LAST_CAP"
  (← Call.capGetBounds).zipIdx.forM fun (_, k) =>
    showCapabilityNamed env (1 + lastKnown + k) (bytes "CAP_LAST_CAP+" ++ bytes (toString (1 + lastKnown + k)))

/-- `PR_GET_KEEPCAPS`. -/
def showKeepcaps : Show Unit := do
  let (ret, _) ← Call.prctl "PR_GET_KEEPCAPS"
  entry "keep" (if ret < 0 then unknownStr else yesNo (ret ≠ 0))

/-- `PR_GET_SECUREBITS`. -/
def showSecurebits : Show Unit := do
  let (ret, _) ← Call.prctl "PR_GET_SECUREBITS"
  if ret < 0 then
    entry "securebits" unknownStr
  else do
    sectionOpen "securebits"
    entry "value" (lit "0x" ++ fmtX ret.toNat)
    containerOpen "fields"
    ["SECBIT_KEEP_CAPS", "SECBIT_NO_SETUID_FIXUP", "SECBIT_NOROOT"].forM (showConst env ret.toNat)
    containerClose
    sectionClose

/-- `show_capabilities_linux`. -/
def showCapabilitiesLinux : Show Unit := do
  if !env.build.defined "HAVE_SYS_CAPABILITY_H" then return
  let caps ← Call.capGetProc
  entry "count (CAP_LAST_CAP+1)" (fmtD (env.build.value "CAP_LAST_CAP" + 1))
  if !caps then return
  sectionOpen "known"
  knownCapabilities.forM fun (version, guarded, caps) => showCapabilityGroup env version guarded caps
  sectionClose
  sectionOpen "unknown"
  ifdef env "PR_CAPBSET_READ" (showUnknownCapabilities env)
  sectionClose
  ifdef env "PR_GET_KEEPCAPS" (ifKernel env (some (2, 2, 18)) showKeepcaps)
  ifdef env "PR_GET_SECUREBITS" (ifdef env "HAVE_LINUX_SECUREBITS_H"
    (ifKernel env (some (2, 6, 26)) (showSecurebits env)))

/-! ## Files of the process -/

/-- A line of `/proc/self/cgroup`. -/
def showCgroup (line : MbStr) : Show Unit := do
  let buffer ← ofExcept (chompLine "show_cgroups_linux" line)
  when (!(← Call.alloc)) (die "failed to allocate storage")
  match strsep 58 buffer with
  | hierarchy :: subsystems :: path :: _ => do
    containerOpenNamed hierarchy
    objectOpen
    when (subsystems ≠ []) do entry "subsystems" (← str env subsystems)
    entry "path" (← str env path)
    objectClose
    containerClose
  | _ => return

/-- `show_cgroups_linux`. -/
def showCgroupsLinux : Show Unit := do
  let some content ← Call.fopen (bytes "/proc/self/cgroup") | return
  (fgetsLines procenvBuffer [] content).forM (showCgroup env)

/-- What `show_fds_linux` shows of a terminal. -/
def showFdTerminal (link : MbStr) (st : Stat) : Show Unit := do
  let modestr ← formatPerms st.mode
  sectionOpen "permissions"
  entries [("octal", fmtO (permBits st.mode)), ("symbolic", modestr)]
  sectionClose
  let (major, minor) ← getMajorMinor link
  entries [("major", fmtU major), ("minor", fmtU minor)]
  sectionOpen "owner"
  entry "user (uid)" (← withName env st.uid (← getUserName st.uid))
  -- as in `show_stat`, the group is looked up by the number of the user
  entry "group (gid)" (← withName env st.gid (← getGroupName st.uid))
  sectionClose

/-- An entry of `/proc/self/fd`. -/
def showFd (name : MbStr) : Show Unit := do
  if name = bytes "." ∨ name = bytes ".." then return
  let fd := atoi name
  let some link ← Call.readlink (bytes "/proc/self/fd/" ++ name) | return
  assert "show_fds_linux" (link ≠ [])
  let some st ← Call.stat link | return
  -- the last entry is the directory itself
  if link.head? = some 47 ∧ st.mode &&& 0o170000 = 0o040000 then return
  objectOpen
  sectionOpenNamed (bytes (toString fd))
  let isTty ← Call.isatty fd
  entry "terminal" (yesNo isTty)
  entry "valid" (yesNo (← fdValid fd))
  sectionOpen "device"
  entry "name" (← str env link)
  when isTty (showFdTerminal env link st)
  sectionClose
  sectionClose
  objectClose

/-- `show_fds_linux`. -/
def showFdsLinux : Show Unit := do
  let some names ← Call.opendir (bytes "/proc/self/fd") | return
  names.forM (showFd env)

/-- `pr_list_prepend_str_sorted`, on the strings of the list. -/
def insertSorted (x : MbStr) (list : List MbStr) : List MbStr := Data.insertBehind byteLe x list

/-- An entry of `/proc/self/ns`, into the list. -/
def addNamespace (list : List MbStr) (name : MbStr) : Show (List MbStr) := do
  if name = bytes "." ∨ name = bytes ".." then return list
  let some link ← Call.readlink (bytes "/proc/self/ns/" ++ name) | return list
  assert "show_namespaces_linux" (link ≠ [])
  return insertSorted (name ++ [32] ++ link) list

/-- A string of the list: the name and the link. -/
def showNamespace (line : MbStr) : Show Unit := do
  match line.span (· ≠ 32) with
  | (_, []) => return
  | (name, _ :: value) => do
    objectOpen
    entryNamed name (← str env value)
    objectClose

/-- `show_namespaces_linux`. -/
def showNamespacesLinux : Show Unit := do
  let some names ← Call.opendir (bytes "/proc/self/ns") | return
  let list ← names.foldlM addNamespace []
  list.forM (showNamespace env)

/-- A file of `show_oom_linux`: its lines, and that one was seen. -/
def showOomFile (seen : Bool) (file : String) : Show Bool := do
  let some content ← Call.fopen (bytes "/proc/self/" ++ bytes file) | return seen
  (fgetsLines procenvBuffer [] content).forM fun line => do
    let buffer ← ofExcept (chompLine "show_oom_linux" line)
    entry file (← str env buffer)
  return true

/-- `show_oom_linux`. -/
def showOomLinux : Show Unit := do
  let seen ← ["oom_score", "oom_adj", "oom_score_adj"].foldlM (showOomFile env) false
  -- the format of the entry is its name
  when (!seen) (entry "%s" unknownStr)

/-- `str` of `handle_proc_branch_linux`, from what the files say. -/
def procBranchText (procs : List (MbStr × MbStr)) (missing : Bool) : MbStr :=
  (procs.flatMap fun (pid, name) =>
    pid ++ bytes " ('" ++ name ++ if pid = bytes "1" then bytes "')" else bytes "'), ") ++
    if missing then bytes "unknown" else []

/-- `handle_proc_branch_linux`. -/
def handleProcBranchLinux : Show Unit := do
  let (procs, missing) ← Call.procBranch
  entry "ancestry" (← str env (procBranchText procs missing))

/-! ## Processors, priorities and limits -/

/-- `show_cpu_linux`. -/
def showCpuLinux : Show Unit := do
  let max ← getSysconf "_SC_NPROCESSORS_ONLN"
  let cpu ← Call.schedGetcpu
  entry "number" ((if cpu < 0 then unknownStr else fmtD (cpu + 1)) ++ lit " of " ++ fmtD max)

/-- `handle_scheduler_type_linux`. -/
def handleSchedulerTypeLinux : Show Unit := do
  let sched ← Call.schedGetscheduler
  let name ← ofExcept (getSchedulerName env.build sched)
  entry "type" (if sched < 0 then unknownStr else lit (name.getD "(null)"))

/-- A section of `show_io_priorities_linux`. -/
def showIoPriority (name : String) (ioprio : Int) : Show Unit := do
  sectionOpen name
  let cls ← ofExcept (getIoprioClassName env.build (ioprio / 2 ^ 13))
  entry "class" (lit (cls.getD "(null)"))
  entry "priority" (fmtD (ioprio % 2 ^ 13))
  sectionClose

/-- `show_io_priorities_linux`. -/
def showIoPrioritiesLinux : Show Unit := do
  showIoPriority env "process" env.priorityIo.process
  showIoPriority env "group" env.priorityIo.pgrp
  showIoPriority env "user" env.priorityIo.user

/-- `show_limit`. -/
def showLimit (limit : String) : Show Unit := do
  let some (cur, max) ← Call.getrlimit limit | die "failed to query rlimit '%s'" [bytes limit]
  sectionOpen limit
  sectionOpen "soft"
  entries [("current", fmtU cur), ("max", fmtU (2 ^ 64 - 1))]
  sectionClose
  sectionOpen "hard"
  entries [("current", fmtU max), ("max", fmtU (2 ^ 64 - 1))]
  sectionClose
  sectionClose

/-- The limits of `show_rlimits_linux`, with the kernel that has them if they are inside
`#if defined`. -/
def rlimits : List (String × Option (Int × Int × Int)) :=
  [("RLIMIT_AS", none), ("RLIMIT_CORE", none), ("RLIMIT_CPU", none), ("RLIMIT_DATA", none),
   ("RLIMIT_FSIZE", none), ("RLIMIT_RTTIME", some (2, 6, 25)), ("RLIMIT_LOCKS", none),
   ("RLIMIT_MEMLOCK", none), ("RLIMIT_MSGQUEUE", some (2, 6, 8)), ("RLIMIT_NICE", some (2, 6, 12)),
   ("RLIMIT_NOFILE", none), ("RLIMIT_NPROC", none), ("RLIMIT_RSS", none), ("RLIMIT_RTPRIO", none),
   ("RLIMIT_SIGPENDING", some (2, 6, 8)), ("RLIMIT_STACK", none)]

/-- `show_rlimits_linux`. -/
def showRlimitsLinux : Show Unit := rlimits.forM fun (limit, version) =>
  when (version.isNone || env.build.defined limit) (ifKernel env version (showLimit limit))

/-! ## Memory -/

/-- `handle_numa_memory_linux`, after the header. -/
def showNuma : Show Unit := do
  if !env.build.defined "HAVE_NUMA_H" then return
  if (← Call.numaAvailable) < 0 then return
  entry "api version" (fmtD 2)
  let some policy ← Call.getMempolicy | entry "policy" unknownStr
  let policyName ← ofExcept (getNumaPolicy env.build policy)
  entry "policy" (policyName.elim unknownStr lit)
  entry "maximum nodes" (fmtD (← Call.numaNumPossibleNodes))
  entry "configured nodes" (fmtD (← Call.numaNumConfiguredNodes))
  let some allowed ← Call.numaGetMemsAllowed | die "failed to query NUMA allowed list"
  let allowedList := rangeList allowed
  entry "allowed list" (if allowedList = [] then lit "(null)" else allowedList)

/-- `handle_numa_memory_linux`. -/
def handleNumaMemoryLinux : Show Unit := do
  header "numa"
  showNuma env
  footer

/-! ## `prctl` and the security module -/

/-- A `switch` over constants. -/
def switch (n : Int) (cases : List (String × String)) : WStr :=
  ((cases.find? fun (const, _) => env.build.value const = n).map fun (_, text) => lit text).getD unknownStr

/-- `rc < 0 ? UNKNOWN_STR : text`. -/
def unlessFailed (rc : Int) (text : WStr) : WStr := if rc < 0 then unknownStr else text

/-- An option of `show_prctl_linux`: shown with the text of the result and of what `prctl` stores. -/
def showPrctl (option : String) (version : Option (Int × Int × Int)) (name : String)
    (text : (rc arg2 : Int) → WStr) : Show Unit :=
  ifdef env option (ifKernel env version do
    let (rc, arg2) ← Call.prctl option
    entry name (unlessFailed rc (text rc arg2)))

/-- `PR_GET_NAME`. -/
def showPrctlName : Show Unit :=
  ifdef env "PR_GET_NAME" (ifKernel env (some (2, 6, 11)) do
    entry "process name" (← strOr env unknownStr (← Call.prctlName)))

/-- `show_prctl_linux`. -/
def showPrctlLinux : Show Unit := do
  showPrctl env "PR_GET_ENDIAN" (some (2, 6, 18)) "process endian" fun _ arg2 =>
    switch env arg2 [("PR_ENDIAN_BIG", "big"), ("PR_ENDIAN_LITTLE", "little"),
      ("PR_ENDIAN_PPC_LITTLE", "PowerPC pseudo little endian")]
  showPrctl env "PR_GET_DUMPABLE" (some (2, 3, 20)) "dumpable" fun rc _ =>
    if rc = 0 then yesNo false else if rc = 1 then yesNo true else if rc = 2 then lit "root-only" else unknownStr
  showPrctl env "PR_GET_FPEMU" (some (2, 4, 18)) "floating point emulation" fun _ arg2 =>
    switch env arg2 [("PR_FPEMU_NOPRINT", "yes"), ("PR_FPEMU_SIGFPE", "send SIGFPE")]
  showPrctl env "PR_GET_FPEXC" (some (2, 4, 21)) "floating point exceptions" fun _ arg2 =>
    switch env arg2 [("PR_FP_EXC_SW_ENABLE", "software"), ("PR_FP_EXC_DISABLED", "disabled"),
      ("PR_FP_EXC_NONRECOV", "non-recoverable"), ("PR_FP_EXC_ASYNC", "asynchronous"),
      ("PR_FP_EXC_PRECISE", "precise")]
  showPrctlName env
  showPrctl env "PR_GET_PDEATHSIG" (some (2, 3, 15)) "parent death signal" fun rc arg2 =>
    if rc = 0 then lit "disabled" else fmtD arg2
  showPrctl env "PR_GET_SECCOMP" (some (2, 6, 23)) "secure computing" fun rc _ =>
    if rc = 0 then lit "disabled" else if rc = 1 then lit "read/write/exit (mode 1)"
    else if rc = 2 then lit "BPF (mode 2)" else unknownStr
  showPrctl env "PR_GET_TIMING" (some (2, 6, 1)) "process timing" fun rc _ =>
    switch env rc [("PR_TIMING_STATISTICAL", "statistical"), ("PR_TIMING_TIMESTAMP", "time-stamp")]
  showPrctl env "PR_GET_TSC" (some (2, 6, 26)) "timestamp counter read" fun _ arg2 =>
    switch env arg2 [("PR_TSC_ENABLE", "enabled"), ("PR_TSC_SIGSEGV", "segmentation fault")]
  showPrctl env "PR_GET_UNALIGN" (some (2, 3, 48)) "unaligned access" fun _ arg2 =>
    switch env arg2 [("PR_UNALIGN_NOPRINT", "fix-up"), ("PR_UNALIGN_SIGBUS", "send SIGBUS")]
  showPrctl env "PR_MCE_KILL_GET" (some (2, 6, 32)) "machine-check exception" fun rc _ =>
    switch env rc [("PR_MCE_KILL_DEFAULT", "system default"), ("PR_MCE_KILL_EARLY", "early kill"),
      ("PR_MCE_KILL_LATE", "late kill")]
  showPrctl env "PR_GET_NO_NEW_PRIVS" (some (3, 5, -1)) "no new privileges" fun rc _ =>
    if rc = 0 then lit "normal execve" else if rc = 1 then lit "enabled" else unknownStr
  showPrctl env "PR_GET_TIMERSLACK" (some (2, 6, 28)) "timer slack" fun rc _ => fmtD rc ++ lit "ns"
  showPrctl env "PR_GET_CHILD_SUBREAPER" (some (3, 4, -1)) "child subreaper" fun _ arg2 => yesNo (arg2 ≠ 0)
  showPrctl env "PR_GET_TID_ADDRESS" none "clear child tid address" fun _ arg2 =>
    if arg2 = 0 then lit "(nil)" else lit "0x" ++ fmtX (wrap64 arg2)
  showPrctl env "PR_GET_SPECULATION_CTRL" none "speculation" fun rc _ => lit "0x" ++ fmtX rc.toNat
  showPrctl env "PR_GET_TAGGED_ADDR_CTRL" none "tagged address mode" fun rc _ => fmtD rc
  showPrctl env "PR_GET_FP_MODE" none "floating-point mode" fun rc _ => lit "0x" ++ fmtX rc.toNat
  showPrctl env "PR_GET_IO_FLUSHER" none "I/O flusher state" fun rc _ => fmtD rc
  showPrctl env "PR_GET_THP_DISABLE" none "THP disable flag" fun rc _ => fmtD rc

/-- The context and the mode from AppArmor. -/
def apparmorContext : Show (Option MbStr × Option MbStr) := do
  if !env.build.defined "HAVE_APPARMOR" then return (none, none)
  if !(← Call.aaIsEnabled) then return (none, none)
  let some context ← Call.aaGettaskcon | die "failed to query AppArmor context"
  return context

/-- The context from SELinux, or the one there is. -/
def selinuxContext (context : Option MbStr) : Show (Option MbStr) := do
  if !env.build.defined "HAVE_SELINUX_SELINUX_H" then return context
  if (← Call.isSelinuxEnabled) = 0 then return context
  let some context ← Call.getpidcon | die "failed to query SELinux context"
  return context

/-- `show_security_module_context_linux`. -/
def showSecurityModuleContextLinux : Show Unit := do
  let (context, mode) ← apparmorContext env
  match ← selinuxContext env context with
  | none => entry "context" unknownStr
  | some context => do
    let context ← str env context
    match mode with
    | some mode => entry "context" (context ++ lit " (" ++ (← str env mode) ++ lit ")")
    | none => entry "context" context

/-- The name of the security module. -/
def securityModule : Show WStr := do
  let apparmor ← if env.build.defined "HAVE_APPARMOR" then liftM Call.aaIsEnabled else pure false
  let lsm := if apparmor then lit "AppArmor" else unknownStr
  if !env.build.defined "HAVE_SELINUX_SELINUX_H" then return lsm
  if (← Call.isSelinuxEnabled) ≠ 1 then return lsm
  return if (← Call.isSelinuxMlsEnabled) = 1 then lit "SELinux (MLS)" else lit "SELinux"

/-- `show_security_module_linux`. -/
def showSecurityModuleLinux : Show Unit := do
  entry "name" (← securityModule env)
  showSecurityModuleContextLinux env

/-! ## Message queues, semaphores and shared memory -/

/-- `pid_to_name`. -/
def pidToName (pid : Int) : Show (Option MbStr) := do
  let some content ← Call.fopen (bytes "/proc/" ++ bytes (toString pid) ++ bytes "/cmdline") | return none
  match fgetsLines pathMax [] content with
  | [] => return none
  | line :: _ => return some (line.takeWhile (· ≠ 0))

/-- The permissions of an IPC object. -/
def showIpcPermissions (perm : IpcPerm) (modestr : WStr) : Show Unit := do
  sectionOpen "permissions"
  entries [("octal", fmtO perm.mode), ("symbolic", modestr)]
  sectionClose

/-- The creator and the owner of an IPC object. -/
def showIpcOwners (perm : IpcPerm) : Show Unit := do
  sectionOpen "creator"
  entry "euid" (← withName env perm.cuid (← getUserName perm.cuid))
  entry "egid" (← withName env perm.cgid (← getGroupName perm.cgid))
  sectionClose
  sectionOpen "owner"
  entry "uid" (← withName env perm.uid (← getUserName perm.uid))
  entry "gid" (← withName env perm.gid (← getGroupName perm.gid))
  sectionClose

/-- The key and the sequence number of an IPC object. -/
def showIpcKey (perm : IpcPerm) : Show Unit :=
  entries [("key", lit "0x" ++ fmtHex (2 * env.build.sizeof "void *") perm.key), ("sequence", fmtU perm.seq)]

/-- A time that may not have been set. -/
def formatTimeOrNa (t : Nat) : Show WStr := if t ≠ 0 then formatTime env t else pure naStr

/-- A time and its text. -/
def timeText (t : Nat) (text : WStr) : WStr := fmtU t ++ lit " (" ++ text ++ lit ")"

/-- A process and its name. -/
def pidText (pid : Int) (name : Option MbStr) : Show WStr := do
  return fmtD pid ++ lit " (" ++ (← strOr env unknownStr name) ++ lit ")"

/-- A queue of `show_msg_queues_linux`. -/
def showMsgQueue (i : Nat) : Show Unit := do
  let some (id, ds) ← Call.msgStat i | return
  let modestr ← formatPerms ds.perm.mode
  let formattedStime ← formatTimeOrNa env ds.stime
  let formattedRtime ← formatTimeOrNa env ds.rtime
  let formattedCtime ← formatTimeOrNa env ds.ctime
  let lspid ← pidToName ds.lspid
  let lrpid ← pidToName ds.lrpid
  containerOpenNamed (bytes (toString id))
  objectOpen
  showIpcKey env ds.perm
  showIpcPermissions ds.perm modestr
  showIpcOwners env ds.perm
  sectionOpen "times"
  entries [("last send (stime)", timeText ds.stime formattedStime),
    ("last receive (rtime)", timeText ds.rtime formattedRtime),
    ("last change (ctime)", timeText ds.ctime formattedCtime)]
  sectionClose
  entries [("queue_bytes", fmtU ds.cbytes), ("msg_qnum", fmtU ds.qnum), ("msg_qbytes", fmtU ds.qbytes)]
  entry "last msgsnd pid" (← pidText env ds.lspid lspid)
  entry "last msgrcv pid" (← pidText env ds.lrpid lrpid)
  objectClose
  containerClose

/-- `show_msg_queues_linux`. -/
def showMsgQueuesLinux : Show Unit := do
  let some (max, info) ← Call.msgInfo | return
  sectionOpen "info"
  entries [("msgpool", fmtD info.msgpool), ("msgmap", fmtD info.msgmap), ("msgmax", fmtD info.msgmax),
    ("msgmnb", fmtD info.msgmnb), ("msgmni", fmtD info.msgmni), ("msgssz", fmtD info.msgssz),
    ("msgtql", fmtD info.msgtql), ("msgseg", fmtD info.msgseg)]
  sectionClose
  containerOpen "sets"
  objectOpen
  (List.range (max + 1)).forM (showMsgQueue env)
  objectClose
  containerClose

/-- A set of `show_semaphores_linux`. -/
def showSemaphore (i : Nat) : Show Unit := do
  let some (id, ds) ← Call.semStat i | return
  let modestr ← formatPerms ds.perm.mode
  let formattedOtime ← formatTimeOrNa env ds.otime
  let formattedCtime ← formatTime env ds.ctime
  containerOpenNamed (bytes (toString id))
  objectOpen
  showIpcKey env ds.perm
  entry "number in set" (fmtU ds.nsems)
  showIpcPermissions ds.perm modestr
  showIpcOwners env ds.perm
  sectionOpen "times"
  entries [("last semop (otime)", timeText ds.otime formattedOtime),
    ("last change (ctime)", timeText ds.ctime formattedCtime)]
  sectionClose
  objectClose
  containerClose

/-- `show_semaphores_linux`. -/
def showSemaphoresLinux : Show Unit := do
  let some (max, info) ← Call.semInfo | return
  sectionOpen "info"
  entries [("semmap", fmtD info.semmap), ("semmni", fmtD info.semmni), ("semmns", fmtD info.semmns),
    ("semmnu", fmtD info.semmnu), ("semmsl", fmtD info.semmsl), ("semopm", fmtD info.semopm),
    ("semume", fmtD info.semume), ("semusz", fmtD info.semusz), ("semvmx", fmtD info.semvmx),
    ("semaem", fmtD info.semaem)]
  sectionClose
  containerOpen "set"
  objectOpen
  (List.range (max + 1)).forM (showSemaphore env)
  objectClose
  containerClose

/-- A segment of `show_shared_mem_linux`. -/
def showSegment (i : Nat) : Show Unit := do
  let some (id, ds) ← Call.shmStat i | return
  let modestr ← formatPerms ds.perm.mode
  let flag (const : String) := ds.perm.mode &&& (env.build.value const).toNat ≠ 0
  let formattedAtime ← formatTime env ds.atime
  let formattedCtime ← formatTime env ds.ctime
  let formattedDtime ← formatTime env ds.dtime
  let cpid ← pidToName ds.cpid
  let lpid ← pidToName ds.lpid
  containerOpenNamed (bytes (toString id))
  objectOpen
  showIpcKey env ds.perm
  showIpcPermissions ds.perm modestr
  sectionOpen "pids"
  entry "create" (← pidText env ds.cpid cpid)
  entry "last" (← pidText env ds.lpid lpid)
  sectionClose
  entry "attachers" (fmtU ds.nattch)
  showIpcOwners env ds.perm
  entry "segment size" (fmtU ds.segsz)
  sectionOpen "times"
  entries [("last attach (atime)", timeText ds.atime formattedAtime),
    ("last detach (dtime)", timeText ds.dtime formattedDtime),
    ("last change (ctime)", timeText ds.ctime formattedCtime)]
  sectionClose
  entries [("locked", yesNo (flag "SHM_LOCKED")), ("destroy", yesNo (flag "SHM_DEST"))]
  objectClose
  containerClose

/-- `show_shared_mem_linux`. -/
def showSharedMemLinux : Show Unit := do
  let some (max, info) ← Call.shmInfo | return
  sectionOpen "info"
  entries [("segments", fmtU info.usedIds), ("pages", fmtU info.shmTot), ("shm_rss", fmtU info.shmRss),
    ("shm_swp", fmtU info.shmSwp), ("swap_attempts", fmtU info.swapAttempts),
    ("swap_successes", fmtU info.swapSuccesses)]
  sectionClose
  containerOpen "segments"
  objectOpen
  (List.range (max + 1)).forM (showSegment env)
  objectClose
  containerClose

/-! ## Interfaces and terminals -/

/-- `show_extended_if_flags_linux`. -/
def showExtendedIfFlagsLinux (interface : MbStr) : Show Unit := do
  if !(← Call.socket) then return
  let some flags ← Call.ioctlPflags interface | return
  showFlags flags (env.build.map Tables.ifExtendedFlagMapLinux)

/-- `get_tty_locked_status_linux`: all unlocked if the call fails. -/
def getTtyLockedStatusLinux (ttyFd : Int) : Show Termios := do
  match ← Call.ioctlLocked ttyFd with
  | some locked => return locked
  | none => return { iflag := 0, oflag := 0, cflag := 0, lflag := 0, cc := fun _ => 0, ispeed := 0, ospeed := 0 }

/-- The name `in_vm_linux` looks for on the first line of flags. -/
def containsText (pattern : MbStr) : MbStr → Bool
  | [] => pattern.isEmpty
  | c :: cs => pattern.isPrefixOf (c :: cs) || containsText pattern cs

/-- `in_vm_linux`. -/
def inVmLinux : Show Bool := do
  let some content ← Call.fopen (bytes "/proc/cpuinfo") | return false
  let lines := (fgetsLines procenvBuffer [] content).map fun line => line.takeWhile (· ≠ 0)
  match lines.find? fun line => (bytes "flags").isPrefixOf line with
  | none => return false
  | some line => return containsText (bytes "hypervisor") line

end Procenv.Show
