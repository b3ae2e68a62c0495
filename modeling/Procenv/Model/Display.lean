import Procenv.Model.Linux

/-!
# The display routines

The `show_*` functions of `procenv.c` with the Linux platform operations, and
`showRoutine`, the function behind each name of `Routine`.
-/

namespace Procenv.Show

open Text

variable (env : Env)

/-! ## The program and its build -/

/-- `get_output_format_name`. -/
def getOutputFormatName (fmt : OutputFormat) : MbStr :=
  ((outputFormatMap.find? fun (_, f) => f = fmt).map Prod.fst).getD []

/-- `show_meta`. -/
def showMeta : Show Unit := do
  let buildType := if env.build.defined "PROCENV_REPRODUCIBLE_BUILD" then "reproducible" else "standard"
  header "meta"
  entry "version" packageVersion
  entry "package" packageString
  entry "mode" ((if env.user.euid ≠ 0 then lit "non-" else []) ++ lit "privileged")
  entry "build-type" (lit buildType)
  sectionOpen "driver"
  entry "name" (lit "linux")
  entry "file" (← str env (env.build.text "linux/platform.c"))
  sectionClose
  entry "format-type" (← str env (getOutputFormatName env.outputFormat))
  entry "format-version" procenvFormatVersion
  footer

/-- An argument of `show_arguments`. -/
def showArgument (arg : MbStr) (i : Nat) : Show Unit := do
  objectOpen
  entryNamed (bytes "argv[" ++ bytes (toString i) ++ bytes "]") (← str env arg)
  objectClose

/-- `show_arguments`. -/
def showArguments : Show Unit := do
  header "arguments"
  entry "count" (fmtU env.argvp.length)
  containerOpen "list"
  env.argvp.zipIdx.forM fun (arg, i) => showArgument env arg i
  containerClose
  footer

/-- The name of the compiler, and the macro of its version. -/
def compilerName : Option (String × String) :=
  if env.build.defined "__INTEL_COMPILER" then some ("Intel", "__ICC")
  else if env.build.defined "__clang__" then some ("Clang/LLVM", "__clang_version__")
  else if env.build.defined "__GNUC__" then some ("GCC", "__VERSION__")
  else none

/-- A string macro, suppressed in a reproducible build. -/
def showBuildMacro (name const : String) : Show Unit := do
  let value ← str env (env.build.text const)
  entry name (if env.build.defined "PROCENV_REPRODUCIBLE_BUILD" then lit "[suppressed]" else value)

/-- A macro of `show_compiler`, with its value if that is shown. -/
def showFeatureTestMacro (const : String) (hasValue : Bool) : Show Unit :=
  entry const (if hasValue && env.build.defined const then fmtD (env.build.value const)
    else definedStr (env.build.defined const))

/-- `show_compiler`. -/
def showCompiler : Show Unit := do
  let compiler := compilerName env
  header "compiler"
  entry "name" (compiler.elim unknownStr fun (name, _) => lit name)
  entry "version" (← strOr env unknownStr (compiler.map fun (_, version) => env.build.text version))
  showBuildMacro env "compile date (__DATE__)" "__DATE__"
  showBuildMacro env "compile time (__TIME__)" "__TIME__"
  ifdef env "__TIMESTAMP__" (showBuildMacro env "timestamp (__TIMESTAMP__)" "__TIMESTAMP__")
  entry "translation unit (__FILE__)" (← str env (env.build.text "__FILE__"))
  entry "base file (__BASE_FILE__)" (← str env (env.build.text "__BASE_FILE__"))
  sectionOpen "feature test macros"
  Tables.featureTestMacros.forM fun (const, hasValue) => showFeatureTestMacro env const hasValue
  sectionClose
  footer

/-- The value of a macro, the one there is if it is not defined. -/
def valueOr (build : Build) (default : Int) (const : String) : Int :=
  if build.defined const then build.value const else default

/-- The name, the version and the minor version of the C library. -/
def libcName : Option String × Int × Int :=
  let build := env.build
  let (name, version, minor) := if build.defined "__GLIBC__"
    then (some "GNU libc (glibc)", build.value "__GLIBC__", valueOr build (-1) "__GLIBC_MINOR__")
    else (none, -1, -1)
  let (name, version, minor) := if build.defined "__UCLIBC__"
    then (some "uClibc", valueOr build version "__UCLIBC_MAJOR__", valueOr build minor "__UCLIBC_MINOR__")
    else (name, version, minor)
  let (name, version, minor) := if build.defined "__KLIBC__"
    then (some "klibc", build.value "__KLIBC__", valueOr build minor "__KLIBC_MINOR__")
    else (name, version, minor)
  let name := if build.defined "__dietlibc__" then some "dietlibc" else name
  let name := if build.defined "__BIONIC__" then some "bionic" else name
  let name := if build.defined "_PICOLIBC__" then some "pico" else name
  (name, version, minor)

/-- `show_libc`. -/
def showLibc : Show Unit := do
  let (name, version, minor) := libcName env
  header "libc"
  entry "name" (name.elim unknownStr lit)
  entry "version" (unlessFailed version (fmtD version))
  entry "minor" (unlessFailed minor (fmtD minor))
  footer

/-- The size of a type. -/
def sizeText (type : String) : WStr :=
  fmtU (env.build.sizeof type) ++ if env.build.sizeof type = 1 then lit " byte" else lit " bytes"

/-- `show_sizeof_type`. -/
def showSizeofType (type : String) : Show Unit := entry type (sizeText env type)

/-- `show_size`. -/
def showSize (type : String) : Show Unit := entry "size" (sizeText env type)

/-- `show_sizeof`. -/
def showSizeof : Show Unit := do
  header "sizeof"
  entry "bits/byte (CHAR_BIT)" (fmtD (env.build.value "CHAR_BIT"))
  Tables.sizeofTypes.forM (showSizeofType env)
  footer

/-- An integer type of `show_ranges`: its name, the names of its bounds, and the bits that the format
takes of the unsigned bound, 32 for `%u` and `%x`. -/
def showIntRange (type unsignedMax min max : String) (bits : Nat) : Show Unit := do
  let width := 2 * env.build.sizeof type
  let bound := (env.build.value unsignedMax).toNat % 2 ^ bits
  sectionOpen type
  showSize env type
  sectionOpen "unsigned"
  entries [("decimal", lit "0 to " ++ fmtU bound), ("symbolic", lit "0 to " ++ lit unsignedMax),
    ("scientific", lit "0.000000e+00 to " ++ env.build.scientific unsignedMax),
    ("hex", lit "0x" ++ fmtHex width 0 ++ lit " to 0x" ++ fmtHex width bound)]
  sectionClose
  sectionOpen "signed"
  entries [("decimal", fmtD (env.build.value min) ++ lit " to " ++ fmtD (env.build.value max)),
    ("symbolic", lit min ++ lit " to " ++ lit max)]
  sectionClose
  sectionClose

/-- A floating type of `show_ranges`. -/
def showFloatRange (type min max : String) : Show Unit := do
  sectionOpen type
  showSize env type
  entries [("signed", env.build.scientific min ++ lit " to " ++ env.build.scientific max),
    ("symbolic", lit min ++ lit " to " ++ lit max)]
  sectionClose

/-- `show_ranges`. -/
def showRanges : Show Unit := do
  header "ranges"
  showIntRange env "char" "UCHAR_MAX" "SCHAR_MIN" "SCHAR_MAX" 32
  showIntRange env "short int" "USHRT_MAX" "SHRT_MIN" "SHRT_MAX" 32
  showIntRange env "int" "UINT_MAX" "INT_MIN" "INT_MAX" 32
  showIntRange env "long int" "ULONG_MAX" "LONG_MIN" "LONG_MAX" 32
  showIntRange env "long long int" "ULLONG_MAX" "LLONG_MIN" "LLONG_MAX" 64
  showFloatRange env "float" "FLT_MIN" "FLT_MAX"
  showFloatRange env "double" "DBL_MIN" "DBL_MAX"
  showFloatRange env "long double" "LDBL_MIN" "LDBL_MAX"
  footer

/-! ## Platform operations under a header -/

/-- A section around a platform operation. -/
def underHeader (name : String) (m : Show Unit) : Show Unit := do
  header name
  m
  footer

/-- A container around a platform operation. -/
def underContainer (name : String) (m : Show Unit) : Show Unit := do
  containerOpen name
  m
  containerClose

/-- `show_capabilities`. -/
def showCapabilities : Show Unit := underHeader "capabilities" (showCapabilitiesLinux env)

/-- `show_cgroups`. -/
def showCgroups : Show Unit := underHeader "cgroups" (showCgroupsLinux env)

/-- `show_clocks`. -/
def showClocks : Show Unit := underHeader "clocks" (showClocksGeneric env)

/-- `show_confstrs`. -/
def showConfstrs : Show Unit := underHeader "confstr" (showConfstrsGeneric env)

/-- `show_rlimits`. -/
def showRlimits : Show Unit := underHeader "limits" (showRlimitsLinux env)

/-- `show_msg_queues`. -/
def showMsgQueues : Show Unit := underHeader "message queues" (showMsgQueuesLinux env)

/-- `show_mounts`. -/
def showMounts (what : ShowMountType) : Show Unit :=
  underHeader (if what = .pathconf then "pathconf" else "mounts") (showMountsGenericLinux env what)

/-- `show_oom`. -/
def showOom : Show Unit := underHeader "oom" (showOomLinux env)

/-- `show_semaphores`. -/
def showSemaphores : Show Unit := underHeader "semaphores" (showSemaphoresLinux env)

/-- `show_shared_mem`. -/
def showSharedMem : Show Unit := underHeader "shared memory" (showSharedMemLinux env)

/-- `show_timezone`. -/
def showTimezone : Show Unit := underHeader "timezone" (showTimezoneGeneric env)

/-- `show_fds`. -/
def showFds : Show Unit := underContainer "file descriptors" (showFdsLinux env)

/-- `show_libs`. -/
def showLibs : Show Unit := underContainer "libraries" (showLibsGeneric env)

/-- `show_namespaces`. -/
def showNamespaces : Show Unit := underContainer "namespaces" (showNamespacesLinux env)

/-! ## The system -/

/-- `show_priorities`. -/
def showPriorities : Show Unit := do
  sectionOpen "scheduler"
  handleSchedulerTypeLinux env
  sectionOpen "priority"
  entries [("process", fmtD env.priority.process), ("process group", fmtD env.priority.pgrp),
    ("user", fmtD env.priority.user)]
  sectionClose
  sectionOpen "I/O priority"
  showIoPrioritiesLinux env
  sectionClose
  sectionClose

/-- `show_cpu`. -/
def showCpu : Show Unit := do
  header "cpu"
  showCpuLinux
  showCpuAffinitiesGeneric
  showPriorities env
  footer

/-- `show_memory`. -/
def showMemory : Show Unit := do
  header "memory"
  entry "page size" (fmtD (← Call.getpagesize) ++ lit " bytes")
  showMemoryGeneric
  handleNumaMemoryLinux env
  footer

/-- `show_data_model`. -/
def showDataModel : Show Unit := do
  let (int, long, ptr) := (env.build.sizeof "int", env.build.sizeof "long", env.build.sizeof "void *")
  let dataModel :=
    if (int, long, ptr) = (2, 4, 4) then lit "LP32"
    else if (int, long, ptr) = (4, 4, 4) then lit "ILP32"
    else if (int, long, ptr) = (4, 4, 8) ∧ env.build.sizeof "long long" = ptr then lit "LLP64"
    else if (int, long, ptr) = (4, 8, 8) then lit "LP64"
    else if (int, long, ptr) = (8, 8, 8) then lit "ILP64"
    else unknownStr
  when (8 < ptr) (die "%d-byte pointers not supported" [bytes (toString ptr)])
  entry "data model" (dataModel ++ lit " (" ++ fmtU int ++ lit "/" ++ fmtU long ++ lit "/" ++ fmtU ptr ++ lit ")")

/-- The first text whose condition holds. -/
def firstText (cases : List (Bool × String)) : WStr :=
  ((cases.find? Prod.fst).map fun (_, text) => lit text).getD unknownStr

/-- `get_os`, on Linux. -/
def getOs : WStr :=
  let defined := env.build.defined
  firstText [(defined "__s390x__", "Linux (zSeries)"), (defined "__s390__", "Linux (S/390)"),
    (defined "__sh__", "Linux (SuperH)"), (true, "Linux")]

/-- `get_arch`. -/
def getArch : WStr :=
  let defined := env.build.defined
  firstText [(defined "__arm__" && defined "__ARM_PCS_VFP", "ARMhf"),
    (defined "__arm__" && defined "__ARMEL__", "ARMEL"), (defined "__arm__", "ARM"),
    (defined "__aarch64__", "ARM64/AARCH64"),
    (defined "__OR1K__" || defined "__or1k__", "OpenRISC"), (defined "__hppa__", "HP/PA RISC"),
    (defined "__i386__", "i386"), (defined "__ia64__", "IA64"), (defined "__MIPSEL__", "MIPSEL"),
    (defined "__mips__", "MIPS"),
    ((defined "__powerpc64__" || defined "__ppc64__") && defined "_LITTLE_ENDIAN", "PPC64LE"),
    (defined "__powerpc64__" || defined "__ppc64__", "PPC64/PowerPC64"),
    (defined "__powerpc__" && defined "__SPE__" && env.build.value "__SIZEOF_POINTER__" = 4, "PPCspe"),
    (defined "__powerpc__", "PowerPC"), (defined "__sparc64__" || defined "__sparc_v9__", "Sparc64"),
    (defined "__sparc__", "Sparc"), (defined "__alpha__", "Alpha"), (defined "__m68k__", "m68k"),
    (defined "__ILP32__" && env.build.sizeof "void *" = 4, "x32"), (defined "__sh__", "SuperH"),
    (defined "__s390__" || defined "__zarch__" || defined "__SYSC_ZARCH__" || defined "__THW_370__", "SystemZ"),
    (defined "__x86_64__" || defined "__x86_64" || defined "__amd64", "x64/AMD64")]

/-- `get_kernel_bits_generic`. -/
def getKernelBitsGeneric : Show Int := do
  if !env.build.defined "_SC_LONG_BIT" then
    return env.build.sizeof "long" * env.build.value "CHAR_BIT"
  let (value, errno) ← Call.sysconf "_SC_LONG_BIT"
  return if value = -1 && errno then -1 else value

/-- `show_platform`. -/
def showPlatform : Show Unit := do
  header "platform"
  entry "operating system" (getOs env)
  entry "architecture" (getArch env)
  let kernelBits ← getKernelBitsGeneric env
  entry "kernel bits" (if kernelBits = -1 then unknownStr else fmtU (wrap64 kernelBits))
  entry "executable bits" (fmtD (env.build.sizeof "void *" * env.build.value "CHAR_BIT"))
  entry "code endian" (lit (if env.build.bigEndian then "big" else "little"))
  showDataModel env
  footer

/-- An entry of `sysconf_map`. -/
def showSysconfName (name : String) : Show Unit := do
  let value ← getSysconf name
  entry name (if value = -1 then naStr else fmtD value)

/-- `show_sysconf`. -/
def showSysconf : Show Unit := do
  header "sysconf"
  Tables.sysconfMap.forM fun name => ifdef env name (showSysconfName name)
  footer

/-- The domain name of `show_uname`. -/
def showDomainname : Show Unit := do
  let domainname ← str env env.uts.domainname
  entry "domainname" (if env.uts.domainname = [] then unknownStr else domainname)

/-- `show_uname`. -/
def showUname : Show Unit := do
  header "uname"
  entry "sysname" (← str env env.uts.sysname)
  entry "nodename" (← str env env.uts.nodename)
  entry "release" (← str env env.uts.release)
  entry "version" (← str env env.uts.version)
  entry "machine" (← str env env.uts.machine)
  ifdef env "_GNU_SOURCE" (showDomainname env)
  footer

/-- `show_time`. -/
def showTime : Show Unit := do
  let some (sec, nsec) ← Call.clockGettime | die "failed to determine time"
  let some tm ← Call.localtime sec | die "failed to determine localtime"
  let some formatted ← Call.asctime tm | die "failed to determine formatted time"
  let formatted ← ofExcept (chompLine "show_time" formatted)
  let pad (width : Nat) (n : Int) : WStr :=
    let digits := fmtU n.natAbs
    (if n < 0 then lit "-" else []) ++ List.replicate (width - digits.length) 48 ++ digits
  header "time"
  entry "raw" (fmtU (sec % 2 ^ 32) ++ lit "." ++ fmtU nsec)
  entry "local" (← str env formatted)
  entry "ISO" (pad 4 (1900 + tm.year) ++ lit "-" ++ pad 2 tm.mon ++ lit "-" ++ pad 2 tm.mday ++ lit "T" ++
    pad 2 tm.hour ++ lit ":" ++ pad 2 tm.min)
  footer

/-- `show_threads`. -/
def showThreads : Show Unit := do
  header "threads"
  entry "stack size" (fmtU (← Call.pthreadGetstacksize) ++ lit " bytes")
  let scope ← Call.pthreadGetscope
  entry "scope" (scope.elim unknownStr fun scope =>
    lit (if scope = env.build.value "PTHREAD_SCOPE_SYSTEM" then "PTHREAD_SCOPE_SYSTEM"
      else "PTHREAD_SCOPE_PROCESS"))
  let guardSize ← Call.pthreadGetguardsize
  entry "guard size" (guardSize.elim unknownStr fun size => fmtU size ++ lit " bytes")
  let sched ← Call.pthreadGetschedparam
  sectionOpen "scheduler"
  let name ← sched.elim (pure unknownStr) fun (policy, _) => do
    return lit ((← ofExcept (getThreadSchedulerName env.build policy)).getD "(null)")
  entry "type" name
  entry "priority" (sched.elim unknownStr fun (_, priority) => fmtD priority)
  let inheritSched ← Call.pthreadGetinheritsched
  entry "inherit-scheduler attribute" (inheritSched.elim unknownStr fun inherit =>
    lit (if inherit = env.build.value "PTHREAD_INHERIT_SCHED" then "PTHREAD_INHERIT_SCHED"
      else "PTHREAD_EXPLICIT_SCHED"))
  sectionClose
  entry "concurrency" (fmtD (← Call.pthreadGetconcurrency))
  footer

/-! ## The process -/

/-- `if (! p) die (message)` after an allocation. -/
def allocOrDie (message : String) : Show Unit := do when (!(← Call.alloc)) (die message)

/-- A variable of `show_env`, split at its first `=`. -/
def showEnvVar (var : MbStr) : Show Unit :=
  match var.span (· ≠ 61) with
  | (_, []) => .stop (.assertFailed "show_env")
  | (name, _ :: value) => do entryNamed name (← str env value)

/-- `show_env`. -/
def showEnv : Show Unit := do
  header "environment"
  allocOrDie "failed to allocate storage"
  env.environ.forM fun _ => allocOrDie "failed to allocate storage"
  let le ← Call.strcoll
  (env.environ.mergeSort le).forM (showEnvVar env)
  footer

/-- A category of `show_locale`. -/
def showLocaleCategory (category : String) : Show Unit := do
  entry category (← strOr env unknownStr (← Call.setlocale category))

/-- `show_locale`. -/
def showLocale : Show Unit := do
  header "locale"
  entry "LANG" (← strOr env [] (← Call.getenv "LANG"))
  entry "LANGUAGE" (← strOr env [] (← Call.getenv "LANGUAGE"))
  let value ← Call.setlocale "LC_ALL"
  when value.isSome (allocOrDie "failed to allocate space for locale")
  (env.build.map Tables.localeMap).forM fun (category, _) => showLocaleCategory env category
  entry "LC_ALL" (← strOr env [] (← Call.getenv "LC_ALL"))
  when value.isSome do let _ ← Call.setlocale "LC_ALL"
  footer

/-- `in_chroot`. -/
def inChroot : Show Bool := do
  let some root ← Call.stat (bytes "/") | die "cannot stat '%s'" [bytes "/"]
  if root.ino ≠ 2 ∧ root.ino ≠ 128 then return true
  if (← Call.stat (bytes "/proc/curproc")).isSome then return false
  let some self ← Call.stat (bytes "/proc/self/root") | return false
  return root.ino ≠ self.ino

/-- `container_type`. -/
def containerType : Show String := do
  let some console ← Call.stat (bytes "/dev/console") | return "no"
  if (console.rdevMajor, console.rdevMinor) ≠ (5, 1) then return "lxc"
  let vz ← Call.stat (bytes "/proc/vz")
  if vz.isSome then
    if (← Call.stat (bytes "/proc/bc")).isNone then return "openvz"
  let some content ← Call.fopen (bytes "/proc/self/status") | return "no"
  let lines := (fgetsLines 1024 [] content).map fun line => line.takeWhile (· ≠ 0)
  return if lines.any (bytes "VxID").isPrefixOf then "vserver" else "no"

/-- `get_personality_flags`. -/
def getPersonalityFlags (flags : Nat) : WStr :=
  let names := (env.build.map Tables.personalityFlagMapLinux).filter fun (_, num) => flags &&& num.toNat ≠ 0
  lit (", ".intercalate (names.map Prod.fst))

/-- The version of the kernel headers. -/
def showHeadersVersion : Show Unit :=
  let code := (env.build.value "LINUX_VERSION_CODE").toNat
  entry "kernel headers version"
    (fmtU (code / 2 ^ 16) ++ lit "." ++ fmtU (code / 2 ^ 8 % 2 ^ 8) ++ lit "." ++ fmtU (code % 2 ^ 8))

/-- `show_misc`. -/
def showMisc : Show Unit := do
  header "misc"
  entry "umask" (fmtO env.misc.umaskValue)
  entry "current directory (cwd)" (quoted (← str env env.misc.cwd))
  let root ← str env env.misc.root
  entry "root" (if env.misc.root = bytes "unknown" then root else quoted root)
  entry "chroot" (yesNo (← inChroot))
  entry "container" (lit (← containerType))
  entry "vm" (yesNo (← inVmLinux))
  sectionOpen "prctl"
  showPrctlLinux env
  sectionClose
  sectionOpen "security module"
  showSecurityModuleLinux env
  sectionClose
  ifdef env "LINUX_VERSION_CODE" (showHeadersVersion env)
  let domain ← Call.personality
  let name ← ofExcept (getPersonalityName env.build domain)
  sectionOpen "personality"
  entry "type" (name.elim unknownStr lit)
  entry "flags" (getPersonalityFlags env (domain - (domain &&& (env.build.value "PER_MASK").toNat)))
  sectionClose
  footer

/-- A group of `show_all_groups`. -/
def groupText (gid : Int) : Show MbStr := do
  let name := (← getGroupName gid).getD (bytes "(null)")
  return bytes "'" ++ name ++ bytes "' (" ++ bytes (toString gid) ++ bytes ")"

/-- `show_all_groups`. -/
def showAllGroups : Show Unit := do
  allocOrDie "failed to allocate space for groups"
  let some groups ← Call.getgroups | die "failed to allocate space for groups"
  if groups = [] then
    -- the group of the password entry stands in
    match ← getGroupName env.user.passwd.pwGid with
    | none => entry "groups" unknownStr
    | some group =>
      entry "groups" (lit " " ++ quoted (← str env group) ++ lit " (" ++ fmtD env.user.passwd.pwGid ++ lit ")")
  else do
    allocOrDie "failed to allocate space for group array"
    let names ← groups.mapM groupText
    let le ← Call.strcoll
    entry "groups" (← str env (bytes " " ++ (bytes ", ").intercalate (names.mergeSort le)))

/-- `show_proc`. -/
def showProc : Show Unit := do
  let leader (id : Int) := fmtD id ++ lit " (leader=" ++ yesNo (id = env.user.pid) ++ lit ")"
  header "process"
  entry "process id (pid)" (fmtD env.user.pid)
  entry "parent process id (ppid)" (fmtD env.user.ppid)
  entry "session id (sid)" (leader env.user.sid)
  entry "name" (quoted (← str env env.user.procName))
  handleProcBranchLinux env
  entry "process group id" (leader env.user.pgroup)
  entry "foreground process group" (fmtD env.user.fgPgroup)
  entry "terminal" (quoted (← str env env.user.ctrlTerminal))
  entry "has controlling terminal" (yesNo (← Call.openTty))
  entry "on console" (yesNo (← Call.ioctlVtMode env.user.ttyFd))
  sectionOpen "user"
  entry "real user id (uid)" (← withName env env.user.uid (← getUserName env.user.uid))
  entry "effective user id (euid)" (← withName env env.user.euid (← getUserName env.user.euid))
  let suid ← getUserName env.user.suid
  let suidText ← strOr env unknownStr suid
  entry "saved set-user-id (suid)"
    (fmtD env.user.suid ++ lit " (" ++ (if suid.isSome then quoted suidText else suidText) ++ lit ")")
  sectionClose
  sectionOpen "group"
  entry "real group id (gid)" (← withName env env.user.gid (← getGroupName env.user.gid))
  entry "effective group id (egid)" (← withName env env.user.egid (← getGroupName env.user.egid))
  let sgid ← getGroupName env.user.sgid
  let sgidText ← strOr env unknownStr sgid
  entry "saved set-group-id (sgid)"
    (fmtD env.user.sgid ++ lit " (" ++ (if sgid.isSome then quoted sgidText else sgidText) ++ lit ")")
  sectionClose
  entry "login name" (quoted (← strOr env [] env.user.login))
  sectionOpen "passwd"
  entry "name" (quoted (← str env env.user.passwd.pwName))
  entry "gecos" (quoted (← str env env.user.passwd.pwGecos))
  entry "dir" (quoted (← str env env.user.passwd.pwDir))
  entry "shell" (quoted (← str env env.user.passwd.pwShell))
  sectionClose
  showAllGroups env
  footer

/-- `show_rusage`. -/
def showRusage : Show Unit := do
  let some usage ← Call.getrusage | die "unable to query rusage"
  header "rusage"
  entries [("ru_maxrss", fmtU usage.maxrss), ("ru_ixrss", fmtU usage.ixrss), ("ru_idrss", fmtU usage.idrss),
    ("ru_isrss", fmtU usage.isrss), ("ru_minflt", fmtU usage.minflt), ("ru_majflt", fmtU usage.majflt),
    ("ru_nswap", fmtU usage.nswap), ("ru_inblock", fmtU usage.inblock), ("ru_oublock", fmtU usage.oublock),
    ("ru_msgsnd", fmtU usage.msgsnd), ("ru_msgrcv", fmtU usage.msgrcv), ("ru_nsignals", fmtU usage.nsignals),
    ("ru_nvcsw", fmtU usage.nvcsw), ("ru_nivcsw", fmtU usage.nivcsw)]
  footer

/-- A signal of `show_signals`. -/
def showSignal (i : Nat) : Show Unit := do
  -- a signal that cannot be queried is left out
  let rc ← Call.sigismember i
  let some ignored ← Call.sigaction i | return
  if rc < 0 then return
  let some name ← ofExcept (getSignalName env.build i) | return
  let desc ← Call.strsignal i
  objectOpen
  sectionOpen name
  entry "number" (fmtU i)
  entry "description" (quoted (← strOr env unknownStr desc))
  entry "blocked" (yesNo (rc ≠ 0))
  entry "ignored" (yesNo ignored)
  sectionClose
  objectClose

/-- `show_signals`: the numbers from 1 to the number of entries of the map. -/
def showSignals : Show Unit := do
  containerOpen "signals"
  when (!(← Call.sigprocmask)) (die "failed to query signal mask")
  (List.range' 1 (env.build.map Tables.signalMapLinux).length).forM (showSignal env)
  containerClose

/-- The file that `get_path` finds in the directories of the path. The character before an empty
element is looked at: before the first there is none. -/
def searchPath (argv0 : MbStr) : (isFirst : Bool) → List MbStr → Show (Option MbStr)
  | _, [] => return none
  | isFirst, element :: elements => do
    when (isFirst && element = []) (.stop (.outOfBounds "get_path"))
    let possible := element ++ (if element.getLast? = some 47 then [] else [47]) ++ argv0
    when (pathMax ≤ possible.length) (.stop (.outOfBounds "get_path"))
    if (← Call.stat possible).isSome then
      return if ← Call.alloc then some possible else none
    searchPath argv0 false elements

/-- `get_path`. -/
def getPath (argv0 : MbStr) : Show (Option MbStr) := do
  if argv0.head? = some 47 then
    return if ← Call.alloc then some argv0 else none
  if 47 ∈ argv0 then
    let some cwd ← Call.getcwd | .stop (.assertFailed "get_path")
    let path := cwd ++ [47] ++ argv0
    when (pathMax ≤ path.length) (.stop (.outOfBounds "get_path"))
    if (← Call.stat path).isNone then return none
    return if ← Call.alloc then some path else none
  let path := (← Call.getenv "PATH").getD (env.build.text "_PATH_STDPATH")
  assert "get_path" (← Call.alloc)
  searchPath argv0 true (strsep 58 path)

/-- `ctime_r`, as `show_stat` checks it. -/
def statTime (what : String) (t : Nat) : Show WStr := do
  let some s ← Call.ctime t | die ("failed to format " ++ what)
  str env (← ofExcept (chompLine "show_stat" s))

/-- `show_stat`. -/
def showStat : Show Unit := do
  let some path ← getPath env env.programName | .stop (.assertFailed "show_stat")
  let some realPath ← Call.realpath path | die "unable to resolve path"
  let some st ← Call.stat realPath | die "unable to stat path: '%s'" [realPath]
  header "stat"
  entry "argv[0]" (quoted (← str env env.programName))
  entry "real path" (quoted (← str env realPath))
  sectionOpen "device"
  entries [("major", fmtU st.devMajor), ("minor", fmtU st.devMinor)]
  sectionClose
  entry "inode" (fmtU st.ino)
  let modestr ← formatPerms st.mode
  sectionOpen "permissions"
  entries [("octal", fmtO (permBits st.mode)), ("symbolic", modestr)]
  sectionClose
  entry "hard links" (fmtU st.nlink)
  entry "user id (uid)" (← withName env st.uid (← getUserName st.uid))
  -- the name is that of the group with the number of the user
  entry "group id (gid)" (← withName env st.gid (← getGroupName st.uid))
  entry "size" (fmtU st.size ++ lit " bytes (" ++ fmtU st.blocks ++ lit " 512-byte blocks)")
  sectionOpen "times"
  entry "atime (access)" (timeText st.atime (← statTime env "atime" st.atime))
  entry "mtime (modification)" (timeText st.mtime (← statTime env "mtime" st.mtime))
  entry "ctime (status change)" (timeText st.ctime (← statTime env "ctime" st.ctime))
  sectionClose
  footer

/-! ## Terminals -/

/-- The first descriptor that is a terminal with attributes. -/
def findTty : List Int → Show (Option (Int × Termios))
  | [] => return none
  | fd :: fds => do
    if !(← Call.isatty fd) then findTty fds
    else match ← Call.tcgetattr fd with
      | none => findTty fds
      | some tty => return some (fd, tty)

/-- `show_const_tty` for the constants of a flag word. -/
def showConstsTty (flag locked : Nat) (consts : List MapEntry) : Show Unit :=
  (env.build.map consts).forM fun (const, num) =>
    entry const ((if flag &&& num.toNat ≠ 0 then lit "1" else lit "0") ++
      if locked ≠ 0 then lit " (locked)" else [])

/-- `show_cc_tty` for the special characters. -/
def showCcTty (tty locked : Termios) : Show Unit :=
  (env.build.map Tables.ccElems).forM fun (elem, num) =>
    entry elem (lit "0x" ++ fmtX (tty.cc num) ++ if locked.cc num ≠ 0 then lit " (locked)" else [])

/-- A section of flags: its name, the name of its first entry, the flags and their constants. -/
def showTtyFlags (name valueName : String) (flag locked : Nat) (consts : List MapEntry) : Show Unit := do
  sectionOpen name
  entry valueName (lit "0x" ++ fmtX flag)
  showConstsTty env flag locked consts
  sectionClose

/-- The attributes of a terminal. -/
def showTty (fd : Int) (tty : Termios) : Show Unit := do
  let locked ← getTtyLockedStatusLinux fd
  showTtyFlags env "c_iflag (input)" "value" tty.iflag locked.iflag Tables.iflagConsts
  -- the only section whose first entry has another name
  showTtyFlags env "c_oflag (output)" "c_oflag" tty.oflag locked.oflag Tables.oflagConsts
  showTtyFlags env "c_cflag (control)" "value" tty.cflag locked.cflag Tables.cflagConsts
  showTtyFlags env "c_lflag (local)" "value" tty.lflag locked.lflag Tables.lflagConsts
  sectionOpen "c_cc (special)"
  showCcTty env tty locked
  sectionClose
  let some size ← Call.ioctlWinsize fd | die "failed to determine terminal dimensions"
  sectionOpen "speed"
  let input ← ofExcept (getSpeed env.build tty.ispeed)
  entry "input (baud)" (lit (input.getD "(null)"))
  let output ← ofExcept (getSpeed env.build tty.ospeed)
  entry "output (baud)" (lit (output.getD "(null)"))
  sectionClose
  sectionOpen "winsize"
  entries [("ws_row", fmtU size.row), ("ws_col", fmtU size.col), ("ws_xpixel", fmtU size.xpixel),
    ("ws_ypixel", fmtU size.ypixel)]
  sectionClose
  footer

/-- `show_tty_attrs`. -/
def showTtyAttrs : Show Unit := do
  header "tty"
  match ← findTty [env.user.ttyFd, 0, 1, 2] with
  | none => footer
  | some (fd, tty) => showTty env fd tty

/-! ## The network -/

/-- `get_mac_address`. -/
def getMacAddress (name : MbStr) : Show (Option MbStr) := do
  if !(← Call.socket) then return none
  let some data ← Call.ioctlHwaddr name | return none
  -- an address of zeros is not valid
  if (data.take 6).all (· = 0) then return none
  if !(← Call.alloc) then return none
  let hex (b : UInt8) : MbStr := (fmtHex 2 b.toNat).map fun c => UInt8.ofNat c.val
  return some ((bytes ":").intercalate ((data.take 6).map hex))

/-- `get_mtu_generic`. -/
def getMtuGeneric (name : MbStr) : Show Int := do
  if !(← Call.socket) then return -1
  return (← Call.ioctlMtu name).getD 0

/-- `get_net_family_name`. -/
def getNetFamilyName (family : Nat) : WStr :=
  switch env family [("AF_PACKET", "AF_PACKET"), ("AF_INET", "AF_INET"), ("AF_INET6", "AF_INET6")]

/-- `get_network_address`. -/
def getNetworkAddress (addr : Sockaddr) (family : Nat) : Show WStr := do
  if (family : Int) ≠ env.build.value "AF_INET" ∧ (family : Int) ≠ env.build.value "AF_INET6" then return naStr
  match ← Call.getnameinfo addr with
  | .ok name => str env name
  | .error e => return if e = "EAI_NONAME" ∨ e = "EAI_FAMILY" then naStr else unknownStr

/-- The addresses of an interface after `netmask`. -/
def showBroadcast (ifa : Ifaddrs) (family : Nat) : Show Unit := do
  let flag (const : String) := ifa.flags &&& (env.build.value const).toNat ≠ 0
  (if (family : Int) ≠ env.build.value "AF_PACKET" then
    match ifa.broadaddr with
    | some addr => when (flag "IFF_BROADCAST") do entry "broadcast" (← getNetworkAddress env addr family)
    | none => pure ()
  else entry "broadcast" naStr)
  match ifa.dstaddr with
  | some addr => when (flag "IFF_POINTOPOINT") do entry "point-to-point" (← getNetworkAddress env addr family)
  | none => return

/-- `show_network_if`. -/
def showNetworkIf (ifa : Ifaddrs) (addr : Sockaddr) (macAddress : Option MbStr) : Show Unit := do
  let family := addr.family
  sectionOpenNamed ifa.name
  entry "family" (getNetFamilyName env family ++ lit " (0x" ++ fmtX family ++ lit ")")
  sectionOpen "flags"
  entry "value" (lit "0x" ++ fmtX ifa.flags)
  containerOpen "fields"
  showFlags ifa.flags (env.build.map Tables.ifFlagMapLinux)
  containerClose
  sectionClose
  sectionOpen "extended flags"
  -- shown before the flags are asked for
  entry "value" (lit "0x0")
  containerOpen "fields"
  showExtendedIfFlagsLinux env ifa.name
  containerClose
  sectionClose
  let mtu ← getMtuGeneric ifa.name
  entry "mac" (← strOr env naStr macAddress)
  entry "mtu" (if mtu > 0 then fmtD mtu else unknownStr)
  entry "address" (← getNetworkAddress env addr family)
  let netmask ← ifa.netmask.elim (pure naStr) fun netmask => getNetworkAddress env netmask family
  entry "netmask" netmask
  showBroadcast env ifa family
  sectionClose

/-- A node of the cache: a link level entry, its address and the MAC address. -/
structure NetworkMap where
  ifaddr : Ifaddrs
  addr : Sockaddr
  macAddress : Option MbStr

/-- The first node with the name: its MAC address, and the cache without it. -/
def takeNode (name : MbStr) : List NetworkMap → Option (Option MbStr) × List NetworkMap
  | [] => (none, [])
  | node :: nodes =>
    if node.ifaddr.name = name then (some node.macAddress, nodes)
    else let (mac, nodes') := takeNode name nodes
      (mac, node :: nodes')

/-- A round of the main loop of `show_network`: the cache after an entry. -/
def showNetworkEntry (cache : List NetworkMap) (ifa : Ifaddrs) : Show (List NetworkMap) := do
  let some addr := ifa.addr | return cache
  if (addr.family : Int) = env.build.value "AF_PACKET" then
    let macAddress ← getMacAddress ifa.name
    assert "show_network" (← Call.alloc)
    return { ifaddr := ifa, addr, macAddress } :: cache
  -- the link level entry with the name is used up
  let (mac, cache) := takeNode ifa.name cache
  let macAddress := mac.getD none
  let copied ← macAddress.elim (pure none) fun mac => do return if ← Call.alloc then some mac else none
  showNetworkIf env ifa addr copied
  return cache

/-- `show_network` from the list of the interfaces on. -/
def showInterfaces (ifAddrs : List Ifaddrs) : Show Unit := do
  assert "show_network" (← Call.alloc)
  let cache ← ifAddrs.foldlM (showNetworkEntry env) []
  -- what is left are interfaces without an address
  cache.forM fun node => showNetworkIf env node.ifaddr node.addr node.macAddress
  footer

/-- `show_network`. -/
def showNetwork : Show Unit := do
  header "network"
  -- the header stays open when the call fails
  let some ifAddrs ← Call.getifaddrs | return
  showInterfaces env ifAddrs

/-- `show_version`. -/
def showVersion : Show Unit := do
  header "version"
  entry "name" packageName
  entry "version" packageVersion
  entry "author" (← str env (env.build.text "PROGRAM_AUTHORS"))
  footer

/-! ## All routines -/

/-- The function behind a routine. -/
def showRoutine : Routine → Show Unit
  | .showMeta => showMeta env
  | .showArguments => showArguments env
  | .showCapabilities => showCapabilities env
  | .showCgroups => showCgroups env
  | .showClocks => showClocks env
  | .showCompiler => showCompiler env
  | .showConfstrs => showConfstrs env
  | .showCpu => showCpu env
  | .showEnv => showEnv env
  | .showFds => showFds env
  | .showLibc => showLibc env
  | .showLibs => showLibs env
  | .showRlimits => showRlimits env
  | .showLocale => showLocale env
  | .showMemory => showMemory env
  | .showMsgQueues => showMsgQueues env
  | .showMisc => showMisc env
  | .showMounts what => showMounts env what
  | .showNamespaces => showNamespaces env
  | .showNetwork => showNetwork env
  | .showOom => showOom env
  | .showPlatform => showPlatform env
  | .showProc => showProc env
  | .showRanges => showRanges env
  | .showRusage => showRusage
  | .showSemaphores => showSemaphores env
  | .showSharedMem => showSharedMem env
  | .showSignals => showSignals env
  | .showSizeof => showSizeof env
  | .showStat => showStat env
  | .showSysconf => showSysconf env
  | .showThreads => showThreads env
  | .showTime => showTime env
  | .showTimezone => showTimezone env
  | .showTtyAttrs => showTtyAttrs env
  | .showUname => showUname env
  | .showVersion => showVersion env

end Procenv.Show
