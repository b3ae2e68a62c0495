import Procenv.Model.System

/-!
# The tables

The maps from numbers to names (`struct procenv_map`), and the lists of constants that
a routine shows one after the other. A guarded entry is inside `#if defined`.
-/

namespace Procenv

/-- An entry of a `struct procenv_map`: its name and the macro that gives its number. -/
structure MapEntry where
  name : String
  const : String
  isGuarded : Bool

namespace MapEntry

/-- `mk_map_entry`. -/
def plain (const : String) : MapEntry := ⟨const, const, false⟩

/-- `mk_map_entry` inside `#if defined`. -/
def guarded (const : String) : MapEntry := ⟨const, const, true⟩

/-- An entry with a name of its own. -/
def named (name const : String) : MapEntry := ⟨name, const, false⟩

end MapEntry

/-- The entries of a map in a build, before the sentinel. -/
def Build.map (build : Build) (m : List MapEntry) : List (String × Int) :=
  (m.filter fun e => !e.isGuarded || build.defined e.const).map fun e => (e.name, build.value e.const)

/-- The search of a map by number, which is an `unsigned int`. The search ends at the sentinel;
without one it goes on behind the table. -/
def mapName (fn : String) (sentinel : Bool) (num : Int) : List (String × Int) → Except Halt (Option String)
  | [] => if sentinel then .ok none else .error (.outOfBounds fn)
  | (name, n) :: m =>
    if BitVec.ofInt 32 n = BitVec.ofInt 32 num then .ok (some name) else mapName fn sentinel num m

namespace Tables

/-- `scheduler_map`. -/
def schedulerMap : List MapEntry :=
  [.plain "SCHED_OTHER", .plain "SCHED_FIFO", .plain "SCHED_RR", .plain "SCHED_BATCH", .guarded "SCHED_IDLE"]

/-- `thread_sched_policy_map`. -/
def threadSchedPolicyMap : List MapEntry :=
  [.plain "SCHED_OTHER", .plain "SCHED_FIFO", .plain "SCHED_RR"]

/-- `signal_map_linux`. -/
def signalMapLinux : List MapEntry :=
  [.plain "SIGABRT", .plain "SIGALRM", .plain "SIGBUS", .named "SIGCHLD|SIGCLD" "SIGCHLD", .plain "SIGCONT",
   .plain "SIGFPE", .plain "SIGHUP", .plain "SIGILL", .plain "SIGINT", .plain "SIGKILL", .plain "SIGPIPE",
   .plain "SIGQUIT", .plain "SIGSEGV", .plain "SIGSTOP", .plain "SIGTERM", .plain "SIGTRAP",
   .plain "SIGTSTP", .plain "SIGTTIN", .plain "SIGTTOU", .plain "SIGUSR1", .plain "SIGUSR2", .plain "SIGIO",
   .plain "SIGIOT", .named "SIGPOLL|SIGIO" "SIGPOLL", .plain "SIGPROF", .plain "SIGPWR",
   .guarded "SIGSTKFLT", .plain "SIGSYS", .guarded "SIGUNUSED", .plain "SIGURG", .plain "SIGVTALRM",
   .plain "SIGWINCH", .plain "SIGXCPU", .plain "SIGXFSZ"]

/-- `if_flag_map_linux`. -/
def ifFlagMapLinux : List MapEntry :=
  [.plain "IFF_UP", .plain "IFF_BROADCAST", .plain "IFF_DEBUG", .plain "IFF_LOOPBACK",
   .plain "IFF_POINTOPOINT", .plain "IFF_RUNNING", .plain "IFF_NOARP", .plain "IFF_PROMISC",
   .plain "IFF_NOTRAILERS", .plain "IFF_ALLMULTI", .plain "IFF_MASTER", .plain "IFF_SLAVE",
   .plain "IFF_MULTICAST", .plain "IFF_PORTSEL", .plain "IFF_AUTOMEDIA", .plain "IFF_DYNAMIC",
   .plain "IFF_LOWER_UP", .plain "IFF_DORMANT", .guarded "IFF_ECHO"]

/-- `if_extended_flag_map_linux`. -/
def ifExtendedFlagMapLinux : List MapEntry :=
  [.guarded "IFF_802_1Q_VLAN", .guarded "IFF_EBRIDGE", .guarded "IFF_SLAVE_INACTIVE",
   .guarded "IFF_MASTER_8023AD", .guarded "IFF_MASTER_ALB", .guarded "IFF_BONDING",
   .guarded "IFF_SLAVE_NEEDARP", .guarded "IFF_ISATAP"]

/-- `personality_map_linux`. -/
def personalityMapLinux : List MapEntry :=
  [.plain "PER_LINUX", .plain "PER_LINUX_32BIT", .plain "PER_SVR4", .plain "PER_SVR3", .plain "PER_SCOSVR3",
   .plain "PER_OSR5", .plain "PER_WYSEV386", .plain "PER_ISCR4", .plain "PER_BSD", .plain "PER_SUNOS",
   .plain "PER_XENIX", .guarded "PER_LINUX32", .guarded "PER_LINUX32_3GB", .plain "PER_IRIX32",
   .plain "PER_IRIXN32", .plain "PER_IRIX64", .plain "PER_RISCOS", .plain "PER_SOLARIS", .plain "PER_UW7",
   .plain "PER_OSF4", .plain "PER_HPUX"]

/-- `personality_flag_map_linux`. -/
def personalityFlagMapLinux : List MapEntry :=
  [.guarded "ADDR_COMPAT_LAYOUT", .guarded "ADDR_LIMIT_32BIT", .guarded "ADDR_LIMIT_3GB",
   .guarded "ADDR_NO_RANDOMIZE", .guarded "MMAP_PAGE_ZERO", .guarded "READ_IMPLIES_EXEC",
   .guarded "SHORT_INODE", .guarded "STICKY_TIMEOUTS", .guarded "WHOLE_SECONDS"]

/-- `io_priorities_class_map`. -/
def ioPrioritiesClassMap : List MapEntry :=
  [.plain "IOPRIO_CLASS_NONE", .plain "IOPRIO_CLASS_RT", .plain "IOPRIO_CLASS_BE",
   .plain "IOPRIO_CLASS_IDLE", .plain "IOPRIO_CLASS_NORMAL"]

/-- `numa_mempolicy_map`. -/
def numaMempolicyMap : List MapEntry :=
  [.plain "MPOL_DEFAULT", .plain "MPOL_PREFERRED", .plain "MPOL_BIND", .plain "MPOL_INTERLEAVE"]

/-- `locale_map`. -/
def localeMap : List MapEntry :=
  [.guarded "LC_ADDRESS", .plain "LC_COLLATE", .plain "LC_CTYPE", .guarded "LC_IDENTIFICATION",
   .guarded "LC_MEASUREMENT", .plain "LC_MESSAGES", .plain "LC_MONETARY", .guarded "LC_NAME",
   .plain "LC_NUMERIC", .guarded "LC_PAPER", .guarded "LC_TELEPHONE", .plain "LC_TIME"]

/-- `baud_speeds`. -/
def baudSpeeds : List MapEntry :=
  [.plain "B0", .plain "B50", .plain "B75", .plain "B110", .plain "B134", .plain "B150", .plain "B200",
   .plain "B300", .plain "B600", .plain "B1200", .plain "B1800", .plain "B2400", .plain "B4800",
   .plain "B9600", .plain "B19200", .plain "B38400", .plain "B57600", .plain "B115200", .plain "B230400"]

/-- The names of `sysconf_map`, each defined or left out. -/
def sysconfMap : List String :=
  ["_SC_2_C_BIND", "_SC_2_C_DEV", "_SC_2_CHAR_TERM", "_SC_2_C_VERSION", "_SC_2_FORT_DEV", "_SC_2_FORT_RUN",
   "_SC_2_LOCALEDEF", "_SC_2_PBS", "_SC_2_PBS_ACCOUNTING", "_SC_2_PBS_CHECKPOINT", "_SC_2_PBS_LOCATE",
   "_SC_2_PBS_MESSAGE", "_SC_2_PBS_TRACK", "_SC_2_SW_DEV", "_SC_2_UPE", "_SC_2_VERSION",
   "_SC_ADVISORY_INFO", "_SC_AIO_LISTIO_MAX", "_SC_AIO_MAX", "_SC_AIO_PRIO_DELTA_MAX", "_SC_ARG_MAX",
   "_SC_ASYNCHRONOUS_IO", "_SC_ATEXIT_MAX", "_SC_AVPHYS_PAGES", "_SC_BARRIERS", "_SC_BASE",
   "_SC_BC_BASE_MAX", "_SC_BC_DIM_MAX", "_SC_BC_SCALE_MAX", "_SC_BC_STRING_MAX", "_SC_CHAR_BIT",
   "_SC_CHARCLASS_NAME_MAX", "_SC_CHAR_MAX", "_SC_CHAR_MIN", "_SC_CHILD_MAX", "_SC_C_LANG_SUPPORT",
   "_SC_C_LANG_SUPPORT_R", "_SC_CLK_TCK", "_SC_CLOCK_SELECTION", "_SC_COLL_WEIGHTS_MAX", "_SC_CPUTIME",
   "_SC_DELAYTIMER_MAX", "_SC_DEVICE_IO", "_SC_DEVICE_SPECIFIC", "_SC_DEVICE_SPECIFIC_R",
   "_SC_EQUIV_CLASS_MAX", "_SC_EXPR_NEST_MAX", "_SC_FD_MGMT", "_SC_FIFO", "_SC_FILE_ATTRIBUTES",
   "_SC_FILE_LOCKING", "_SC_FILE_SYSTEM", "_SC_FSYNC", "_SC_GETGR_R_SIZE_MAX", "_SC_GETPW_R_SIZE_MAX",
   "_SC_HOST_NAME_MAX", "_SC_INT_MAX", "_SC_INT_MIN", "_SC_IOV_MAX", "_SC_IPV6", "_SC_JOB_CONTROL",
   "_SC_LEVEL1_DCACHE_ASSOC", "_SC_LEVEL1_DCACHE_LINESIZE", "_SC_LEVEL1_DCACHE_SIZE",
   "_SC_LEVEL1_ICACHE_ASSOC", "_SC_LEVEL1_ICACHE_LINESIZE", "_SC_LEVEL1_ICACHE_SIZE",
   "_SC_LEVEL2_CACHE_ASSOC", "_SC_LEVEL2_CACHE_LINESIZE", "_SC_LEVEL2_CACHE_SIZE", "_SC_LEVEL3_CACHE_ASSOC",
   "_SC_LEVEL3_CACHE_LINESIZE", "_SC_LEVEL3_CACHE_SIZE", "_SC_LEVEL4_CACHE_ASSOC",
   "_SC_LEVEL4_CACHE_LINESIZE", "_SC_LEVEL4_CACHE_SIZE", "_SC_LINE_MAX", "_SC_LOGIN_NAME_MAX",
   "_SC_LONG_BIT", "_SC_MAPPED_FILES", "_SC_MB_LEN_MAX", "_SC_MEMLOCK", "_SC_MEMLOCK_RANGE",
   "_SC_MEMORY_PROTECTION", "_SC_MESSAGE_PASSING", "_SC_MONOTONIC_CLOCK", "_SC_MQ_OPEN_MAX",
   "_SC_MQ_PRIO_MAX", "_SC_MULTI_PROCESS", "_SC_NETWORKING", "_SC_NGROUPS_MAX", "_SC_NL_ARGMAX",
   "_SC_NL_LANGMAX", "_SC_NL_MSGMAX", "_SC_NL_NMAX", "_SC_NL_SETMAX", "_SC_NL_TEXTMAX",
   "_SC_NPROCESSORS_CONF", "_SC_NPROCESSORS_ONLN", "_SC_NZERO", "_SC_OPEN_MAX", "_SC_PAGE_SIZE",
   "_SC_PAGESIZE", "_SC_PASS_MAX", "_SC_PHYS_PAGES", "_SC_PII", "_SC_PII_INTERNET",
   "_SC_PII_INTERNET_DGRAM", "_SC_PII_INTERNET_STREAM", "_SC_PII_OSI", "_SC_PII_OSI_CLTS",
   "_SC_PII_OSI_COTS", "_SC_PII_OSI_M", "_SC_PII_SOCKET", "_SC_PII_XTI", "_SC_PIPE", "_SC_POLL",
   "_SC_POSIX2_C_DEV", "_SC_PRIORITIZED_IO", "_SC_PRIORITY_SCHEDULING", "_SC_RAW_SOCKETS",
   "_SC_READER_WRITER_LOCKS", "_SC_REALTIME_SIGNALS", "_SC_RE_DUP_MAX", "_SC_REGEXP", "_SC_REGEX_VERSION",
   "_SC_RTSIG_MAX", "_SC_SAVED_IDS", "_SC_SCHAR_MAX", "_SC_SCHAR_MIN", "_SC_SELECT", "_SC_SEMAPHORES",
   "_SC_SEM_NSEMS_MAX", "_SC_SEM_VALUE_MAX", "_SC_SHARED_MEMORY_OBJECTS", "_SC_SHELL", "_SC_SHRT_MAX",
   "_SC_SHRT_MIN", "_SC_SIGNALS", "_SC_SIGQUEUE_MAX", "_SC_SINGLE_PROCESS", "_SC_SPAWN", "_SC_SPIN_LOCKS",
   "_SC_SPORADIC_SERVER", "_SC_SSIZE_MAX", "_SC_SS_REPL_MAX", "_SC_STREAM_MAX", "_SC_STREAMS",
   "_SC_SYMLOOP_MAX", "_SC_SYNCHRONIZED_IO", "_SC_SYSTEM_DATABASE", "_SC_SYSTEM_DATABASE_R",
   "_SC_THREAD_ATTR_STACKADDR", "_SC_THREAD_ATTR_STACKSIZE", "_SC_THREAD_CPUTIME",
   "_SC_THREAD_DESTRUCTOR_ITERATIONS", "_SC_THREAD_KEYS_MAX", "_SC_THREAD_PRIO_INHERIT",
   "_SC_THREAD_PRIO_PROTECT", "_SC_THREAD_PRIORITY_SCHEDULING", "_SC_THREAD_PROCESS_SHARED",
   "_SC_THREAD_ROBUST_PRIO_INHERIT", "_SC_THREAD_ROBUST_PRIO_PROTECT", "_SC_THREADS",
   "_SC_THREAD_SAFE_FUNCTIONS", "_SC_THREAD_SPORADIC_SERVER", "_SC_THREAD_STACK_MIN",
   "_SC_THREAD_THREADS_MAX", "_SC_TIMEOUTS", "_SC_TIMER_MAX", "_SC_TIMERS", "_SC_T_IOV_MAX", "_SC_TRACE",
   "_SC_TRACE_EVENT_FILTER", "_SC_TRACE_EVENT_NAME_MAX", "_SC_TRACE_INHERIT", "_SC_TRACE_LOG",
   "_SC_TRACE_NAME_MAX", "_SC_TRACE_SYS_MAX", "_SC_TRACE_USER_EVENT_MAX", "_SC_TTY_NAME_MAX",
   "_SC_TYPED_MEMORY_OBJECTS", "_SC_TZNAME_MAX", "_SC_UCHAR_MAX", "_SC_UINT_MAX", "_SC_UIO_MAXIOV",
   "_SC_ULONG_MAX", "_SC_USER_GROUPS", "_SC_USER_GROUPS_R", "_SC_USHRT_MAX", "_SC_V6_ILP32_OFF32",
   "_SC_V6_ILP32_OFFBIG", "_SC_V6_LP64_OFF64", "_SC_V6_LPBIG_OFFBIG", "_SC_V7_ILP32_OFF32",
   "_SC_V7_ILP32_OFFBIG", "_SC_V7_LP64_OFF64", "_SC_V7_LPBIG_OFFBIG", "_SC_VERSION", "_SC_WORD_BIT",
   "_SC_XBS5_ILP32_OFF32", "_SC_XBS5_ILP32_OFFBIG", "_SC_XBS5_LP64_OFF64", "_SC_XBS5_LPBIG_OFFBIG",
   "_SC_XOPEN_CRYPT", "_SC_XOPEN_ENH_I18N", "_SC_XOPEN_LEGACY", "_SC_XOPEN_REALTIME",
   "_SC_XOPEN_REALTIME_THREADS", "_SC_XOPEN_SHM", "_SC_XOPEN_STREAMS", "_SC_XOPEN_UNIX",
   "_SC_XOPEN_VERSION", "_SC_XOPEN_XCU_VERSION", "_SC_XOPEN_XPG2", "_SC_XOPEN_XPG3", "_SC_XOPEN_XPG4"]

/-- The names that `show_confstrs_generic` asks for, each defined or left out, and the names shown. -/
def confstrNames : List (String × String) :=
  let same := List.map fun name => (name, name)
  same ["_CS_GNU_LIBC_VERSION", "_CS_GNU_LIBPTHREAD_VERSION", "_CS_LFS64_CFLAGS", "_CS_LFS64_LDFLAGS",
    "_CS_LFS64_LIBS", "_CS_LFS64_LINTFLAGS", "_CS_LFS_CFLAGS", "_CS_LFS_LDFLAGS", "_CS_LFS_LIBS",
    "_CS_LFS_LINTFLAGS", "_CS_PATH", "_CS_POSIX_V5_WIDTH_RESTRICTED_ENVS", "_CS_POSIX_V6_ILP32_OFF32",
    "_CS_POSIX_V6_ILP32_OFF32_CFLAGS", "_CS_POSIX_V6_ILP32_OFF32_LDFLAGS", "_CS_POSIX_V6_ILP32_OFF32_LIBS",
    "_CS_POSIX_V6_ILP32_OFF32_LINTFLAGS", "_CS_POSIX_V6_ILP32_OFFBIG_CFLAGS",
    "_CS_POSIX_V6_ILP32_OFFBIG_LDFLAGS", "_CS_POSIX_V6_ILP32_OFFBIG_LIBS",
    "_CS_POSIX_V6_ILP32_OFFBIG_LINTFLAGS", "_CS_POSIX_V6_LP64_OFF64_CFLAGS",
    "_CS_POSIX_V6_LP64_OFF64_LDFLAGS", "_CS_POSIX_V6_LP64_OFF64_LIBS", "_CS_POSIX_V6_LP64_OFF64_LINTFLAGS",
    "_CS_POSIX_V6_LPBIG_OFFBIG_CFLAGS", "_CS_POSIX_V6_LPBIG_OFFBIG_LDFLAGS",
    "_CS_POSIX_V6_LPBIG_OFFBIG_LIBS", "_CS_POSIX_V6_LPBIG_OFFBIG_LINTFLAGS",
    "_CS_POSIX_V6_WIDTH_RESTRICTED_ENVS", "_CS_POSIX_V7_ILP32_OFF32_CFLAGS",
    "_CS_POSIX_V7_ILP32_OFF32_LDFLAGS", "_CS_POSIX_V7_ILP32_OFF32_LIBS",
    "_CS_POSIX_V7_ILP32_OFF32_LINTFLAGS", "_CS_POSIX_V7_ILP32_OFFBIG_CFLAGS",
    "_CS_POSIX_V7_ILP32_OFFBIG_LDFLAGS", "_CS_POSIX_V7_ILP32_OFFBIG_LIBS",
    "_CS_POSIX_V7_ILP32_OFFBIG_LINTFLAGS", "_CS_POSIX_V7_LP64_OFF64_CFLAGS",
    "_CS_POSIX_V7_LP64_OFF64_LDFLAGS", "_CS_POSIX_V7_LP64_OFF64_LIBS", "_CS_POSIX_V7_LP64_OFF64_LINTFLAGS",
    "_CS_POSIX_V7_LPBIG_OFFBIG_CFLAGS", "_CS_POSIX_V7_LPBIG_OFFBIG_LDFLAGS",
    "_CS_POSIX_V7_LPBIG_OFFBIG_LIBS", "_CS_POSIX_V7_LPBIG_OFFBIG_LINTFLAGS",
    "_CS_POSIX_V7_WIDTH_RESTRICTED_ENVS", "_CS_V5_WIDTH_RESTRICTED_ENVS"] ++
  [("_CS_V5_WIDTH_RESTRICTED_ENVS", "_XBS5_WIDTH_RESTRICTED_ENVS"),
    ("_CS_V5_WIDTH_RESTRICTED_ENVS", "XBS5_WIDTH_RESTRICTED_ENVS")] ++
  same ["_CS_V6_ENV", "_CS_V6_WIDTH_RESTRICTED_ENVS"] ++
  [("_CS_V6_WIDTH_RESTRICTED_ENVS", "POSIX_V6_WIDTH_RESTRICTED_ENVS,_POSIX_V6_WIDTH_RESTRICTED_ENVS")] ++
  same ["_CS_V7_ENV", "_CS_V7_WIDTH_RESTRICTED_ENVS", "_CS_XBS5_ILP32_OFF32_CFLAGS",
    "_CS_XBS5_ILP32_OFF32_LDFLAGS", "_CS_XBS5_ILP32_OFF32_LIBS", "_CS_XBS5_ILP32_OFF32_LINTFLAGS",
    "_CS_XBS5_ILP32_OFFBIG_CFLAGS", "_CS_XBS5_ILP32_OFFBIG_LDFLAGS", "_CS_XBS5_ILP32_OFFBIG_LIBS",
    "_CS_XBS5_ILP32_OFFBIG_LINTFLAGS", "_CS_XBS5_LP64_OFF64_CFLAGS", "_CS_XBS5_LP64_OFF64_LDFLAGS",
    "_CS_XBS5_LP64_OFF64_LIBS", "_CS_XBS5_LP64_OFF64_LINTFLAGS", "_CS_XBS5_LPBIG_OFFBIG_CFLAGS",
    "_CS_XBS5_LPBIG_OFFBIG_LDFLAGS", "_CS_XBS5_LPBIG_OFFBIG_LIBS", "_CS_XBS5_LPBIG_OFFBIG_LINTFLAGS"]

/-- The types of `show_sizeof`. -/
def sizeofTypes : List String :=
  ["blkcnt_t", "blksize_t", "char", "clockid_t", "clock_t", "dev_t", "div_t", "double", "fenv_t",
   "fexcept_t", "float", "fpos_t", "fsblkcnt_t", "fsfilcnt_t", "gid_t", "id_t", "imaxdiv_t", "ino_t", "int",
   "int16_t", "int32_t", "int64_t", "int8_t", "int_fast16_t", "int_fast32_t", "int_fast64_t", "int_fast8_t",
   "int_least16_t", "int_least32_t", "int_least64_t", "int_least8_t", "intmax_t", "intptr_t", "key_t",
   "ldiv_t", "lldiv_t", "long double", "long int", "long long int", "mbstate_t", "mode_t", "mode_t",
   "nlink_t", "off_t", "pid_t", "pthread_attr_t", "pthread_barrierattr_t", "pthread_barrier_t",
   "pthread_condattr_t", "pthread_cond_t", "pthread_key_t", "pthread_mutexattr_t", "pthread_mutex_t",
   "pthread_once_t", "pthread_rwlockattr_t", "pthread_rwlock_t", "pthread_spinlock_t", "pthread_t",
   "ptrdiff_t", "rlim_t", "short int", "sig_atomic_t", "size_t", "ssize_t", "suseconds_t", "timer_t",
   "time_t", "uid_t", "uint16_t", "uint32_t", "uint64_t", "uint8_t", "uint_fast16_t", "uint_fast32_t",
   "uint_fast64_t", "uint_fast8_t", "uint_least16_t", "uint_least32_t", "uint_least64_t", "uint_least8_t",
   "uintmax_t", "uintptr_t", "useconds_t", "void *", "wchar_t", "wint_t"]

/-- The clocks of `show_clocks_generic`, each defined or left out. -/
def clockNames : List String :=
  ["CLOCK_BOOTTIME", "CLOCK_BOOTTIME_ALARM", "CLOCK_MONOTONIC", "CLOCK_MONOTONIC_COARSE",
   "CLOCK_MONOTONIC_RAW", "CLOCK_MONOTONIC_RAW_APPROX", "CLOCK_PROCESS_CPUTIME_ID", "CLOCK_REALTIME",
   "CLOCK_REALTIME_ALARM", "CLOCK_REALTIME_COARSE", "CLOCK_REALTIME_HR", "CLOCK_TAI",
   "CLOCK_PROCESS_CPUTIME_ID", "CLOCK_THREAD_CPUTIME_ID", "CLOCK_UPTIME_RAW", "CLOCK_UPTIME_RAW_APPROX"]

/-- The names of `show_pathconfs`, each defined or left out. -/
def pathconfNames : List String :=
  ["_PC_2_SYMLINKS", "_PC_ALLOC_SIZE_MIN", "_PC_ASYNC_IO", "_PC_CHOWN_RESTRICTED", "_PC_FILESIZEBITS",
   "_PC_LINK_MAX", "_PC_MAX_CANON", "_PC_MAX_INPUT", "_PC_NAME_MAX", "_PC_NO_TRUNC", "_PC_PATH_MAX",
   "_PC_PIPE_BUF", "_PC_PRIO_IO", "_PC_REC_INCR_XFER_SIZE", "_PC_REC_MAX_XFER_SIZE",
   "_PC_REC_MIN_XFER_SIZE", "_PC_REC_XFER_ALIGN", "_PC_SOCK_MAXBUF", "_PC_SYMLINK_MAX", "_PC_SYNC_IO",
   "_PC_VDISABLE"]

/-- The constants of `c_iflag` that `show_tty_attrs` shows. -/
def iflagConsts : List MapEntry :=
  [.plain "IGNBRK", .plain "BRKINT", .plain "IGNPAR", .plain "PARMRK", .plain "INPCK", .plain "ISTRIP",
   .plain "INLCR", .plain "IGNCR", .plain "ICRNL", .guarded "IUCLC", .plain "IXON", .plain "IXANY",
   .plain "IXOFF", .plain "IMAXBEL", .guarded "IUTF8"]

/-- The constants of `c_oflag` that `show_tty_attrs` shows. -/
def oflagConsts : List MapEntry :=
  [.plain "OPOST", .guarded "OLCUC", .plain "ONLCR", .plain "OCRNL", .plain "ONOCR", .plain "ONLRET",
   .guarded "OFILL", .guarded "OFDEL", .guarded "NLDLY", .guarded "CRDLY", .guarded "TABDLY",
   .guarded "BSDLY", .guarded "VTDLY", .guarded "FFDLY"]

/-- The constants of `c_cflag` that `show_tty_attrs` shows. -/
def cflagConsts : List MapEntry :=
  [.guarded "CBAUDEX", .plain "CSIZE", .plain "CSTOPB", .plain "CREAD", .plain "PARENB", .plain "PARODD",
   .plain "HUPCL", .plain "CLOCAL", .guarded "CIBAUD", .guarded "CMSPAR", .plain "CRTSCTS"]

/-- The constants of `c_lflag` that `show_tty_attrs` shows. -/
def lflagConsts : List MapEntry :=
  [.plain "ISIG", .guarded "XCASE", .plain "ICANON", .plain "ECHO", .plain "ECHOE", .plain "ECHOK",
   .plain "ECHONL", .plain "ECHOCTL", .plain "ECHOPRT", .plain "ECHOKE", .plain "FLUSHO", .plain "NOFLSH",
   .plain "TOSTOP", .plain "PENDIN", .plain "IEXTEN"]

/-- The constants of `c_cc` that `show_tty_attrs` shows. -/
def ccElems : List MapEntry :=
  [.plain "VINTR", .plain "VQUIT", .plain "VERASE", .plain "VKILL", .plain "VEOF", .plain "VTIME",
   .plain "VMIN", .guarded "VSWTC", .plain "VSTART", .plain "VSTOP", .plain "VSUSP", .plain "VEOL",
   .plain "VREPRINT", .plain "VDISCARD", .plain "VWERASE", .plain "VLNEXT", .plain "VEOL2"]

/-- The macros of `show_compiler`, and whether the value is shown. -/
def featureTestMacros : List (String × Bool) :=
  [("_ATFILE_SOURCE", false), ("_BSD_SOURCE", false), ("_DEFAULT_SOURCE", false),
   ("_FILE_OFFSET_BITS", true), ("_FORTIFY_SOURCE", false), ("_GNU_SOURCE", false),
   ("_ISOC11_SOURCE", false), ("_ISOC2Y_SOURCE", false), ("_ISOC95_SOURCE", false),
   ("_ISOC99_SOURCE", false), ("_LARGEFILE64_SOURCE", false), ("_LARGEFILE_SOURCE", false),
   ("_POSIX_C_SOURCE", true), ("_POSIX_RAW_SOCKETS", false), ("_POSIX_SOURCE", false),
   ("_REENTRANT", false), ("__STDC_VERSION__", true), ("__STRICT_ANSI__", false),
   ("__STDC_WANT_IEC_60559_BFP_EXT__", true), ("__STDC_WANT_IEC_60559_FUNCS_EXT__", true),
   ("__STDC_WANT_LIB_EXT2__", true), ("_SVID_SOURCE", false), ("_THREAD_SAFE", false),
   ("_XOPEN_SOURCE", true), ("_XOPEN_SOURCE_EXTENDED", false), ("__STDC_ANALYZABLE__", false),
   ("__STDC_LIB_EXT1__", false), ("__STDC_NO_THREADS__", false), ("__STDC_NO_ATOMICS__", false),
   ("__STDC_IEC_559__", false), ("__STDC_IEC_559_COMPLEX__", false), ("__STDC_NO_COMPLEX__", false),
   ("__STDC_NO_VLA__", false)]

end Tables

section Lookups

variable (build : Build)

/-- `get_scheduler_name`. -/
def getSchedulerName (sched : Int) := mapName "get_scheduler_name" true sched (build.map Tables.schedulerMap)

/-- `get_thread_scheduler_name`: the table has no sentinel. -/
def getThreadSchedulerName (sched : Int) :=
  mapName "get_thread_scheduler_name" false sched (build.map Tables.threadSchedPolicyMap)

/-- `get_signal_name`. -/
def getSignalName (signum : Int) : Except Halt (Option String) :=
  if signum = 0 then .error (.assertFailed "get_signal_name")
  else mapName "get_signal_name" true signum (build.map Tables.signalMapLinux)

/-- `get_personality_name`. -/
def getPersonalityName (domain : Nat) :=
  mapName "get_personality_name" true ((domain &&& (build.value "PER_MASK").toNat : Nat) : Int)
    (build.map Tables.personalityMapLinux)

/-- `get_ioprio_class_name`. -/
def getIoprioClassName (ioprio : Int) :=
  mapName "get_ioprio_class_name" true ioprio (build.map Tables.ioPrioritiesClassMap)

/-- `get_numa_policy`: the table has no sentinel. -/
def getNumaPolicy (policy : Int) :=
  mapName "get_numa_policy" false policy (build.map Tables.numaMempolicyMap)

/-- `get_speed`. -/
def getSpeed (speed : Nat) := mapName "get_speed" true (speed : Int) (build.map Tables.baudSpeeds)

end Lookups

end Procenv
