import Procenv.Data.Interact
import Procenv.Model.Output

/-!
# The system under the display routines

A display routine asks the C library and the kernel, and makes calls on the document.
`Call` lists what it asks, with the type of the answers: `none` is a failing call, and
the same call may be answered differently the next time. `Show` is a routine as the
tree of all that it may do (`Interact.Prog`).

`Build` is what the preprocessor and the compiler know: which macros are defined and
what they stand for. `Env` is what a routine finds in the global variables.
-/

namespace Procenv

open Text Interact

/-! ## The build and the globals -/

/-- The macros and the types of a build. -/
structure Build where
  /-- `#if defined`. -/
  defined : String → Bool
  /-- The value of an integer macro. -/
  value : String → Int
  /-- The value of a string macro. -/
  text : String → MbStr
  /-- The value of a numeric macro as `%e` writes it. -/
  scientific : String → WStr
  sizeof : String → Nat
  bigEndian : Bool
deriving Inhabited

/-- `struct passwd`. -/
structure Passwd where
  pwName : MbStr
  pwGecos : MbStr
  pwDir : MbStr
  pwShell : MbStr
  pwGid : Int
deriving Inhabited

/-- `struct procenv_user`. -/
structure User where
  pid : Int
  ppid : Int
  sid : Int
  procName : MbStr
  pgroup : Int
  fgPgroup : Int
  ctrlTerminal : MbStr
  ttyFd : Int
  uid : Int
  euid : Int
  suid : Int
  gid : Int
  egid : Int
  sgid : Int
  login : Option MbStr
  passwd : Passwd
deriving Inhabited

/-- `struct procenv_misc`. -/
structure Misc where
  umaskValue : Nat
  cwd : MbStr
  root : MbStr
deriving Inhabited

/-- `struct procenv_priority`. -/
structure Priority where
  process : Int
  pgrp : Int
  user : Int
deriving Inhabited

/-- `struct utsname`. -/
structure Utsname where
  sysname : MbStr
  nodename : MbStr
  release : MbStr
  version : MbStr
  machine : MbStr
  domainname : MbStr
deriving Inhabited

/-- The globals that the display routines read. -/
structure Env where
  build : Build
  locale : Locale
  outputFormat : OutputFormat
  programName : MbStr
  argvp : List MbStr
  environ : List MbStr
  user : User
  misc : Misc
  priority : Priority
  priorityIo : Priority
  uts : Utsname

instance : Inhabited Env where
  default := {
    build := default, locale := posixLocale, outputFormat := .text, programName := [], argvp := [], environ := []
    user := default, misc := default, priority := default, priorityIo := default, uts := default }

/-! ## The answers -/

/-- `struct stat`. -/
structure Stat where
  devMajor : Nat
  devMinor : Nat
  rdevMajor : Nat
  rdevMinor : Nat
  ino : Nat
  mode : Nat
  nlink : Nat
  uid : Int
  gid : Int
  size : Nat
  blocks : Nat
  atime : Nat
  mtime : Nat
  ctime : Nat

/-- `struct statvfs`. -/
structure Statvfs where
  bsize : Nat
  blocks : Nat
  bfree : Nat
  bavail : Nat
  files : Nat
  ffree : Nat
  /-- The halves of `f_fsid`. -/
  fsid : Nat × Nat

/-- `struct mntent`. -/
structure Mntent where
  fsname : MbStr
  dir : MbStr
  type : MbStr
  opts : MbStr
  freq : Int
  passno : Int

/-- `struct sockaddr`: the family, and what `getnameinfo` answers for it. -/
structure Sockaddr where
  family : Nat
  data : MbStr

/-- `struct ifaddrs`. -/
structure Ifaddrs where
  name : MbStr
  flags : Nat
  addr : Option Sockaddr
  netmask : Option Sockaddr
  broadaddr : Option Sockaddr
  dstaddr : Option Sockaddr

/-- `struct termios`, with the speeds. -/
structure Termios where
  iflag : Nat
  oflag : Nat
  cflag : Nat
  lflag : Nat
  cc : Int → Nat
  ispeed : Nat
  ospeed : Nat

/-- `struct ipc_perm`. -/
structure IpcPerm where
  key : Nat
  seq : Nat
  mode : Nat
  uid : Nat
  gid : Nat
  cuid : Nat
  cgid : Nat

/-- `struct msginfo`. -/
structure Msginfo where
  msgpool : Int
  msgmap : Int
  msgmax : Int
  msgmnb : Int
  msgmni : Int
  msgssz : Int
  msgtql : Int
  msgseg : Int

/-- `struct msqid_ds`. -/
structure MsqidDs where
  perm : IpcPerm
  stime : Nat
  rtime : Nat
  ctime : Nat
  cbytes : Nat
  qnum : Nat
  qbytes : Nat
  lspid : Int
  lrpid : Int

/-- `struct seminfo`. -/
structure Seminfo where
  semmap : Int
  semmni : Int
  semmns : Int
  semmnu : Int
  semmsl : Int
  semopm : Int
  semume : Int
  semusz : Int
  semvmx : Int
  semaem : Int

/-- `struct semid_ds`. -/
structure SemidDs where
  perm : IpcPerm
  otime : Nat
  ctime : Nat
  nsems : Nat

/-- `struct shm_info`. -/
structure ShmInfo where
  usedIds : Nat
  shmTot : Nat
  shmRss : Nat
  shmSwp : Nat
  swapAttempts : Nat
  swapSuccesses : Nat

/-- `struct shmid_ds`. -/
structure ShmidDs where
  perm : IpcPerm
  atime : Nat
  dtime : Nat
  ctime : Nat
  cpid : Int
  lpid : Int
  nattch : Nat
  segsz : Nat

/-- `struct sysinfo`. -/
structure Sysinfo where
  memUnit : Nat
  totalram : Nat
  freeram : Nat
  sharedram : Nat
  bufferram : Nat
  totalswap : Nat
  freeswap : Nat

/-- The resource usage, field by field. -/
structure Rusage where
  maxrss : Nat
  ixrss : Nat
  idrss : Nat
  isrss : Nat
  minflt : Nat
  majflt : Nat
  nswap : Nat
  inblock : Nat
  oublock : Nat
  msgsnd : Nat
  msgrcv : Nat
  nsignals : Nat
  nvcsw : Nat
  nivcsw : Nat

/-- `struct tm`, as far as it is shown. -/
structure Tm where
  year : Int
  mon : Int
  mday : Int
  hour : Int
  min : Int

/-- `struct winsize`. -/
structure Winsize where
  row : Nat
  col : Nat
  xpixel : Nat
  ypixel : Nat

/-- What a routine asks, and the type of the answer. -/
inductive Call : Type → Type
  /-- `malloc`, `calloc`, `strdup`: whether there is memory. -/
  | alloc : Call Bool
  /-- `fopen` and `fgets` to the end: the content of the file. -/
  | fopen (path : MbStr) : Call (Option MbStr)
  /-- `opendir` and `readdir` to the end. -/
  | opendir (path : MbStr) : Call (Option (List MbStr))
  | readlink (path : MbStr) : Call (Option MbStr)
  | realpath (path : MbStr) : Call (Option MbStr)
  | stat (path : MbStr) : Call (Option Stat)
  | statvfs (dir : MbStr) : Call (Option Statvfs)
  /-- `fopen` of `/proc/mounts` and `getmntent` to the end. -/
  | getmntent : Call (Option (List Mntent))
  /-- `pathconf`: the value, and whether `errno` is set. -/
  | pathconf (path : MbStr) (name : String) : Call (Int × Bool)
  /-- `sysconf`: the value, and whether `errno` is set. -/
  | sysconf (name : String) : Call (Int × Bool)
  /-- `confstr` without a buffer: the length, and whether `errno` is set. -/
  | confstrSize (name : String) : Call (Nat × Bool)
  /-- `confstr`: the length and the string. -/
  | confstr (name : String) : Call (Nat × MbStr)
  | getcwd : Call (Option MbStr)
  | getenv (name : String) : Call (Option MbStr)
  | setlocale (category : String) : Call (Option MbStr)
  /-- `strcoll a b <= 0`. -/
  | strcoll : Call (MbStr → MbStr → Bool)
  /-- `getpwuid`: the name of the user. -/
  | getpwuid (uid : Int) : Call (Option MbStr)
  /-- `getgrgid`: the name of the group. -/
  | getgrgid (gid : Int) : Call (Option MbStr)
  /-- `getgroups`, called with more and more room until it succeeds or `realloc` fails. -/
  | getgroups : Call (Option (List Int))
  | isatty (fd : Int) : Call Bool
  /-- `fcntl (fd, F_GETFL)`: whether it succeeds, and whether `errno` is `EBADF` after it. -/
  | fcntlGetfl (fd : Int) : Call (Bool × Bool)
  | tcgetattr (fd : Int) : Call (Option Termios)
  /-- `ioctl (fd, TIOCGLCKTRMIOS)`. -/
  | ioctlLocked (fd : Int) : Call (Option Termios)
  /-- `ioctl (fd, TIOCGWINSZ)`. -/
  | ioctlWinsize (fd : Int) : Call (Option Winsize)
  /-- `ioctl (fd, VT_GETMODE)`: whether it succeeds. -/
  | ioctlVtMode (fd : Int) : Call Bool
  /-- `open ("/dev/tty")`: whether it succeeds. -/
  | openTty : Call Bool
  | sigprocmask : Call Bool
  | sigismember (signum : Nat) : Call Int
  /-- `sigaction`: whether the signal is ignored. -/
  | sigaction (signum : Nat) : Call (Option Bool)
  | strsignal (signum : Nat) : Call (Option MbStr)
  | getrusage : Call (Option Rusage)
  | getrlimit (name : String) : Call (Option (Nat × Nat))
  /-- `clock_getres`: the text of the resolution. -/
  | clockGetres (name : String) : Call (Option WStr)
  /-- `clock_gettime`: seconds and nanoseconds. -/
  | clockGettime : Call (Option (Nat × Nat))
  | localtime (seconds : Nat) : Call (Option Tm)
  | asctime (tm : Tm) : Call (Option MbStr)
  /-- `ctime`, `ctime_r`. -/
  | ctime (t : Nat) : Call (Option MbStr)
  /-- `tzname[0]`, `tzname[1]`, `timezone` and `daylight` after `tzset`. -/
  | tzset : Call (MbStr × MbStr × Int × Int)
  | schedGetcpu : Call Int
  | schedGetscheduler : Call Int
  /-- `get_cpuset`: the processors of the set. -/
  | getCpuset : Call (Option (Nat → Bool))
  | getpagesize : Call Int
  | sysinfo : Call (Option Sysinfo)
  | numaAvailable : Call Int
  | getMempolicy : Call (Option Int)
  | numaNumPossibleNodes : Call Int
  | numaNumConfiguredNodes : Call Int
  /-- `numa_get_mems_allowed`: the mask, by its bits. -/
  | numaGetMemsAllowed : Call (Option (List Bool))
  /-- `prctl`: the result, and what it stores. -/
  | prctl (option : String) : Call (Int × Int)
  | prctlName : Call (Option MbStr)
  /-- `prctl (PR_CAP_AMBIENT, PR_CAP_AMBIENT_IS_SET, cap)`. -/
  | prctlAmbient (cap : Int) : Call Int
  | capGetProc : Call Bool
  | capGetBound (cap : Int) : Call Int
  /-- `cap_get_bound` of the capabilities above the last known one, until it fails. -/
  | capGetBounds : Call (List Int)
  /-- `cap_get_flag`: the result, and the value that it stores. -/
  | capGetFlag (cap : Int) (flag : String) : Call (Int × Int)
  | getifaddrs : Call (Option (List Ifaddrs))
  /-- `socket`: whether it succeeds. -/
  | socket : Call Bool
  /-- `ioctl (sock, SIOCGIFHWADDR)`: the bytes of the address. -/
  | ioctlHwaddr (name : MbStr) : Call (Option (List UInt8))
  | ioctlMtu (name : MbStr) : Call (Option Int)
  | ioctlPflags (name : MbStr) : Call (Option Nat)
  /-- `getnameinfo`: the name, or the error. -/
  | getnameinfo (addr : Sockaddr) : Call (Except String MbStr)
  /-- `msgctl (0, MSG_INFO)`. -/
  | msgInfo : Call (Option (Nat × Msginfo))
  | msgStat (i : Nat) : Call (Option (Int × MsqidDs))
  | semInfo : Call (Option (Nat × Seminfo))
  | semStat (i : Nat) : Call (Option (Int × SemidDs))
  | shmInfo : Call (Option (Nat × ShmInfo))
  | shmStat (i : Nat) : Call (Option (Int × ShmidDs))
  /-- `dl_iterate_phdr`: the names and the addresses. -/
  | dlIteratePhdr : Call (List (Option MbStr × Nat))
  | personality : Call Nat
  | aaIsEnabled : Call Bool
  /-- `aa_gettaskcon`: the context and the mode. -/
  | aaGettaskcon : Call (Option (Option MbStr × Option MbStr))
  | isSelinuxEnabled : Call Int
  | isSelinuxMlsEnabled : Call Int
  | getpidcon : Call (Option (Option MbStr))
  | pthreadGetstacksize : Call Nat
  | pthreadGetscope : Call (Option Int)
  | pthreadGetguardsize : Call (Option Nat)
  /-- `pthread_getschedparam`: the policy and the priority. -/
  | pthreadGetschedparam : Call (Option (Int × Int))
  | pthreadGetinheritsched : Call (Option Int)
  | pthreadGetconcurrency : Call Int
  /-- `/proc/<pid>/status` of the process, of its parent and so on up to process 1: the pids and
  the names, and whether a file did not open. -/
  | procBranch : Call (List (MbStr × MbStr) × Bool)
  /-- `%2.2f` of the quotient. -/
  | printfFixed (value unit : Nat) : Call WStr

/-- The default of the answers: no memory, no file, no interface. -/
def Call.answer {β : Type} (c : Call β) : β := by cases c <;> exact default

/-- A display routine. -/
abbrev Show := Prog Call Event Halt

namespace Show

/-! ## Calls on the document -/

/-- `entry`, with a name that is not a literal. -/
def entryNamed (name : MbStr) (value : WStr) : Show Unit := .emit (.entry name value) (.ret ())

/-- `entry`. -/
def entry (name : String) (value : WStr) : Show Unit := entryNamed (bytes name) value

/-- Successive calls of `entry`. -/
def entries (es : List (String × WStr)) : Show Unit := es.forM fun e => entry e.1 e.2

/-- `section_open`, with a name that is not a literal. -/
def sectionOpenNamed (name : MbStr) : Show Unit := .emit (.sectionOpen name) (.ret ())

/-- `section_open`. -/
def sectionOpen (name : String) : Show Unit := sectionOpenNamed (bytes name)

/-- `section_close`. -/
def sectionClose : Show Unit := .emit .sectionClose (.ret ())

/-- `container_open`, with a name that is not a literal. -/
def containerOpenNamed (name : MbStr) : Show Unit := .emit (.containerOpen name) (.ret ())

/-- `container_open`. -/
def containerOpen (name : String) : Show Unit := containerOpenNamed (bytes name)

/-- `container_close`. -/
def containerClose : Show Unit := .emit .containerClose (.ret ())

/-- `object_open (false)`. -/
def objectOpen : Show Unit := .emit (.objectOpen false) (.ret ())

/-- `object_close (false)`. -/
def objectClose : Show Unit := .emit (.objectClose false) (.ret ())

/-- `header`. -/
def header := sectionOpen

/-- `footer`. -/
def footer := sectionClose

/-! ## Control -/

variable {α : Type}

/-- `die`. -/
def die (fmt : String) (args : List MbStr := []) : Show α := .stop (.die fmt args)

/-- `assert`. -/
def assert (fn : String) (c : Bool) : Show Unit := if c then pure () else .stop (.assertFailed fn)

/-- `if (c) m`. -/
def when (c : Bool) (m : Show Unit) : Show Unit := if c then m else pure ()

/-- An outcome as a routine. -/
def ofExcept : Except Halt α → Show α
  | .ok a => pure a
  | .error h => .stop h

theorem ofExcept_bind {β : Type} (a : α) (f : α → Show β) : (ofExcept (.ok a) >>= f) = f a := rfl

/-! ## Texts -/

/-- `%d`, `%ld`. -/
def fmtD (n : Int) : WStr := lit (toString n)

/-- `%u`, `%lu`. -/
def fmtU (n : Nat) : WStr := lit (toString n)

/-- `%x`. -/
def fmtX (n : Nat) : WStr := fmtHex 1 n

/-- `%4.4o`. -/
def fmtO (n : Nat) : WStr :=
  let digits := (Nat.toDigits 8 n).map CodePoint.ofChar
  List.replicate (4 - digits.length) 48 ++ digits

/-- `YES_STR` or `NO_STR`. -/
def yesNo (c : Bool) : WStr := if c then lit "yes" else lit "no"

/-- `UNKNOWN_STR`. -/
def unknownStr : WStr := lit "unknown"

/-- `NA_STR`. -/
def naStr : WStr := lit "n/a"

/-- `DEFINED_STR` or `NOT_DEFINED_STR`. -/
def definedStr (c : Bool) : WStr := if c then lit "defined" else lit "not defined"

variable (env : Env)

/-- `%s`: a string that does not convert keeps `wappendva` from ending. -/
def str (s : MbStr) : Show WStr := ofExcept (expandStr env.locale s)

/-- `%s` of a pointer: the C library writes `(null)` for `NULL`. -/
def strOrNull : Option MbStr → Show WStr
  | none => pure (lit "(null)")
  | some s => str env s

/-- `s ? s : default`. -/
def strOr (default : WStr) : Option MbStr → Show WStr
  | none => pure default
  | some s => str env s

/-- A text in quotes. -/
def quoted (s : WStr) : WStr := lit "'" ++ s ++ lit "'"

/-- The fields of a string for `strsep`. -/
def strsep (delim : UInt8) : MbStr → List MbStr
  | [] => [[]]
  | c :: cs =>
    if c = delim then [] :: strsep delim cs
    else match strsep delim cs with
      | [] => [[c]]
      | f :: fs => (c :: f) :: fs

/-- The strings that `fgets` stores, with a buffer of `size` bytes. -/
def fgetsLines (size : Nat) : (line : MbStr) → MbStr → List MbStr
  | line, [] => if line = [] then [] else [line]
  | line, c :: cs =>
    if c = 10 ∨ size ≤ line.length + 2 then (line ++ [c]) :: fgetsLines size [] cs
    else fgetsLines size (line ++ [c]) cs

/-- `buffer[strlen (buffer) - 1] = '\0'`. -/
def chompLine (fn : String) (line : MbStr) : Except Halt MbStr :=
  match line.takeWhile (· ≠ 0) with
  | [] => .error (.outOfBounds fn)
  | l => .ok l.dropLast

/-- `PROCENV_BUFFER`. -/
def procenvBuffer : Nat := 1024

/-- `get_user_name`. -/
def getUserName (uid : Int) : Show (Option MbStr) := do return ← Call.getpwuid uid

/-- `get_group_name`. -/
def getGroupName (gid : Int) : Show (Option MbStr) := do return ← Call.getgrgid gid

/-- `<number> ('<name>')`. -/
def withName (n : Int) (name : Option MbStr) : Show WStr := do
  return fmtD n ++ lit " (" ++ quoted (← strOrNull env name) ++ lit ")"

end Show

end Procenv
