import Procenv.Model.Main
import Procenv.Model.Tables

/-!
# The platform operations that are not particular to Linux

The functions of `platform-generic.c` that the Linux operations use, with the helpers
of `procenv.c`, `procenv.h` and `util.c` that they share with the display routines.
-/

namespace Procenv.Show

open Text

variable (env : Env)

/-! ## Helpers -/

/-- `#if defined`. -/
def ifdef (name : String) (m : Show Unit) : Show Unit := when (env.build.defined name) m

/-- `sysconf`. -/
def getSysconf (name : String) : Show Int := do return (← Call.sysconf name).1

/-- `fd_valid`. -/
def fdValid (fd : Int) : Show Bool := do
  if fd < 0 then return false
  let (ok, ebadf) ← Call.fcntlGetfl fd
  return ok && !ebadf

/-- `get_major_minor`. -/
def getMajorMinor (path : MbStr) : Show (Nat × Nat) := do
  match ← Call.stat path with
  | none => return (0, 0)
  | some st => return (st.devMajor, st.devMinor)

/-- `format_perms`, with the memory for the string. -/
def permsText (mode : Nat) : WStr :=
  let bit (b : Nat) (c : Char) : WChar := if mode.testBit b then CodePoint.ofChar c else CodePoint.ofChar '-'
  let exec (b special : Nat) (c : Char) : WChar :=
    if mode.testBit special then CodePoint.ofChar c else bit b 'x'
  [if mode &&& 0o170000 = 0o120000 then CodePoint.ofChar 'l' else CodePoint.ofChar '-',
   bit 8 'r', bit 7 'w', exec 6 11 's', bit 5 'r', bit 4 'w', exec 3 10 's', bit 2 'r', bit 1 'w', exec 0 9 't']

/-- `format_perms`, and the callers' check of it. -/
def formatPerms (mode : Nat) : Show WStr := do
  when (!(← Call.alloc)) (die "failed to allocate space for permissions string")
  return permsText mode

/-- The permission bits of a mode. -/
def permBits (mode : Nat) : Nat := mode % 2 ^ 12 + mode / 2 ^ 16 * 2 ^ 16

/-- `CTIME_BUFFER`. -/
def ctimeBuffer : Nat := 32

/-- `format_time`. -/
def formatTime (t : Nat) : Show WStr := do
  let some s ← Call.ctime t | die "failed to format time"
  when (ctimeBuffer < s.length) (die "buffer too small")
  str env (← ofExcept (chompLine "format_time" s))

/-- `show_const`. -/
def showConst (flags : Nat) (const : String) : Show Unit := do
  objectOpen
  entry const (fmtD (if flags &&& (env.build.value const).toNat ≠ 0 then 1 else 0))
  objectClose

/-- The entries of a map whose bits are set, as objects. -/
def showFlags (flags : Nat) (m : List (String × Int)) : Show Unit := m.forM fun (name, num) =>
  when (flags &&& num.toNat ≠ 0) do
    objectOpen
    entry name (lit "0x" ++ fmtX num.toNat)
    objectClose

/-- Arithmetic of `unsigned long`. -/
def wrap64 (n : Int) : Nat := (n % 2 ^ 64).toNat

/-! ## Clocks, configuration strings and path limits -/

/-- `show_clock_res`. -/
def showClockRes (clock : String) : Show Unit := do
  sectionOpen clock
  entry "resolution" ((← Call.clockGetres clock).getD unknownStr)
  sectionClose

/-- `show_clocks_generic`. -/
def showClocksGeneric : Show Unit := Tables.clockNames.forM fun clock => ifdef env clock (showClockRes clock)

/-- `_show_confstr`. -/
def showConfstr (name shown : String) : Show Unit := do
  let (len, errno) ← Call.confstrSize name
  when (len ≠ 0 && !errno) do
    when (!(← Call.alloc)) (die "failed to allocate space for confstr")
    let (len', buffer) ← Call.confstr name
    assert "show_confstrs_generic" (len' = len)
    let buffer := buffer.map fun c => if c = 10 then 32 else c
    let text ← str env buffer
    entry shown (if buffer = [] then naStr else quoted text)

/-- `show_confstrs_generic`. -/
def showConfstrsGeneric : Show Unit := Tables.confstrNames.forM fun (name, shown) =>
  ifdef env name (showConfstr env name shown)

/-- `show_pathconf`. -/
def showPathconf (path : MbStr) (name : String) : Show Unit := do
  let (conf, errno) ← Call.pathconf path name
  entry name (if conf = -1 && !errno then naStr else fmtD conf)

/-- `show_pathconfs`. -/
def showPathconfs (what : ShowMountType) (dir : MbStr) : Show Unit := do
  sectionOpenNamed (if what = .pathconf then dir else bytes "pathconf")
  Tables.pathconfNames.forM fun name => ifdef env name (showPathconf dir name)
  footer

/-! ## Processors and memory -/

/-- A list of ranges in the making: the text and the variables of the loop. -/
structure RangeList where
  text : WStr := []
  displayed : Bool := false
  count : Nat := 0
  first : Nat := 0
  last : Nat := 0

/-- Append the range. -/
def RangeList.append (r : RangeList) : WStr :=
  r.text ++ (if r.displayed then lit "," else []) ++
    (if r.first = r.last then fmtU r.first else fmtU r.first ++ lit "-" ++ fmtU r.last)

/-- A round of the loop over the members. -/
def RangeList.step (r : RangeList) (n : Nat) (isSet : Bool) : RangeList :=
  if isSet then { r with first := if r.count = 0 then n else r.first, last := n, count := r.count + 1 }
  else if r.count ≠ 0 then { r with text := r.append, displayed := true, count := 0 }
  else r

/-- The loop over the members, and the last range. -/
def rangeList (members : List Bool) : WStr :=
  let r := (members.zipIdx).foldl (fun r (isSet, n) => r.step n isSet) ({} : RangeList)
  if r.count ≠ 0 then r.append else r.text

/-- `CPU_SETSIZE`, the bits of a `cpu_set_t`. -/
def cpuSetSize : Nat := 1024

/-- `cpuset_has_cpu_linux`: `CPU_ISSET`, which takes the set for a `cpu_set_t`. -/
def cpusetHasCpuLinux (cs : Nat → Bool) (cpu : Nat) : Bool := decide (cpu < cpuSetSize) && cs cpu

/-- `show_cpu_affinities_generic`. -/
def showCpuAffinitiesGeneric : Show Unit := do
  let some cpuSet ← Call.getCpuset | return
  let max ← getSysconf "_SC_NPROCESSORS_ONLN"
  let cpuList := rangeList ((List.range max.toNat).map (cpusetHasCpuLinux cpuSet))
  entry "affinity list" (if cpuList = [] then lit "-1" else cpuList)

/-- `show_human_size_entry`. -/
def showHumanSizeEntry (value : Nat) : Show Unit := do
  let (unit, units) :=
    if value > 2 ^ 30 then (2 ^ 30, "GB")
    else if value > 2 ^ 20 then (2 ^ 20, "MB")
    else if value > 2 ^ 10 then (2 ^ 10, "KB")
    else (1, "bytes")
  let result ← Call.printfFixed value unit
  entry "human" (result ++ lit " " ++ lit units)

/-- `mk_mem_section`. -/
def mkMemSection (name : String) (value : Nat) : Show Unit := do
  sectionOpen name
  entry "bytes" (fmtU value)
  showHumanSizeEntry value
  sectionClose

/-- `show_memory_generic`. -/
def showMemoryGeneric : Show Unit := do
  let some info ← Call.sysinfo | return
  let amount (n : Nat) := wrap64 (n * info.memUnit)
  sectionOpen "ram"
  mkMemSection "total" (amount info.totalram)
  mkMemSection "free" (amount info.freeram)
  mkMemSection "shared" (amount info.sharedram)
  mkMemSection "buffer" (amount info.bufferram)
  sectionClose
  sectionOpen "swap"
  mkMemSection "total" (amount info.totalswap)
  mkMemSection "free" (amount info.freeswap)
  sectionClose

/-! ## Mounts -/

/-- `DF_BLOCK_SIZE`. -/
def dfBlockSize : Nat := 1024

/-- `PATH_MAX`. -/
def pathMax : Nat := 4096

/-- `get_canonical_generic_linux`. -/
def getCanonicalGenericLinux (path : MbStr) : Show (MbStr × Bool) := do
  let some canonical ← Call.readlink path | return (bytes "unknown", false)
  when (pathMax ≤ canonical.length) (.stop (.outOfBounds "get_canonical_generic_linux"))
  return (canonical, true)

/-- The block counts of a mount: total, used, free and available. -/
structure Blocks where
  total : Nat
  used : Nat
  free : Nat
  available : Nat

/-- The counts in blocks of `DF_BLOCK_SIZE`. -/
def dfBlocks (fs : Statvfs) : Blocks :=
  let multiplier : Nat := fs.bsize / dfBlockSize % 2 ^ 32
  let blocks := wrap64 (fs.blocks * multiplier)
  let bfree := wrap64 (fs.bfree * multiplier)
  { total := blocks, used := wrap64 (blocks - bfree), free := bfree,
    available := wrap64 (fs.bavail * multiplier) }

/-- The sizes of a mount. -/
def showMountStats : Option Statvfs → Show Unit
  | some fs => do
    entry "fsid" (fmtHex 8 fs.fsid.1 ++ fmtHex 8 fs.fsid.2)
    entry "optimal block size" (fmtU fs.bsize)
    let blocks := dfBlocks fs
    sectionOpen "blocks"
    entries [("size", fmtU dfBlockSize ++ lit " bytes"), ("total", fmtU blocks.total),
      ("used", fmtU blocks.used), ("free", fmtU blocks.free), ("available", fmtU blocks.available)]
    sectionClose
    sectionOpen "files/inodes"
    entries [("total", fmtU fs.files), ("used", fmtU (wrap64 (fs.files - fs.ffree))), ("free", fmtU fs.ffree)]
    sectionClose
  | none => do
    entry "fsid" unknownStr
    entry "optimal block size" unknownStr
    sectionOpen "blocks"
    entries [("size", fmtU dfBlockSize ++ lit " bytes"), ("total", unknownStr), ("used", unknownStr),
      ("free", unknownStr), ("available", unknownStr)]
    sectionClose
    sectionOpen "files/inodes"
    entries [("total", unknownStr), ("used", unknownStr), ("free", unknownStr)]
    sectionClose

/-- The canonical name of a file system, in quotes if there is one. -/
def canonicalText (fsname : MbStr) : Show WStr := do
  let (canonical, ret) ← getCanonicalGenericLinux fsname
  let text ← str env canonical
  return if ret then quoted text else text

/-- A mount of `show_mounts_generic_linux`. -/
def showMount (what : ShowMountType) (mnt : Mntent) : Show Unit :=
  if what = .pathconf then showPathconfs env what mnt.dir
  else do
    let fs ← Call.statvfs mnt.dir
    let (major, minor) ← getMajorMinor mnt.dir
    sectionOpenNamed mnt.dir
    entry "filesystem" (quoted (← str env mnt.fsname))
    entry "canonical" (← canonicalText env mnt.fsname)
    entry "type" (quoted (← str env mnt.type))
    entry "options" (quoted (← str env mnt.opts))
    showPathconfs env what mnt.dir
    sectionOpen "device"
    entries [("major", fmtU major), ("minor", fmtU minor)]
    sectionClose
    entries [("dump frequency", fmtD mnt.freq), ("fsck pass number", fmtD mnt.passno)]
    showMountStats fs
    sectionClose

/-- `show_mounts_generic_linux`. -/
def showMountsGenericLinux (what : ShowMountType) : Show Unit := do
  let some mnts ← Call.getmntent | return
  mnts.forM (showMount env what)

/-! ## The time zone and the libraries -/

/-- `show_timezone_generic`. -/
def showTimezoneGeneric : Show Unit := do
  let (tzname0, tzname1, timezone, daylight) ← Call.tzset
  entry "tzname[0]" (quoted (← str env tzname0))
  entry "tzname[1]" (quoted (← str env tzname1))
  entries [("timezone", fmtD timezone), ("daylight", fmtD daylight)]

/-- The part of a path behind its last slash. -/
def baseName (path : MbStr) : MbStr := (strsep 47 path).getLastD []

/-- `libs_callback`. -/
def libsCallback (name : Option MbStr) (addr : Nat) : Show Unit := do
  let some path := name | return
  if path = [] then return
  objectOpen
  sectionOpenNamed (baseName path)
  entry "path" (← str env path)
  entry "address" (if addr = 0 then lit "(nil)" else lit "0x" ++ fmtX addr)
  sectionClose
  objectClose

/-- `show_libs_generic`. -/
def showLibsGeneric : Show Unit := do
  (← Call.dlIteratePhdr).forM fun (name, addr) => libsCallback env name addr

end Procenv.Show
