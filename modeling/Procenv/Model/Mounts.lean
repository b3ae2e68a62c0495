import Procenv.Model.Append
import Procenv.Model.Display

/-!
# The mounts on the BSDs and Darwin

`show_mounts_generic_bsd`, with what `getmntinfo` finds as an argument. `MountOpts` is
`get_mount_opts_generic_bsd` on the cells of the memory that it allocates.
-/

namespace Procenv

open Text Data

/-- What is read of a `procenv_mnt_type`. -/
structure MntInfo where
  stat : Statvfs
  flags : Nat
  mntonname : MbStr
  mntfromname : MbStr
  fstypename : MbStr

namespace Show

/-- The second pass of `get_mount_opts_generic_bsd`: `count` names are left. -/
def joinMountOpts (flags : Nat) : (opts : List (String × Nat)) → (count : Nat) → (text : MbStr) → MbStr
  | [], _, text => text
  | (name, num) :: opts, count, text =>
    if flags &&& num ≠ 0 then
      joinMountOpts flags opts (count - 1) (text ++ bytes name ++ if 1 < count then bytes "," else [])
    else joinMountOpts flags opts count text

/-- `get_mount_opts_generic_bsd`: `none` if `strdup` fails. -/
def getMountOptsGenericBsd (opts : List (String × Nat)) (flags : Nat) : Show (Option MbStr) := do
  if flags = 0 then return if ← Call.alloc then some [] else none
  allocOrDie "failed to allocate space for mount options"
  return some (joinMountOpts flags opts (opts.countP fun e => flags &&& e.2 ≠ 0) [])

variable (env : Env) (mntoptMap : List (String × Nat)) (what : ShowMountType)

/-- A mount as a section. -/
def showMntInfo (mnt : MntInfo) (opts : MbStr) : Show Unit := do
  let (major, minor) ← getMajorMinor mnt.mntonname
  let blocks := dfBlocks mnt.stat
  sectionOpenNamed mnt.mntfromname
  entry "dir" (quoted (← str env mnt.mntonname))
  entry "type" (← str env mnt.fstypename)
  entry "options" (quoted (← str env opts))
  sectionOpen "device"
  entries [("major", fmtU major), ("minor", fmtU minor)]
  sectionClose
  entry "fsid" (fmtHex 8 mnt.stat.fsid.1 ++ fmtHex 8 mnt.stat.fsid.2)
  entry "optimal block size" (fmtU mnt.stat.bsize)
  sectionOpen "blocks"
  entries [("size", fmtU dfBlockSize ++ lit " bytes"), ("total", fmtU blocks.total),
    ("used", fmtU blocks.used), ("free", fmtU blocks.free), ("available", fmtU blocks.available)]
  sectionClose
  sectionOpen "files/inodes"
  entries [("total", fmtU mnt.stat.files), ("used", fmtU (wrap64 (mnt.stat.files - mnt.stat.ffree))),
    ("free", fmtU mnt.stat.ffree)]
  sectionClose
  sectionClose

/-- A round of the loop of `show_mounts_generic_bsd`. -/
def showMountBsd (mnt : MntInfo) : Show Unit := do
  let some opts ← getMountOptsGenericBsd mntoptMap mnt.flags
    | die "cannot determine FS flags for mountpoint '%s'" [mnt.mntonname]
  when (what = .all || what = .mounts) (showMntInfo env mnt opts)
  when (what = .all || what = .pathconf) (showPathconfs env what mnt.mntonname)

/-- `show_mounts_generic_bsd`. -/
def showMountsGenericBsd (mounts : List MntInfo) : Show Unit := do
  when (mounts.length = 0) (die "unable to query mount info")
  mounts.forM (showMountBsd env mntoptMap what)

end Show

/-! ## The option string in its memory -/

/-- A row of a `procenv_map64` table that has a name. -/
structure ProcenvMap64 where
  name : MbStr
  num : Nat
  noZero : 0 ∉ name

namespace MountOpts

variable (flags : Nat)

/-- The loop that sizes the string, on the table from `opt` on: `count` and `len`. A row whose name is
`NULL` is `none`. -/
def sizeLoop : (opt : List (Option ProcenvMap64)) → (count : Int) → (len : Nat) → Except Halt (Int × Nat)
  | [], _, _ => .error (.outOfBounds "get_mount_opts_generic_bsd")
  | none :: _, count, len => .ok (count, len)
  | some opt :: opts, count, len =>
    if flags &&& opt.num ≠ 0 then sizeLoop opts (count + 1) (len + opt.name.length)
    else sizeLoop opts count len

/-- The size of the memory. -/
def totalSize (count : Int) (len : Nat) : Nat :=
  if 1 < count then len + (count - 1).toNat + 1 else len + 1

/-- `strcat (str, src)`. -/
def strcat (str : Buffer UInt8) (src : MbStr) : Except Halt (Buffer UInt8) :=
  access "get_mount_opts_generic_bsd" (str.cat 0 0 src src.length)

/-- What the loop that builds the string does with a name when `count` are left. -/
def addName (str : Buffer UInt8) (name : MbStr) (count : Int) : Except Halt (Buffer UInt8) := do
  let str ← strcat str name
  if 1 < count then strcat str (bytes ",") else return str

/-- The loop that builds the string. -/
def buildLoop : (opt : List (Option ProcenvMap64)) → (count : Int) → (str : Buffer UInt8) →
    Except Halt (Buffer UInt8)
  | [], _, _ => .error (.outOfBounds "get_mount_opts_generic_bsd")
  | none :: _, _, str => .ok str
  | some opt :: opts, count, str =>
    if flags &&& opt.num ≠ 0 then do buildLoop opts (count - 1) (← addName str opt.name count)
    else buildLoop opts count str

/-- `get_mount_opts_generic_bsd`: the memory that it returns. Allocation succeeds. -/
def getMountOpts (opts : List (Option ProcenvMap64)) : Except Halt (Buffer UInt8) := do
  if flags = 0 then return [some 0]
  let (count, len) ← sizeLoop flags opts 0 0
  buildLoop flags opts count (List.replicate (totalSize count len) (some 0))

end MountOpts

end Procenv
