import Procenv.Data.Words
import Procenv.Model.Append
import Procenv.Model.Generic

/-!
# The libraries on Darwin

`show_libs_darwin` with what dyld has loaded as an argument: an image is the cells of the memory from its header
on, and an address is the distance from there. A load outside them ends the run.
-/

namespace Procenv.Show

open Text Data

/-- `uint32_t`. -/
abbrev Word := BitVec 32

/-- The number in four bytes, in the byte order of the host. -/
def wordOf (bigEndian : Bool) (bs : List UInt8) : Word := BitVec.ofNat 32 (ofBytes (inOrder bigEndian bs))

/-- `basename` of a copy of a path; `strdup` may have left none. -/
def basename : Option MbStr → MbStr
  | none => bytes "."
  | some path =>
    -- the slashes at the end are no part of the name
    match (path.reverse.dropWhile (· = 47)).reverse with
    | [] => if path = [] then bytes "." else bytes "/"
    | c :: cs => baseName (c :: cs)

/-- `get_macho_version`. -/
def getMachoVersion (version : Word) : MbStr :=
  if version = -1 then bytes "(unknown)"
  else
    let major := version >>> 16
    let minor := version >>> 8 &&& 0xff
    let patch := version &&& 0xff
    bytes (toString major.toNat ++ "." ++ toString minor.toNat ++ "." ++ toString patch.toNat)

/-- The load commands that `handle_load_cmds` considers. -/
def consideredCmds : List String :=
  ["LC_ID_DYLIB", "LC_LOAD_DYLIB", "LC_LOAD_WEAK_DYLIB", "LC_REEXPORT_DYLIB", "LC_LOAD_UPWARD_DYLIB",
    "LC_LAZY_LOAD_DYLIB"]

variable (env : Env)

/-- The value of a macro, as a word. -/
def macroWord (name : String) : Word := BitVec.ofInt 32 (env.build.value name)

/-- `consider`. -/
def consider (cmd : Word) : Bool := consideredCmds.any fun name => cmd = macroWord env name

/-- `mach_header_size`. -/
def machHeaderSize (magic : Word) : Nat :=
  if magic = macroWord env "MH_MAGIC_64" ∨ magic = macroWord env "MH_CIGAM_64" then
    env.build.sizeof "struct mach_header_64"
  else env.build.sizeof "struct mach_header"

/-- A load of a `uint32_t`. -/
def load32 (m : Buffer UInt8) (p : Nat) : Show Word := do
  return wordOf env.build.bigEndian (← ofExcept (access "handle_load_cmds" (m.load p 4)))

/-- What is shown of the library of a `struct dylib_command` at `lc`; `dlopen` is what opening it yields. -/
def showLibrary (dlopen : MbStr → Option Nat) (m : Buffer UInt8) (lc : Nat) : Show Unit := do
  -- `struct dylib dylib = dl->dylib`, with the time stamp
  let offset ← load32 env m (lc + 8)
  let _ ← load32 env m (lc + 12)
  let currentVersion ← load32 env m (lc + 16)
  let compatibilityVersion ← load32 env m (lc + 20)
  let path ← ofExcept (access "handle_load_cmds" (Buffer.string 0 (m.drop (lc + offset.toNat))))
  let tmp := if ← Call.alloc then some path else none
  objectOpen
  sectionOpenNamed (basename tmp)
  if let some addr := dlopen path then entry "address" (lit "0x" ++ fmtX addr)
  entry "path" (← str env path)
  sectionOpen "versions"
  entry "current" (← str env (getMachoVersion currentVersion))
  entry "compatibility" (← str env (getMachoVersion compatibilityVersion))
  sectionClose
  sectionClose
  objectClose

/-- The loop of `handle_load_cmds`, with `cmds` commands left from the one at `p`, which is the `i`-th. -/
def loadCmds (dlopen : Nat → MbStr → Option Nat) (m : Buffer UInt8) : (cmds i p : Nat) → Show Unit
  | 0, _, _ => pure ()
  | cmds + 1, i, p => do
    let cmd ← load32 env m p
    when (consider env cmd) (showLibrary env (dlopen i) m p)
    let cmdsize ← load32 env m (p + 4)
    loadCmds dlopen m cmds (i + 1) (p + cmdsize.toNat)

/-- `handle_load_cmds`. -/
def handleLoadCmds (dlopen : Nat → MbStr → Option Nat) (header : Option (Buffer UInt8)) : Show Unit := do
  let some m := header | return
  -- `header->ncmds`
  let cmds ← load32 env m 16
  if cmds = 0 then return
  let magic ← load32 env m 0
  loadCmds env dlopen m cmds.toNat 0 (machHeaderSize env magic)

/-- `show_libs_darwin`: the path of the executable, and the names and the headers of the images. -/
def showLibsDarwin (dlopen : Nat → MbStr → Option Nat) (path : Option MbStr)
    (images : List (Option MbStr × Option (Buffer UInt8))) : Show Unit := do
  let some path := path | return
  match images.find? fun image => image.1 = some path with
  | none => return
  | some (_, header) => handleLoadCmds env dlopen header

end Procenv.Show
