import Procenv.Model.System

/-!
# The ancestry

`handle_proc_branch_freebsd`, `handle_proc_branch_netbsd`, `handle_proc_branch_openbsd` and
`handle_proc_branch_darwin` from the process table on, and `handle_proc_branch_linux` from the files on:
the loops that walk from the process to its ancestors, and the text that they build. A walk that does not
end has no result, whatever the fuel.
-/

namespace Procenv

open Show

/-- What is read of an entry of the process table. -/
structure KinfoProc where
  pid : Int
  ppid : Int
  comm : MbStr
deriving DecidableEq

namespace Ancestry

/-- `%d`. -/
def fmtPid (pid : Int) : MbStr := bytes (toString pid)

/-- `%d ('%s')`. -/
def procText (p : KinfoProc) : MbStr := fmtPid p.pid ++ bytes " ('" ++ p.comm ++ bytes "')"

/-- `%d ('%*s')`: the name is filled up with blanks in front. -/
def procTextPadded (width : Nat) (p : KinfoProc) : MbStr :=
  procText { p with comm := List.replicate (width - p.comm.length) 32 ++ p.comm }

/-! ## FreeBSD -/

/-- The variables of the loop. -/
structure Search where
  pidToFind : Int
  foundPid : Bool
  str : MbStr

/-- A pass through the table: the pid to find changes on the way. -/
def scanFreebsd (caller : Int) : List KinfoProc → Search → Search
  | [], s => s
  | p :: procs, s =>
    if p.pid = s.pidToFind then
      scanFreebsd caller procs
        { pidToFind := p.ppid, foundPid := true
          str := s.str ++ (if s.pidToFind = caller then [] else bytes ", ") ++ procText p }
    else scanFreebsd caller procs s

/-- `while (true)`. -/
def walkFreebsd (caller : Int) (procs : List KinfoProc) : (fuel : Nat) → Search → Option MbStr
  | 0, _ => none
  | fuel + 1, s =>
    let s := scanFreebsd caller procs { s with foundPid := false }
    if !s.foundPid ∨ s.pidToFind = 0 then some s.str else walkFreebsd caller procs fuel s

/-- `handle_proc_branch_freebsd`: the text of the entry `ancestry`. -/
def handleProcBranchFreebsd (procs : List KinfoProc) (caller : Int) (fuel : Nat) : Option MbStr :=
  walkFreebsd caller procs fuel ⟨caller, false, []⟩

/-! ## NetBSD, OpenBSD and Darwin -/

/-- The lowest pid, from the first entry on. -/
def ultimateParent (fn : String) : List KinfoProc → Except Halt Int
  | [] => .error (.outOfBounds fn)
  | p :: procs => .ok (procs.foldl (fun ultimate p => if p.pid < ultimate then p.pid else ultimate) p.pid)

/-- The variables of the loops. -/
structure Walk where
  current : Int
  done : Bool
  str : MbStr

section Walk

variable (root ultimate : Int) (text : KinfoProc → MbStr)

/-- A pass through the table: it ends with the last process if that has the pid `root`, the lowest one. -/
def scan : List KinfoProc → Walk → Walk
  | [], w => w
  | p :: procs, w =>
    if p.pid = w.current then
      if ultimate = root ∧ w.current = ultimate then { w with str := w.str ++ text p, done := true }
      else scan procs { w with str := w.str ++ text p ++ bytes ", ", current := p.ppid }
    else scan procs w

/-- `while (! done)`. -/
def walk (procs : List KinfoProc) : (fuel : Nat) → Walk → Option MbStr
  | 0, _ => none
  | fuel + 1, w => if w.done then some w.str else walk procs fuel (scan root ultimate text procs w)

end Walk

/-- The walk of a platform whose last process has the pid `root`. -/
def handleProcBranch (fn : String) (root : Int) (text : KinfoProc → MbStr) (procs : List KinfoProc) (caller : Int)
    (fuel : Nat) : Except Halt (Option MbStr) := do
  let ultimate ← ultimateParent fn procs
  return walk root ultimate text procs fuel ⟨caller, false, []⟩

/-- `handle_proc_branch_netbsd`, with `KI_MAXCOMLEN`. -/
def handleProcBranchNetbsd (kiMaxcomlen : Nat) :=
  handleProcBranch "handle_proc_branch_netbsd" 0 (procTextPadded kiMaxcomlen)

/-- `handle_proc_branch_openbsd`. -/
def handleProcBranchOpenbsd := handleProcBranch "handle_proc_branch_openbsd" 1 procText

/-- `handle_proc_branch_darwin`. -/
def handleProcBranchDarwin := handleProcBranch "handle_proc_branch_darwin" 0 procText

/-! ## Linux -/

/-- `PROCENV_TASK_COMM_NAME_LEN`. -/
def taskCommNameLen : Nat := 15

/-- The path of the `status` file. -/
def statusPath (pid : MbStr) : MbStr := bytes "/proc/" ++ pid ++ bytes "/status"

/-- The variables `name` and `ppid`, which have no value before they are written. They are kept from one
file to the next. -/
structure Status where
  name : Option MbStr := none
  ppid : Option MbStr := none

/-- What stands behind a label and a tab, as much as fits. Behind a label at the end of the line is
what the buffer had there before. -/
def statusField (label buffer : MbStr) : Except Halt MbStr :=
  if buffer.length = label.length then .error (.outOfBounds "handle_proc_branch_linux")
  else .ok ((buffer.drop (1 + label.length)).take taskCommNameLen)

/-- The loop over the lines of a `status` file. -/
def readStatus : List MbStr → Status → Except Halt Status
  | [], s => .ok s
  | line :: lines, s => do
    let buffer ← chompLine "handle_proc_branch_linux" line
    let mut s := s
    if (bytes "Name:").isPrefixOf buffer then
      s := { s with name := some (← statusField (bytes "Name:") buffer) }
    if (bytes "PPid:").isPrefixOf buffer then
      -- all that is needed now
      return { s with ppid := some (← statusField (bytes "PPid:") buffer) }
    readStatus lines s

/-- A variable that is read. -/
def written (var : Option MbStr) : Except Halt MbStr :=
  match var with
  | some text => .ok text
  | none => .error (.outOfBounds "handle_proc_branch_linux")

/-- `while (true)`; `fopen` gives what is in a file, if there is one. -/
def walkLinux (fopen : MbStr → Option MbStr) :
    (fuel : Nat) → (pid : MbStr) → Status → (str : MbStr) → Except Halt (Option MbStr)
  | 0, _, _, _ => .ok none
  | fuel + 1, pid, s, str =>
    match fopen (statusPath pid) with
    | none => .ok (some (str ++ bytes "unknown"))
    | some content => do
      let s ← readStatus (fgetsLines procenvBuffer [] content) s
      let name ← written s.name
      let str := str ++ pid ++ bytes " ('" ++ name ++ bytes "')"
      if pid = bytes "1" then return some str
      let ppid ← written s.ppid
      walkLinux fopen fuel ppid s (str ++ bytes ", ")

/-- `handle_proc_branch_linux`: the text of the entry `ancestry`. -/
def handleProcBranchLinux (fopen : MbStr → Option MbStr) (pid : Int) (fuel : Nat) : Except Halt (Option MbStr) :=
  walkLinux fopen fuel (fmtPid pid) {} []

end Ancestry

end Procenv
