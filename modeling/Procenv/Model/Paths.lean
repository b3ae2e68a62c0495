import Procenv.Model.Display
import Procenv.Model.Multibyte

/-!
# The buffers of `get_path` and `get_canonical_generic_linux`

The two functions with every access to a path element and to their buffers of `PATH_MAX` bytes. An access
outside ends the run. The output of a run is the paths that it tries with `stat`.
-/

namespace Procenv.Paths

open Text Interact Show

/-- A function that tries paths. -/
abbrev PathRun := Prog Call MbStr Halt

/-- The access of `fn` to `count` bytes from the index `first` on, in an object of `size` bytes. -/
def access (fn : String) (size first count : Nat) : PathRun Unit :=
  if first + count ≤ size then pure () else .stop (.outOfBounds fn)

/-- `stat`: whether there is such a file. -/
def tryStat (path : MbStr) : PathRun Bool := do
  .emit path (.ret ())
  return (← Call.stat path).isSome

/-- `strdup`. -/
def strdup (s : MbStr) : PathRun (Option MbStr) := return if ← Call.alloc then some s else none

/-- `strncat (dst, src, n)` in a buffer of `PATH_MAX` bytes: up to `n` bytes, and always a terminator. -/
def strncat (fn : String) (dst src : MbStr) (n : Nat) : PathRun MbStr := do
  access fn pathMax 0 (dst.length + 1)
  access fn pathMax dst.length ((src.take n).length + 1)
  return dst ++ src.take n

/-- The loop over the elements of the path. The index of the last character is of the type `size_t`. -/
def searchPath (argv0 : MbStr) : List MbStr → PathRun (Option MbStr)
  | [] => return none
  | element :: elements => do
    access "get_path" (element.length + 1) 0 (element.length + 1)
    access "get_path" (element.length + 1) (sizeT (element.length + sizeMax)) 1
    let possible := element ++ (if element.getLast? = some 47 then [] else [47]) ++ argv0
    -- `sprintf`, with the terminator
    access "get_path" pathMax 0 (possible.length + 1)
    if ← tryStat possible then strdup possible
    else searchPath argv0 elements

/-- `get_path`. -/
def getPath (env : Env) (argv0 : MbStr) : PathRun (Option MbStr) := do
  if argv0.head? = some 47 then strdup argv0
  else if 47 ∈ argv0 then
    access "get_path" pathMax 0 pathMax
    let some cwd ← Call.getcwd | .stop (.assertFailed "get_path")
    access "get_path" pathMax 0 (cwd.length + 1)
    let size := pathMax - cwd.length
    let path ← strncat "get_path" cwd [47] size
    let size := size - 1
    let path ← strncat "get_path" path argv0 size
    access "get_path" pathMax (pathMax - 1) 1
    let path := path.take (pathMax - 1)
    if ← tryStat path then strdup path else return none
  else
    let path := (← Call.getenv "PATH").getD (env.build.text "_PATH_STDPATH")
    match ← strdup path with
    | none => .stop (.assertFailed "get_path")
    | some path => searchPath argv0 (strsep 58 path)

/-- `get_canonical_generic_linux` with a buffer of `len` bytes: `readlink` stores as many bytes as there is
room for, and no terminator. -/
def getCanonicalGenericLinux (path : MbStr) (len : Nat) : PathRun (MbStr × Bool) := do
  match ← Call.readlink path with
  | none =>
    access "get_canonical_generic_linux" len 0 ((bytes "unknown").length + 1)
    return (bytes "unknown", false)
  | some target =>
    let canonical := target.take len
    access "get_canonical_generic_linux" len 0 canonical.length
    let index := if canonical.length ≤ len then canonical.length else len
    access "get_canonical_generic_linux" len index 1
    return (canonical.take index, true)

end Procenv.Paths
