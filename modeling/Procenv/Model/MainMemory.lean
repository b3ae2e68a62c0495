import Procenv.Model.Document
import Procenv.Model.InPlace
import Procenv.Model.Main
import Procenv.Model.Multibyte

/-!
# `main` on the document's buffer

`main` as in `Model.Main`, with `doc` as the `pstring` that the output functions append to
and that `pstring_chomp` and `pstring_compress` change in place, and what `main` does with
it at the end: `_show_output_pstring` makes a multibyte string of the buffer.
-/

namespace Procenv.Document

open Text

/-- The globals that `main` writes. -/
structure MainMemory where
  settings : Settings := {}
  out : DocState := {}
  done : Bool := false
  reexec : Bool := false
  execArgs : Option (List MbStr) := none

/-- `main` before the option loop. -/
def startMain (loc : Locale) (getenv : String → Option MbStr) : Except Halt MainMemory := do
  let st ← Procenv.startMain loc getenv
  return { settings := st.settings, done := st.done, reexec := st.reexec, execArgs := st.execArgs }

variable (host : Host) (print : WStr → Vswprintf)

/-- A call of the output functions. -/
def MainMemory.call (st : MainMemory) (call : DocCall) : Except Halt MainMemory :=
  match runCall (host.config st.settings) print st.out call with
  | .ok out => .ok { st with out }
  | .error stop => .error stop.halt

/-- A call of a `pstring` function on `doc`; without a document it stops as given. -/
def MainMemory.onDoc (st : MainMemory) (missing : Halt) (f : Pstring → Except Halt Pstring) :
    Except Halt MainMemory :=
  match st.out.doc with
  | none => .error missing
  | some str => do
    let str ← f str
    return { st with out := { st.out with doc := some str } }

/-- Run one call. -/
def act (st : MainMemory) : Action → Except Halt MainMemory
  | .setDone => .ok { st with done := true }
  | .masterHeader => st.call host print .masterHeader
  | .call e => st.call host print (.event e)
  | .halt h => .error h
  | .long o => do
    if st.done ∧ o ≠ .exec then
      .error (.die "Must specify non-display options before display options" [])
    let settings ← o.set host.locale st.settings
    return { st with settings, reexec := st.reexec || o = .exec, out := resetIndent st.out }
  | .usage => .ok { st with settings := { st.settings with indentAmount := 0 } }
  | .masterFooter => st.call host print .masterFooter
  | .checkExec =>
    if st.reexec ∧ st.execArgs = none ∧ host.operands = [] then
      .error (.die "must specify at least one argument with '--exec'" [])
    else if st.reexec ∧ st.execArgs = none then .ok { st with execArgs := some host.operands }
    else .ok st
  | .chomp => st.onDoc (.assertFailed "pstring_chomp") (·.chompAt st.settings.wideIndentChar)
  | .compress => st.onDoc (.outOfBounds "pstring_compress") (·.compressAt st.settings.wideIndentChar)

/-- Run a sequence of calls. -/
def runActions (as : List Action) (st : MainMemory) : Except Halt MainMemory := as.foldlM (act host print) st

/-- `main` after `init`, up to `_show_output_pstring`. -/
def runMain (display : Display) (opts : List Opt) (st : MainMemory) : Except Halt MainMemory := do
  let st ← runActions host print (loopActions display 0 opts) st
  runActions host print (endActions display st.done st.settings.outputFormat) st

section Output

variable (encode : WStr → Option MbStr) (calloc : Nat → Bool)

/-- `pstring_to_char`. -/
def pstringToChar (str : Pstring) : Except Halt (Option MbStr) :=
  if str.buf = [] then .error (.assertFailed "wchar_to_char")
  else do
    let wstr ← access "wchar_to_char" (str.buf.string 0)
    wcharToChar encode calloc wstr

/-- `_show_output_pstring`: the string that `_show_output` writes. -/
def showOutputPstring : Option Pstring → Except Halt MbStr
  | none => .error (.assertFailed "_show_output_pstring")
  | some pstr => do
    match ← pstringToChar encode calloc pstr with
    | none => .error (.assertFailed "_show_output")
    | some str => return str

/-- `main` from its start: what it writes at the end. -/
def mainOutput (getenv : String → Option MbStr) (display : Display) (opts : List Opt) : Except Halt MbStr := do
  let st ← startMain host.locale getenv
  let st ← runMain host print display opts st
  showOutputPstring encode calloc st.out.doc

end Output

end Procenv.Document
