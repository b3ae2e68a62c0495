import Procenv.Model.Calls
import Procenv.Model.Pstring

/-!
# `main`: settings, option loop and the end of the document

The settings are read from the environment (`check_envvars`), checked by `init`, and
changed by the long options without a display letter. `main` is the list of the
calls it makes for an option sequence, in program order: an `Action` is one call that
touches the document, the settings or the flags, and `act` runs it. What a display
routine emits depends on the system; `Display` is what the routines of one run emit,
call by call.

`getopt_long` is not modelled: an option sequence is what it returns. The help text
goes to the output at once and not to the document.
-/

namespace Procenv

open Text

/-! ## Settings -/

/-- `isspace` in the C locale. -/
def isSpace (b : UInt8) : Bool := b = 32 || (9 ≤ b && b ≤ 13)

/-- The value of the leading digits. -/
def digitsValue : (value : Nat) → MbStr → Nat
  | value, b :: s =>
    if 48 ≤ b ∧ b ≤ 57 then digitsValue (value * 10 + (b.toNat - 48)) s else value
  | value, [] => value

/-- `strtol` in base ten, which stops at the limits of a `long`. -/
def strtol (s : MbStr) : Int :=
  match s.dropWhile isSpace with
  | 45 :: s => max (-(2 ^ 63)) (-(digitsValue 0 s : Int))
  | 43 :: s => min (2 ^ 63 - 1) (digitsValue 0 s : Int)
  | s => min (2 ^ 63 - 1) (digitsValue 0 s : Int)

/-- `atoi`: `strtol`, cut to an `int`. -/
def atoi (s : MbStr) : Int := (strtol s).bmod (2 ^ 32)

/-- `output_map`. -/
def outputMap : List (MbStr × Output) :=
  [(bytes "file", .file), (bytes "stderr", .stderr), (bytes "stdout", .stdout),
   (bytes "syslog", .syslog), (bytes "terminal", .term)]

/-- `output_format_map`. -/
def outputFormatMap : List (MbStr × OutputFormat) :=
  [(bytes "text", .text), (bytes "crumb", .crumb), (bytes "json", .json), (bytes "xml", .xml)]

/-- `set_output_value`. -/
def setOutputValue (name : MbStr) (c : Settings) : Except Halt Settings :=
  match outputMap.lookup name with
  | some o => .ok { c with output := o }
  | none => .error (.die "invalid output value: '%s'" [name])

/-- `set_output_format`. -/
def setOutputFormat (name : MbStr) (c : Settings) : Except Halt Settings :=
  match outputFormatMap.lookup name with
  | some f => .ok { c with outputFormat := f }
  | none => .error (.die "invalid output format value: '%s'" [name])

/-- The value `\t` of a character or a separator stands for a tab. -/
def tabEscape (value : MbStr) : MbStr := if value = bytes "\\t" then bytes "\t" else value

/-- `handle_indent_char`. -/
def handleIndentChar (loc : Locale) (c : Settings) : Except Halt Settings :=
  match loc.mbsrtowcs c.indentChar with
  | some [w] => .ok { c with wideIndentChar := w }
  | _ => .error (.die "invalid indent character" [])

/-- The long options that are not display options, with their arguments. -/
inductive LongOption
  | output (optarg : MbStr)
  | file (optarg : MbStr)
  | fileAppend
  | exec
  | format (optarg : MbStr)
  | indent (optarg : MbStr)
  | indentChar (optarg : MbStr)
  | separator (optarg : MbStr)
  | crumbSeparator (optarg : MbStr)
deriving DecidableEq, Repr

/-- The settings after a long option. -/
def LongOption.set (loc : Locale) (c : Settings) : LongOption → Except Halt Settings
  | .output optarg => setOutputValue optarg c
  | .file optarg => .ok { c with output := .file, outputFile := some optarg }
  | .fileAppend => .ok { c with outputFileAppend := true }
  | .exec => .ok c
  | .format optarg => setOutputFormat optarg c
  | .indent optarg =>
    if atoi optarg ≤ 0 then .error (.die "cannot specify indent <= 0" [])
    else .ok { c with indentAmount := atoi optarg }
  | .indentChar optarg => handleIndentChar loc { c with indentChar := tabEscape optarg }
  | .separator optarg => .ok { c with textSeparator := tabEscape optarg }
  | .crumbSeparator optarg => .ok { c with crumbSeparator := tabEscape optarg }

/-- The fields of `PROCENV_EXEC`: what `strsep` returns with the blank as delimiter. -/
def strsepFields : MbStr → List MbStr
  | [] => [[]]
  | b :: s =>
    if b = 32 then [] :: strsepFields s
    else
      match strsepFields s with
      | [] => [[b]]
      | field :: fields => (b :: field) :: fields

/-- The globals that `main` writes outside the output functions. -/
structure MainState where
  settings : Settings := {}
  out : OutState := {}
  done : Bool := false
  reexec : Bool := false
  execArgs : Option (List MbStr) := none

/-- The value of a variable that is set and not empty. -/
def getenvSet (getenv : String → Option MbStr) (name : String) : Option MbStr :=
  (getenv name).filter fun e => !e.isEmpty

/-- `check_envvars`, the variables of the settings. Unlike the option, the variable of the indent amount
is not checked, and that of the separator knows no tab. -/
def checkSettings (getenv : String → Option MbStr) (c : Settings) : Except Halt Settings := do
  let var := getenvSet getenv
  let mut c := c
  if let some e := var "PROCENV_OUTPUT" then c ← setOutputValue e c
  if let some e := var "PROCENV_FILE" then c := { c with output := .file, outputFile := some e }
  if (var "PROCENV_FILE_APPEND").isSome then c := { c with outputFileAppend := true }
  if let some e := var "PROCENV_FORMAT" then c ← setOutputFormat e c
  if let some e := var "PROCENV_INDENT" then c := { c with indentAmount := atoi e }
  if let some e := var "PROCENV_INDENT_CHAR" then c := { c with indentChar := tabEscape e }
  if let some e := var "PROCENV_SEPARATOR" then c := { c with textSeparator := e }
  if let some e := var "PROCENV_CRUMB_SEPARATOR" then c := { c with crumbSeparator := tabEscape e }
  return c

/-- `check_envvars`. -/
def checkEnvvars (getenv : String → Option MbStr) (st : MainState) : Except Halt MainState := do
  let settings ← checkSettings getenv st.settings
  match getenvSet getenv "PROCENV_EXEC" with
  | some e => return { st with settings, execArgs := some (strsepFields e), reexec := true }
  | none => return { st with settings }

/-- The part of `init` that touches the settings. -/
def init (loc : Locale) (st : MainState) : Except Halt MainState := do
  return { st with settings := ← handleIndentChar loc st.settings }

/-- `main` before the option loop. -/
def startMain (loc : Locale) (getenv : String → Option MbStr) : Except Halt MainState := do
  init loc (← checkEnvvars getenv {})

/-! ## Display routines -/

/-- `ShowMountType`. -/
inductive ShowMountType
  | all | mounts | pathconf
deriving DecidableEq, Repr

/-- The display routines, `show_meta` to `show_version`. -/
inductive Routine
  | showMeta | showArguments | showCapabilities | showCgroups | showClocks | showCompiler
  | showConfstrs | showCpu | showEnv | showFds | showLibc | showLibs | showRlimits | showLocale
  | showMemory | showMsgQueues | showMisc | showMounts (what : ShowMountType) | showNamespaces
  | showNetwork | showOom | showPlatform | showProc | showRanges | showRusage | showSemaphores
  | showSharedMem | showSignals | showSizeof | showStat | showSysconf | showThreads | showTime
  | showTimezone | showTtyAttrs | showUname | showVersion
deriving DecidableEq, Repr

/-- The routines that `dump` calls, in its order. -/
def dumpRoutines : List Routine :=
  [.showMeta, .showArguments, .showCapabilities, .showCgroups, .showClocks, .showCompiler,
   .showConfstrs, .showCpu, .showEnv, .showFds, .showLibc, .showLibs, .showRlimits, .showLocale,
   .showMemory, .showMsgQueues, .showMisc, .showMounts .all, .showNamespaces, .showNetwork, .showOom,
   .showPlatform, .showProc, .showRanges, .showRusage, .showSemaphores, .showSharedMem, .showSignals,
   .showSizeof, .showStat, .showSysconf, .showThreads, .showTime, .showTimezone, .showTtyAttrs,
   .showUname]

/-- What the display routines of a run do: the calls of the `n`-th routine that is called, and the
format and the arguments of the message with which it dies after them, if it does. -/
abbrev Display := (n : Nat) → Routine → List Event × Option (String × List MbStr)

/-! ## The calls of `main` -/

/-- An option as `getopt_long` returns it. -/
inductive Opt
  /-- `0`: a long option without a display letter. -/
  | long (o : LongOption)
  /-- A display letter. -/
  | display (r : Routine)
  /-- `h`. -/
  | help
  /-- `?`. -/
  | invalid
deriving DecidableEq, Repr

/-- Whether the option is not `0`. -/
def Opt.isDisplay : Opt → Bool
  | .long _ => false
  | _ => true

/-- A call of `main`. -/
inductive Action
  /-- `done = true`. -/
  | setDone
  | masterHeader
  /-- A call of a display routine. -/
  | call (e : Event)
  | halt (h : Halt)
  /-- The case of option `0`. -/
  | long (o : LongOption)
  /-- The help text, for which the indent amount is 0 from then on. -/
  | usage
  | masterFooter
  /-- The arguments of `--exec` after the loop. -/
  | checkExec
  | chomp
  | compress
deriving DecidableEq, Repr

/-- What a run of `main` has from outside. -/
structure Host where
  locale : Locale
  euid : Nat := 0
  /-- The arguments after the options. -/
  operands : List MbStr := []

/-- What the output functions read. -/
def Host.config (host : Host) (c : Settings) : Config := { c with locale := host.locale, euid := host.euid }

/-- Run one call. -/
def act (host : Host) (st : MainState) : Action → Except Halt MainState
  | .setDone => .ok { st with done := true }
  | .masterHeader => do return { st with out := ← masterHeader (host.config st.settings) st.out }
  | .call e => do return { st with out := ← step (host.config st.settings) st.out e }
  | .halt h => .error h
  | .long o => do
    -- `--exec` is the exception, and it resets the indent of an open document too
    if st.done ∧ o ≠ .exec then
      .error (.die "Must specify non-display options before display options" [])
    let settings ← o.set host.locale st.settings
    return { st with settings, reexec := st.reexec || o = .exec, out := resetIndent st.out }
  | .usage => .ok { st with settings := { st.settings with indentAmount := 0 } }
  | .masterFooter => do return { st with out := ← masterFooter (host.config st.settings) st.out }
  | .checkExec =>
    -- `exec_args` may be there already, from the environment
    if st.reexec ∧ st.execArgs = none ∧ host.operands = [] then
      .error (.die "must specify at least one argument with '--exec'" [])
    else if st.reexec ∧ st.execArgs = none then .ok { st with execArgs := some host.operands }
    else .ok st
  | .chomp => do
    let doc ← pstringChomp st.settings.wideIndentChar st.out.doc
    return { st with out := { st.out with doc } }
  | .compress => do
    let doc ← pstringCompress st.settings.wideIndentChar st.out.doc
    return { st with out := { st.out with doc } }

/-- Run a sequence of calls. -/
def runActions (host : Host) (as : List Action) (st : MainState) : Except Halt MainState :=
  as.foldlM (act host) st

/-- The calls of a display routine; one that dies has made some of its calls. -/
def routineActions (display : Display) (n : Nat) (r : Routine) : List Action :=
  let (es, death) := display n r
  es.map .call ++ death.toList.map fun (fmt, args) => .halt (.die fmt args)

/-- The calls of the option loop. -/
def loopActions (display : Display) : (n : Nat) → List Opt → List Action
  | _, [] => []
  | n, .long o :: opts => .long o :: loopActions display n opts
  | n, .display r :: opts =>
    [.setDone, .masterHeader] ++ routineActions display n r ++ loopActions display (n + 1) opts
  | n, .help :: opts => [.setDone, .masterHeader, .usage] ++ loopActions display n opts
  | n, .invalid :: opts =>
    -- the header is written before the option is looked at
    [.setDone, .masterHeader, .halt (.die "invalid option '%c' specified" [bytes "?"])] ++
      loopActions display n opts

/-- The calls of the display routines of `dump`. -/
def dumpCalls (display : Display) : (n : Nat) → List Routine → List Action
  | _, [] => []
  | n, r :: rs => routineActions display n r ++ dumpCalls display (n + 1) rs

/-- `dump`. -/
def dumpActions (display : Display) : List Action :=
  .masterHeader :: dumpCalls display 0 dumpRoutines ++ [.masterFooter]

/-- `pstring_compress` after a display option, not for XML and JSON. -/
def compressActions : OutputFormat → List Action
  | .xml | .json => []
  | .text | .crumb => [.compress]

/-- The calls after the option loop, from what the loop leaves in `done` and the format. -/
def endActions (display : Display) (done : Bool) (fmt : OutputFormat) : List Action :=
  if done then [.masterFooter, .chomp] ++ compressActions fmt ++ [.checkExec]
  else .checkExec :: dumpActions display ++ [.chomp, .compress]

/-- The calls of `main` after `init`, when the option loop leaves the format `fmt`. -/
def mainActions (display : Display) (opts : List Opt) (fmt : OutputFormat) : List Action :=
  loopActions display 0 opts ++ endActions display (opts.any Opt.isDisplay) fmt

/-- `main` after `init`, up to `_show_output_pstring`. -/
def runMain (host : Host) (display : Display) (opts : List Opt) (st : MainState) : Except Halt MainState := do
  let st ← runActions host (loopActions display 0 opts) st
  runActions host (endActions display st.done st.settings.outputFormat) st

end Procenv
