import Procenv.Model.Main

/-!
# A whole run: the start, the output, `cleanup` and the re-exec

`runMain` is `main` without what may stop it from outside. Here a run is taken from its
first allocation to the end of the process, with any outcome of the calls it makes
(`System`): a display routine may stop after any of its calls, a text may not be
written, `execvp` may fail. What a run does to its resources is the list of its
`Effect`s: the calls of `cleanup`, and what each of them releases.

`die` shows its message, calls `cleanup` and exits. Its message may fail in turn: then
it exits without `cleanup`, or dies again where there is no memory for the text.
-/

namespace Procenv.Process

open Text

/-- What `cleanup` releases. -/
inductive Resource
  | ttyFd | outputFd | crumbList | doc
deriving DecidableEq, Repr

/-- What a run does to its resources: `cleanup` is called, and releases. -/
inductive Effect
  | cleanup
  | release (r : Resource)
deriving DecidableEq, Repr

/-- The end of a process. -/
inductive Exit
  | success
  | failure
  /-- A failing `assert`. -/
  | abort
  /-- `execvp` has succeeded. -/
  | replaced
  | hang
  /-- An access outside a buffer, or `die` in `die` until there is no stack left. -/
  | crash
deriving DecidableEq, Repr

/-- The end of an attempt of `die` to show its message. -/
inductive Message
  | shown
  /-- `fputs` fails, and `_show_output` exits. -/
  | unshown
  /-- There is no memory, and `appendva` dies. -/
  | dies
deriving DecidableEq, Repr

/-- What stops a run before its end. -/
inductive Stop
  | halt (h : Halt)
  /-- `_show_output` cannot write, and exits. -/
  | exit
deriving DecidableEq, Repr

/-- What a run has from outside. -/
structure System where
  host : Host
  getenv : String → Option MbStr
  /-- `pstring_new`. -/
  newDoc : Bool
  /-- How the copy of `PROCENV_EXEC` stops the run, if it does. -/
  copyExec : Option Halt
  /-- How `save_locale` stops the run, if it does. -/
  saveLocale : Option Halt
  /-- How `get_uname`, `get_user_info` and `get_misc` stop the run, if they do. -/
  queries : Option Halt
  /-- The calls of the `n`-th display routine that is called, and how it stops the run, if it does. -/
  routine : (n : Nat) → Routine → List Event × Option Halt
  /-- With so many options left: whether a line of the help text is written, and how the text stops the
  run, if it does. -/
  usage : Nat → Bool × Option Stop
  /-- How `_show_output_pstring` stops the run, if it does. -/
  output : Option Stop
  /-- The attempts of `die` to show a message. -/
  messages : List Message
  /-- Whether `execvp` succeeds. -/
  execvp : Bool

/-- The globals that `cleanup` reads. -/
structure Globals where
  main : MainState := {}
  /-- `doc`. -/
  hasDoc : Bool := true
  /-- `output_fd != -1`. -/
  outputFd : Bool := false

/-! ## `cleanup` and `die` -/

/-- `cleanup`: its effects, and whether an assertion fails. -/
def cleanup (g : Globals) : List Effect × Bool :=
  let settings := g.main.settings
  -- `common_assert`, and the assertion on `doc`
  if g.hasDoc ∧ 0 ≤ settings.indentAmount then
    ([.cleanup, .release .ttyFd] ++ (if g.outputFd then [.release .outputFd] else []) ++
      (if settings.outputFormat = .crumb ∧ g.main.out.crumbList.isSome then [.release .crumbList] else []) ++
      [.release .doc], false)
  else ([.cleanup], true)

/-- `die`. -/
def die (g : Globals) : List Message → List Effect × Exit
  | [] => ([], .crash)
  | .dies :: messages => die g messages
  | .unshown :: _ => ([], .failure)
  | .shown :: _ =>
    let (effects, aborted) := cleanup g
    (effects, if aborted then .abort else .failure)

/-- The end of a run that is stopped. -/
def stop (sys : System) (g : Globals) : Stop → List Effect × Exit
  | .halt (.die _ _) | .halt (.notReached _) => die g sys.messages
  | .halt (.assertFailed _) => ([], .abort)
  | .halt .hang => ([], .hang)
  | .halt (.outOfBounds _) => ([], .crash)
  | .exit => ([], .failure)

/-! ## The calls of a run -/

/-- A call of `main`, the help text, or what stops the run. -/
inductive Task
  | act (a : Action)
  | show (wrote : Bool) (result : Option Stop)
  | stop (s : Stop)

/-- The globals in a call that does not return: `--indent` has set the amount when it dies. -/
def stopped (st : MainState) : Action → MainState
  | .long (.indent optarg) =>
    if st.done then st else { st with settings := { st.settings with indentAmount := atoi optarg } }
  | _ => st

/-- `_show_output`, once or more: with `--output=file` there must be a file, which stays open. -/
def showOutput (g : Globals) (wrote : Bool) (result : Option Stop) : Globals × Option Stop :=
  match g.main.settings.output with
  | .file =>
    if g.main.settings.outputFile = none then (g, some (.halt (.assertFailed "_show_output")))
    else ({ g with outputFd := g.outputFd || wrote || result.isNone }, result)
  | .stderr | .stdout | .syslog | .term => (g, result)

/-- Run the calls up to the one that stops the run. -/
def runTasks (sys : System) : List Task → Globals → Globals × Option Stop
  | [], g => (g, none)
  | .stop s :: _, g => (g, some s)
  | .show wrote result :: tasks, g =>
    match showOutput g wrote result with
    | (g, some s) => (g, some s)
    | (g, none) => runTasks sys tasks g
  | .act a :: tasks, g =>
    match act sys.host g.main a with
    | .error h => ({ g with main := stopped g.main a }, some (.halt h))
    | .ok main => runTasks sys tasks { g with main }

variable (sys : System)

/-- The calls of a display routine. -/
def routineTasks (n : Nat) (r : Routine) : List Task :=
  (sys.routine n r).1.map (fun e => .act (.call e)) ++ (sys.routine n r).2.toList.map fun h => .stop (.halt h)

/-- The calls of the option loop. -/
def loopTasks : (n : Nat) → List Opt → List Task
  | _, [] => []
  | n, .long o :: opts => .act (.long o) :: loopTasks n opts
  | n, .display r :: opts =>
    [.act .setDone, .act .masterHeader] ++ routineTasks sys n r ++ loopTasks (n + 1) opts
  | n, .help :: opts =>
    [.act .setDone, .act .masterHeader, .act .usage, .show (sys.usage opts.length).1 (sys.usage opts.length).2] ++
      loopTasks n opts
  | n, .invalid :: opts =>
    [.act .setDone, .act .masterHeader, .stop (.halt (.die "invalid option '%c' specified" [bytes "?"]))] ++
      loopTasks n opts

/-- The calls of the display routines of `dump`. -/
def dumpTasks : (n : Nat) → List Routine → List Task
  | _, [] => []
  | n, r :: rs => routineTasks sys n r ++ dumpTasks (n + 1) rs

/-- The calls after the option loop. -/
def endTasks (done : Bool) (fmt : OutputFormat) : List Task :=
  if done then [.act .masterFooter, .act .chomp] ++ (compressActions fmt).map .act ++ [.act .checkExec]
  else [.act .checkExec, .act .masterHeader] ++ dumpTasks sys 0 dumpRoutines ++
    [.act .masterFooter, .act .chomp, .act .compress]

/-! ## The run -/

/-- `main` up to its option loop. A variable that is refused is read before those of the globals that
`cleanup` reads. -/
def start : MainState × Option Stop :=
  match checkEnvvars sys.getenv {} with
  | .error h => ({}, some (.halt h))
  | .ok st =>
    let copyExec := if (getenvSet sys.getenv "PROCENV_EXEC").isSome then sys.copyExec else none
    match copyExec.or sys.saveLocale with
    | some h => (st, some (.halt h))
    | none =>
      match init sys.host.locale st with
      | .error h => (st, some (.halt h))
      | .ok st => (st, sys.queries.map .halt)

/-- `main` up to its own call of `cleanup`: the globals then, and what has stopped the run. -/
def beforeCleanup (opts : List Opt) : Globals × Option Stop :=
  match start sys with
  | (main, some s) => ({ main }, some s)
  | (main, none) =>
    match runTasks sys (loopTasks sys 0 opts) { main } with
    | (g, some s) => (g, some s)
    | (g, none) =>
      match runTasks sys (endTasks sys g.main.done g.main.settings.outputFormat) g with
      | (g, some s) => (g, some s)
      | (g, none) => showOutput g false sys.output

/-- The end of `main` from its own call of `cleanup` on. -/
def finish (g : Globals) : List Effect × Exit :=
  let (effects, aborted) := cleanup g
  if aborted then (effects, .abort)
  else if !g.main.reexec then (effects, .success)
  else if sys.execvp then (effects, .replaced)
  else
    -- nothing that `cleanup` has released is marked as released
    let (effects', exit) := die g sys.messages
    (effects ++ effects', exit)

/-- A run of the program. -/
def run (opts : List Opt) : List Effect × Exit :=
  if !sys.newDoc then die { hasDoc := false } sys.messages
  else
    match beforeCleanup sys opts with
    | (g, some s) => stop sys g s
    | (g, none) => finish sys g

end Procenv.Process
