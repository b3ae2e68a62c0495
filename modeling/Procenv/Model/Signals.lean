import Procenv.Model.Display

/-!
# The signals of a platform

`show_signals` with the map of a platform (`ops->signal_map`), the entries before its sentinel. With the
map of Linux it is the routine of `Display`.
-/

namespace Procenv.Show

open Text

variable (env : Env) (signalMap : List (String × Int))

/-- `get_signal_name`. -/
def signalName (signum : Int) : Except Halt (Option String) :=
  if signum = 0 then .error (.assertFailed "get_signal_name") else mapName "get_signal_name" true signum signalMap

/-- A round of the loop of `show_signals`. -/
def showSignalOf (i : Nat) : Show Unit := do
  let rc ← Call.sigismember i
  let some ignored ← Call.sigaction i | return
  if rc < 0 then return
  let some name ← ofExcept (signalName signalMap i) | return
  let desc ← Call.strsignal i
  objectOpen
  sectionOpen name
  entry "number" (fmtU i)
  entry "description" (quoted (← strOr env unknownStr desc))
  entry "blocked" (yesNo (rc ≠ 0))
  entry "ignored" (yesNo ignored)
  sectionClose
  objectClose

/-- `show_signals`: `max` is one more than the number of entries. -/
def showSignalsOf : Show Unit := do
  containerOpen "signals"
  when (!(← Call.sigprocmask)) (die "failed to query signal mask")
  (List.range' 1 signalMap.length).forM (showSignalOf env signalMap)
  containerClose

theorem showSignals_eq : showSignals env = showSignalsOf env (env.build.map Tables.signalMapLinux) := rfl

end Procenv.Show
