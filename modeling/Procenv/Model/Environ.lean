import Procenv.Model.Display

/-!
# `show_env` and `qsort`

`show_env` with what `qsort` leaves of the copied array: where strings collate the same, their order is
not specified. The routine of `Display` has a stable sort there.
-/

namespace Procenv.Show

variable (env : Env)

/-- `show_env`: the strings are sorted before they are cut at `=`. -/
def showEnvWith (qsort : (MbStr → MbStr → Bool) → List MbStr → List MbStr) : Show Unit := do
  header "environment"
  allocOrDie "failed to allocate storage"
  env.environ.forM fun _ => allocOrDie "failed to allocate storage"
  let le ← Call.strcoll
  (qsort le env.environ).forM (showEnvVar env)
  footer

theorem showEnv_eq : showEnv env = showEnvWith env fun le xs => xs.mergeSort le := rfl

end Procenv.Show
