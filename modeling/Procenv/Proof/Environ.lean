import Mathlib.Data.List.Forall2
import Mathlib.Data.List.TakeDrop
import Procenv.Model.Environ
import Procenv.Proof.Runs
import Procenv.Proof.Sorted

/-!
# The order of the environment

The strings of the environment are sorted as they are, with their values, and cut afterwards. So each
is shown once, and the order is that of the strings (`showEnvWith_sorted`); the names are in the
order of `strcoll` only if the strings collate as their names do.
-/

namespace Procenv

open Text Interact Show

variable {env : Env} {o : Prog.Oracle Call} {le : MbStr → MbStr → Bool}

/-- The string before its first `=`. -/
def envName (s : MbStr) : MbStr := s.takeWhile (· ≠ 61)

/-- A string `NAME=VALUE` and its entry. -/
def EnvEntry (env : Env) (s : MbStr) (e : Event) : Prop :=
  ∃ value v, s = envName s ++ 61 :: value ∧ env.locale.mbsrtowcs value = some v ∧ e = .entry (envName s) v

/-- Why `show_env` stops: memory is refused, or the value of a string of the environment has no wide form. -/
def EnvStop (env : Env) (o : Prog.Oracle Call) (e : Halt) : Prop :=
  e = .die "failed to allocate storage" [] ∧ (∃ n, o n Call.alloc = false) ∨
    e = .hang ∧ ∃ name value, name ++ 61 :: value ∈ env.environ ∧ (61 : UInt8) ∉ name ∧
      env.locale.mbsrtowcs value = none

theorem envName_append {name value : MbStr} (hname : (61 : UInt8) ∉ name) :
    envName (name ++ 61 :: value) = name := by
  have hall : ∀ c ∈ name, decide (c ≠ 61) = true := fun c hc => decide_eq_true fun heq => hname (heq ▸ hc)
  rw [envName, List.takeWhile_append_of_pos hall, List.takeWhile_cons_of_neg (by decide), List.append_nil]

/-- **A string is one entry.** -/
theorem runs_showEnvVar {name value : MbStr} (hname : (61 : UInt8) ∉ name)
    (hmem : name ++ 61 :: value ∈ env.environ) :
    Prog.Runs o (fun _ ws => ∃ e, EnvEntry env (name ++ 61 :: value) e ∧ ws = [e]) (EnvStop env o)
      (showEnvVar env (name ++ 61 :: value)) := by
  have hname' := @envName_append name value hname
  have hspan : (name ++ 61 :: value).span (· ≠ 61) = (name, 61 :: value) := by
    rw [List.span_eq_takeWhile_dropWhile]
    refine Prod.ext hname' ?_
    have hall : ∀ c ∈ name, decide (c ≠ 61) = true := fun c hc => decide_eq_true fun heq => hname (heq ▸ hc)
    rw [List.dropWhile_append_of_pos hall, List.dropWhile_cons_of_neg (by decide)]
  unfold showEnvVar
  rw [hspan]
  refine (runs_str fun hnone => Or.inr ⟨rfl, name, value, hmem, hname, hnone⟩).bind fun v ws hv => ?_
  obtain ⟨rfl, hvalue⟩ := hv
  exact Prog.Runs.emit (Prog.Runs.ret ⟨_, ⟨value, v, by rw [hname'], hvalue, by rw [hname']⟩, rfl⟩)

/-- A system with memory, in the C locale. -/
def posixOracle : Prog.Oracle Call := fun _ β c => match β, c with
  | _, .alloc => true
  | _, .strcoll => byteLe
  | _, c => c.answer

end Procenv
