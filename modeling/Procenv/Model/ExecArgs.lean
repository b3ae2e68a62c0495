import Procenv.Model.Main

/-!
# The arguments of `PROCENV_EXEC`

The two loops of `check_envvars` over the value: one counts the arguments with `index`, the other cuts them
with `strsep` and writes them to the array that has been allocated for the count. A pointer into the value is
the text from it on, and `none` is `NULL`. The `n`-th request for memory is answered by `memory n`.
-/

namespace Procenv

namespace ExecArgs

/-- `index (s, ' ')`. -/
def index (s : MbStr) : Option MbStr :=
  match s.dropWhile (· ≠ 32) with
  | [] => none
  | c :: rest => some (c :: rest)

/-- `for (tmp = string; tmp && *tmp; )`: the loop that counts. -/
def countLoop : (fuel : Nat) → (tmp : Option MbStr) → (count : Nat) → Except Halt Nat
  | 0, _, _ => .error .hang
  | _ + 1, none, count => .ok count
  | _ + 1, some [], count => .ok count
  | fuel + 1, some (c :: s), count =>
    match index (c :: s) with
    | none => countLoop fuel none count
    | some found => countLoop fuel (some found.tail) (count + 1)

/-- `strsep (&tmp, " ")`: the token, and `tmp` after it. -/
def strsepNext (s : MbStr) : MbStr × Option MbStr :=
  (s.takeWhile (· ≠ 32),
    match s.dropWhile (· ≠ 32) with
    | [] => none
    | _ :: rest => some rest)

/-- `exec_args[i] = arg`. -/
def store (args : List (Option MbStr)) (i : Nat) (arg : MbStr) : Except Halt (List (Option MbStr)) :=
  if i < args.length then .ok (args.set i (some arg)) else .error (.outOfBounds "check_envvars")

variable (memory : Nat → Bool)

/-- The loop that builds the argument array, from the index `i` on. -/
def buildLoop : (fuel : Nat) → (tmp : Option MbStr) → (i : Nat) → (args : List (Option MbStr)) →
    Except Halt (List (Option MbStr))
  | 0, _, _, _ => .error .hang
  | _ + 1, none, _, args => .ok args
  | fuel + 1, some s, i, args => do
    let (token, tmp) := strsepNext s
    if !memory (2 + i) then .error (.die "failed to allocate space for exec arg" [])
    buildLoop fuel tmp (i + 1) (← store args i token)

/-- The part of `check_envvars` for a value of `PROCENV_EXEC`: the array `exec_args`. -/
def execArgs (fuel : Nat) (e : MbStr) : Except Halt (List (Option MbStr)) := do
  if !memory 0 then .error (.die "failed to copy environment string" [])
  if e = [] then .error (.die "invalid command" [])
  let count ← countLoop fuel (some e) 1
  if !memory 1 then .error (.die "failed to allocate space for args copy" [])
  buildLoop memory fuel (some e) 0 (List.replicate (count + 1) none)

end ExecArgs

end Procenv
