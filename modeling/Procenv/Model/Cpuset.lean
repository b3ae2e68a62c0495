import Procenv.Model.Basic

/-!
# `get_cpuset_linux`

The processor set of the process, in a build with `CPU_ALLOC`. The sets are numbered in the order of their
allocation: set `cs` is the one that the request `cs` for memory gives, and the one that
`pthread_getaffinity_np` is called with the `cs`-th time. What the requests and the calls answer are
parameters, and so is the number of processors.
-/

namespace Procenv.Cpuset

/-- `EINVAL`. -/
def einval : Int := 22

/-- What is done with the sets. -/
inductive SetEvent
  /-- `CPU_ALLOC (count)`. -/
  | alloc (cs : Nat) (count : Int)
  /-- `CPU_ZERO_S (size, cs)`. -/
  | zero (cs : Nat) (size : Int)
  /-- `pthread_getaffinity_np (pthread_self (), size, cs)`. -/
  | getaffinity (cs : Nat) (size : Int)
  /-- `CPU_FREE (cs)`. -/
  | free (cs : Nat)
deriving DecidableEq, Repr

/-- `CPU_ALLOC_SIZE (count)`: a bit for each processor, in words of eight bytes. -/
def cpuAllocSize (count : Int) : Int := (count + 63) / 64 * 8

variable (memory : Nat → Bool) (getaffinity : Nat → Int) (max : Int)

/-- The `while` loop: `ret` and `cs` after it, with what was done before. A set of which there is none cannot
be zeroed. -/
def retryLoop : (fuel : Nat) → (mult : Int) → (cs : Nat) → (size : Int) → (events : List SetEvent) →
    Except Halt (Int × Nat × List SetEvent)
  | 0, _, _, _, _ => .error .hang
  | fuel + 1, mult, cs, size, events =>
    let ret := getaffinity cs
    let events := events ++ [.getaffinity cs size]
    if ret = einval then
      let events := events ++ [.free cs]
      -- bail out at an arbitrary value
      if 128 < mult then .ok (ret, cs, events)
      else
        let mult := mult + 2
        let cs := cs + 1
        if !memory cs then .error (.outOfBounds "get_cpuset_linux")
        else
          let size := cpuAllocSize (mult * max)
          retryLoop fuel mult cs size (events ++ [.alloc cs (mult * max), .zero cs size])
    else .ok (ret, cs, events)

/-- `get_cpuset_linux`: what it does, and the set that it returns. -/
def getCpusetLinux (fuel : Nat) : Except Halt (List SetEvent × Option Nat) := do
  if max < 0 then return ([], none)
  if !memory 0 then return ([], none)
  let size := cpuAllocSize max
  let (ret, cs, events) ← retryLoop memory getaffinity max fuel 0 0 size [.alloc 0 max, .zero 0 size]
  if ret ≠ 0 then return (events ++ [.free cs], none)
  return (events, some cs)

end Procenv.Cpuset
