import Procenv.Model.Tables

/-!
# The searches of the tables

Every lookup is the same loop: it runs up to the entry with a `NULL` name and returns the
first name whose number is the key. `mapName_eq` says what the loop does for any table, and
`call_iff` when a lookup stays in its table: two of the tables have no such last entry.
-/

namespace Procenv

/-- The functions that look a number up in a map. -/
inductive MapLookup
  | threadScheduler
  | numaPolicy
  | scheduler
  | ioprioClass
  | signal
  | personality
  | speed
deriving DecidableEq

namespace MapLookup

/-- The table of a lookup. -/
def table : MapLookup → List MapEntry
  | threadScheduler => Tables.threadSchedPolicyMap
  | numaPolicy => Tables.numaMempolicyMap
  | scheduler => Tables.schedulerMap
  | ioprioClass => Tables.ioPrioritiesClassMap
  | signal => Tables.signalMapLinux
  | personality => Tables.personalityMapLinux
  | speed => Tables.baudSpeeds

/-- The call with the argument in the word `key`. -/
def call (build : Build) : MapLookup → (key : BitVec 32) → Except Halt (Option String)
  | threadScheduler, key => getThreadSchedulerName build key.toInt
  | numaPolicy, key => getNumaPolicy build key.toInt
  | scheduler, key => getSchedulerName build key.toInt
  | ioprioClass, key => getIoprioClassName build key.toInt
  | signal, key => getSignalName build key.toInt
  | personality, key => getPersonalityName build key.toNat
  | speed, key => getSpeed build key.toNat

/-- The number that the call looks for: of a persona, the part in `PER_MASK`. -/
def number (build : Build) : MapLookup → (key : BitVec 32) → BitVec 32
  | personality, key => BitVec.ofNat 32 (key.toNat &&& (build.value "PER_MASK").toNat)
  | _, key => key

end MapLookup

/-- The name of the first entry with the number `num`, if there is one. -/
def firstName (num : BitVec 32) (m : List (String × Int)) : Option String :=
  (m.find? fun e => BitVec.ofInt 32 e.2 = num).map Prod.fst

/-- **The search of any table.** It returns the first name with the number; if there is none it
ends at the sentinel, or behind a table without one. -/
theorem mapName_eq (fn : String) (sentinel : Bool) (num : Int) (m : List (String × Int)) :
    mapName fn sentinel num m =
      match firstName (BitVec.ofInt 32 num) m with
      | some name => .ok (some name)
      | none => if sentinel then .ok none else .error (.outOfBounds fn) := by
  induction m with
  | nil => rfl
  | cons e m ih =>
    obtain ⟨name, n⟩ := e
    by_cases hn : BitVec.ofInt 32 n = BitVec.ofInt 32 num
    · simp [mapName, firstName, hn]
    · simp only [mapName, firstName, if_neg hn, List.find?_cons, decide_eq_false hn]
      exact ih

theorem mapName_sentinel (fn : String) (num : Int) (m : List (String × Int)) :
    mapName fn true num m = .ok (firstName (BitVec.ofInt 32 num) m) := by
  rw [mapName_eq]
  cases firstName (BitVec.ofInt 32 num) m <;> rfl

/-- Without a sentinel the search stays in the table exactly if the number is there. -/
theorem mapName_bare (fn : String) (num : Int) (m : List (String × Int)) :
    mapName fn false num m = .ok (firstName (BitVec.ofInt 32 num) m) ↔
      ∃ e ∈ m, BitVec.ofInt 32 e.2 = BitVec.ofInt 32 num := by
  have hsome : (∃ e ∈ m, BitVec.ofInt 32 e.2 = BitVec.ofInt 32 num) ↔
      (firstName (BitVec.ofInt 32 num) m).isSome := by simp [firstName]
  rw [hsome, mapName_eq]
  cases firstName (BitVec.ofInt 32 num) m <;> simp

namespace MapLookup

variable {build : Build}

/-- **When a lookup stays in its table** and returns the name of the first entry with the number,
or `NULL` if there is none: the table has the number or a sentinel, and signal 0 is not asked for. -/
theorem call_iff (l : MapLookup) (key : BitVec 32) :
    l.call build key = .ok (firstName (l.number build key) (build.map l.table)) ↔
      ((l = .threadScheduler ∨ l = .numaPolicy) → ∃ e ∈ build.map l.table, BitVec.ofInt 32 e.2 = key) ∧
        (l = .signal → key ≠ 0) := by
  have hint : BitVec.ofInt 32 key.toInt = key := BitVec.ofInt_toInt
  have hnat : BitVec.ofInt 32 key.toNat = key := by
    rw [BitVec.ofInt_natCast, BitVec.ofNat_toNat, BitVec.setWidth_eq]
  cases l with
  | threadScheduler =>
    simpa [call, getThreadSchedulerName, number, table, hint] using
      mapName_bare "get_thread_scheduler_name" key.toInt (build.map Tables.threadSchedPolicyMap)
  | numaPolicy =>
    simpa [call, getNumaPolicy, number, table, hint] using
      mapName_bare "get_numa_policy" key.toInt (build.map Tables.numaMempolicyMap)
  | scheduler => simp [call, getSchedulerName, mapName_sentinel, number, table, hint]
  | ioprioClass => simp [call, getIoprioClassName, mapName_sentinel, number, table, hint]
  | signal =>
    have hzero : key.toInt = 0 ↔ key = 0 := by
      rw [← BitVec.toInt_inj]
      rfl
    simp [call, getSignalName, mapName_sentinel, number, table, hint, hzero]
  | personality => simp [call, getPersonalityName, mapName_sentinel, number, table]
  | speed => simp [call, getSpeed, mapName_sentinel, number, table, hnat]

/-- The numbers of the scheduling policies on Linux. -/
def linuxPolicies : Build :=
  { (default : Build) with
    value := fun const =>
      match const with
      | "SCHED_FIFO" => 1
      | "SCHED_RR" => 2
      | _ => 0 }

/-- `SCHED_BATCH` (3) is no policy of the table: the search reads behind it. -/
theorem call_threadScheduler_batch :
    firstName 3 (linuxPolicies.map threadScheduler.table) = none ∧
      threadScheduler.call linuxPolicies 3 = .error (.outOfBounds "get_thread_scheduler_name") := by
  decide

end MapLookup

end Procenv
