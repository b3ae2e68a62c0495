import Procenv.Model.Cpuset

/-!
# The retry loop of `get_cpuset_linux`

As long as the affinity is refused with `EINVAL` the set is freed and a larger one allocated, so that in the
round of set `cs` all sets before it have been freed once and `cs` has not (`Held`). The loop bails out with
a set that it has freed, and the error path frees it again.

* `retryLoop_spec`: where the loop ends, and what is freed then.
* `getCpusetLinux_released_iff`: **when every set is freed once or returned**.
-/

namespace Procenv.Cpuset

variable {memory : Nat → Bool} {getaffinity : Nat → Int} {max : Int} {cs : Nat} {size : Int}
  {events : List SetEvent}

/-- **Every set is freed once, or it is the one returned.** -/
def ReleasedOnce (events : List SetEvent) (returned : Option Nat) : Prop :=
  ∀ cs count, .alloc cs count ∈ events →
    returned = some cs ∧ events.count (.free cs) = 0 ∨ returned ≠ some cs ∧ events.count (.free cs) = 1

/-- The sets before `freed` have been freed once and the others not at all; `cs` is the last one allocated. -/
structure Held (cs freed : Nat) (events : List SetEvent) : Prop where
  frees : ∀ i, events.count (.free i) = if i < freed then 1 else 0
  allocated : ∀ i count, .alloc i count ∈ events → i ≤ cs
  last : ∃ count, .alloc cs count ∈ events

/-- A call of `pthread_getaffinity_np` frees nothing. -/
theorem Held.asked (h : Held cs cs events) (size : Int) : Held cs cs (events ++ [.getaffinity cs size]) where
  frees i := by
    rw [List.count_append, h.frees i]
    rfl
  allocated i count hmem := h.allocated i count (by simpa using hmem)
  last := by
    obtain ⟨count, hmem⟩ := h.last
    exact ⟨count, List.mem_append_left _ hmem⟩

/-- The set is freed. -/
theorem Held.free (h : Held cs cs events) : Held cs (cs + 1) (events ++ [.free cs]) where
  frees i := by
    rw [List.count_append, h.frees i]
    by_cases hi : i = cs
    · rw [hi, if_neg (Nat.lt_irrefl cs), if_pos (Nat.lt_succ_self cs), List.count_singleton_self]
    · have hne : (SetEvent.free cs == SetEvent.free i) = false := by simpa using Ne.symm hi
      have hlt : i < cs + 1 ↔ i < cs := by omega
      rw [List.count_singleton, hne]
      simp only [hlt, Bool.false_eq_true, if_false, Nat.add_zero]
  allocated i count hmem := h.allocated i count (by simpa using hmem)
  last := by
    obtain ⟨count, hmem⟩ := h.last
    exact ⟨count, List.mem_append_left _ hmem⟩

/-- The next set is allocated. -/
theorem Held.next (h : Held cs (cs + 1) events) (count size : Int) :
    Held (cs + 1) (cs + 1) (events ++ [.alloc (cs + 1) count, .zero (cs + 1) size]) where
  frees i := by
    rw [List.count_append, h.frees i]
    rfl
  allocated i n hmem := by
    rcases List.mem_append.1 hmem with hmem | hmem
    · exact Nat.le_succ_of_le (h.allocated i n hmem)
    · simp only [List.mem_cons, SetEvent.alloc.injEq, reduceCtorEq, List.not_mem_nil, or_false] at hmem
      exact Nat.le_of_eq hmem.1
  last := ⟨count, List.mem_append_right _ List.mem_cons_self⟩

/-- The first set is allocated. -/
theorem held_first (count : Int) : Held 0 0 [.alloc 0 count, .zero 0 size] where
  frees i := rfl
  allocated i n hmem := by
    simp only [List.mem_cons, SetEvent.alloc.injEq, reduceCtorEq, List.not_mem_nil, or_false] at hmem
    exact Nat.le_of_eq hmem.1
  last := ⟨count, List.mem_cons_self⟩

/-! ## The loop -/

/-- A round whose set is not refused with `EINVAL` is the last one. -/
theorem retryLoop_answered (h : getaffinity cs ≠ einval) (fuel : Nat) (mult : Int) :
    retryLoop memory getaffinity max (fuel + 1) mult cs size events =
      .ok (getaffinity cs, cs, events ++ [.getaffinity cs size]) := by
  rw [retryLoop]
  exact if_neg h

/-- A round that bails out. -/
theorem retryLoop_bails (h : getaffinity cs = einval) (fuel : Nat) {mult : Int} (hmult : 128 < mult) :
    retryLoop memory getaffinity max (fuel + 1) mult cs size events =
      .ok (einval, cs, events ++ [.getaffinity cs size] ++ [.free cs]) := by
  rw [retryLoop]
  simp only [h, if_true, if_pos hmult]

/-- A round that goes on with a larger set. -/
theorem retryLoop_retries (hmemory : ∀ k, memory k = true) (h : getaffinity cs = einval) (fuel : Nat) {mult : Int}
    (hmult : ¬ 128 < mult) :
    retryLoop memory getaffinity max (fuel + 1) mult cs size events =
      retryLoop memory getaffinity max fuel (mult + 2) (cs + 1) (cpuAllocSize ((mult + 2) * max))
        (events ++ [.getaffinity cs size] ++ [.free cs] ++
          [.alloc (cs + 1) ((mult + 2) * max), .zero (cs + 1) (cpuAllocSize ((mult + 2) * max))]) := by
  rw [retryLoop]
  simp only [h, if_true, if_neg hmult, hmemory, Bool.not_true, Bool.false_eq_true, if_false]

/-- How the loop ends: with a set that is not refused with `EINVAL`, or with the last one, which it has freed. -/
def LoopEnd (getaffinity : Nat → Int) (cs : Nat) (ret : Int) (c : Nat) (ended : List SetEvent) : Prop :=
  (ret ≠ einval ∧ Held c c ended ∧ ∃ k, k < 66 ∧ getaffinity k ≠ einval) ∨
    (ret = einval ∧ Held c (c + 1) ended ∧ ∀ k, cs ≤ k → k < 66 → getaffinity k = einval)

theorem LoopEnd.before {ret : Int} {c : Nat} {ended : List SetEvent}
    (h : LoopEnd getaffinity (cs + 1) ret c ended) (hret : getaffinity cs = einval) :
    LoopEnd getaffinity cs ret c ended := by
  refine h.imp id fun ⟨heinval, hheld, hall⟩ => ⟨heinval, hheld, fun k hk hk' => ?_⟩
  rcases Nat.eq_or_lt_of_le hk with rfl | hlt
  · exact hret
  · exact hall k hlt hk'

/-- **Where the loop ends**, with rounds for all sets up to the last one. -/
theorem retryLoop_spec (hmemory : ∀ k, memory k = true) (hcs : cs ≤ 65) (h : Held cs cs events) :
    ∃ ret c ended, (∀ fuel, 66 - cs ≤ fuel →
        retryLoop memory getaffinity max fuel (2 * cs) cs size events = .ok (ret, c, ended)) ∧
      LoopEnd getaffinity cs ret c ended := by
  -- by induction on the rounds that are left before the loop bails out
  induction hleft : 65 - cs generalizing cs size events with
  | zero =>
    have hlast : cs = 65 := by omega
    by_cases hret : getaffinity cs = einval
    · refine ⟨_, _, _, ?_, Or.inr ⟨rfl, (h.asked size).free, ?_⟩⟩
      · intro fuel hfuel
        obtain ⟨fuel, rfl⟩ : ∃ k, fuel = k + 1 := ⟨fuel - 1, by omega⟩
        exact retryLoop_bails hret fuel (by omega)
      · intro k hk hk'
        obtain rfl : k = cs := by omega
        exact hret
    · refine ⟨_, _, _, ?_, Or.inl ⟨hret, h.asked size, cs, by omega, hret⟩⟩
      intro fuel hfuel
      obtain ⟨fuel, rfl⟩ : ∃ k, fuel = k + 1 := ⟨fuel - 1, by omega⟩
      exact retryLoop_answered hret fuel _
  | succ left ih =>
    by_cases hret : getaffinity cs = einval
    · have hmult : ¬ (128 : Int) < 2 * cs := by omega
      have hnext : (2 * (cs : Int)) + 2 = 2 * ((cs + 1 : Nat) : Int) := by omega
      have hheld := (h.asked size).free.next ((2 * cs + 2) * max) (cpuAllocSize ((2 * cs + 2) * max))
      obtain ⟨ret, c, ended, hrun, hend⟩ := ih (by omega) hheld (by omega)
      refine ⟨ret, c, ended, ?_, hend.before hret⟩
      intro fuel hfuel
      obtain ⟨fuel, rfl⟩ : ∃ k, fuel = k + 1 := ⟨fuel - 1, by omega⟩
      rw [retryLoop_retries hmemory hret fuel hmult, ← hrun fuel (by omega), hnext]
    · refine ⟨_, _, _, ?_, Or.inl ⟨hret, h.asked size, cs, by omega, hret⟩⟩
      intro fuel hfuel
      obtain ⟨fuel, rfl⟩ : ∃ k, fuel = k + 1 := ⟨fuel - 1, by omega⟩
      exact retryLoop_answered hret fuel _

/-! ## What is freed -/

/-- A set that is not freed is the one returned. -/
theorem Held.returned (h : Held cs cs events) : ReleasedOnce events (some cs) := by
  intro i count hmem
  rw [h.frees i]
  rcases Nat.eq_or_lt_of_le (h.allocated i count hmem) with rfl | hlt
  · exact Or.inl ⟨rfl, if_neg (Nat.lt_irrefl i)⟩
  · refine Or.inr ⟨?_, if_pos hlt⟩
    intro heq
    exact Nat.ne_of_gt hlt (Option.some.inj heq)

/-- All sets have been freed. -/
theorem Held.released (h : Held cs (cs + 1) events) : ReleasedOnce events none := by
  intro i count hmem
  rw [h.frees i, if_pos (Nat.lt_succ_of_le (h.allocated i count hmem))]
  exact Or.inr ⟨by simp, rfl⟩

/-- The set has been freed, and is freed again. -/
theorem Held.twice (h : Held cs (cs + 1) events) : ¬ ReleasedOnce (events ++ [.free cs]) none := by
  intro hreleased
  obtain ⟨count, hmem⟩ := h.last
  have hfrees : (events ++ [SetEvent.free cs]).count (.free cs) = 2 := by
    rw [List.count_append, h.frees cs, if_pos (Nat.lt_succ_self cs), List.count_singleton_self]
  rcases hreleased cs count (List.mem_append_left _ hmem) with ⟨hret, -⟩ | ⟨-, hone⟩
  · cases hret
  · omega

/-- The error path, and the other one. -/
theorem getCpusetLinux_eq (hmemory : ∀ k, memory k = true) (hmax : ¬ max < 0) {fuel : Nat} {ret : Int} {c : Nat}
    {ended : List SetEvent} (hrun : retryLoop memory getaffinity max fuel 0 0 (cpuAllocSize max)
      [.alloc 0 max, .zero 0 (cpuAllocSize max)] = .ok (ret, c, ended)) :
    getCpusetLinux memory getaffinity max fuel =
      .ok (if ret ≠ 0 then ended ++ [.free c] else ended, if ret ≠ 0 then none else some c) := by
  simp only [getCpusetLinux, if_neg hmax, hmemory, Bool.not_true, Bool.false_eq_true, if_false,
    hrun, bind, Except.bind]
  split <;> rfl

/-- **When every set is freed once or returned**: unless all of 66 calls are refused with `EINVAL`. The loop ends
in any case. -/
theorem getCpusetLinux_released_iff (hmemory : ∀ k, memory k = true) :
    ∃ events returned, (∀ fuel, 66 ≤ fuel →
        getCpusetLinux memory getaffinity max fuel = .ok (events, returned)) ∧
      (ReleasedOnce events returned ↔ max < 0 ∨ ∃ k, k < 66 ∧ getaffinity k ≠ einval) := by
  by_cases hmax : max < 0
  · refine ⟨[], none, ?_, iff_of_true ?_ (Or.inl hmax)⟩
    · intro fuel _
      rw [getCpusetLinux, if_pos hmax]
      rfl
    · intro cs count hmem
      cases hmem
  · obtain ⟨ret, c, ended, hrun, hend⟩ := @retryLoop_spec memory getaffinity max 0 (cpuAllocSize max) _ hmemory
      (Nat.zero_le 65) (held_first max)
    refine ⟨_, _, fun fuel hfuel => getCpusetLinux_eq hmemory hmax (hrun fuel hfuel), ?_⟩
    rw [or_iff_right hmax]
    rcases hend with ⟨-, hheld, hanswered⟩ | ⟨rfl, hheld, hall⟩
    · refine iff_of_true ?_ hanswered
      by_cases hret : ret = 0
      · rw [if_neg (not_not_intro hret), if_neg (not_not_intro hret)]
        exact hheld.returned
      · rw [if_pos hret, if_pos hret]
        exact hheld.free.released
    · refine iff_of_false hheld.twice ?_
      rintro ⟨k, hk, hne⟩
      exact hne (hall k (Nat.zero_le k) hk)

/-- A second, larger set is large enough. -/
theorem getCpusetLinux_released_iff_second :
    ∃ events returned, (∀ fuel, 66 ≤ fuel →
        getCpusetLinux (fun _ => true) (fun k => if k = 0 then einval else 0) 4 fuel = .ok (events, returned)) ∧
      ReleasedOnce events returned := by
  obtain ⟨events, returned, hrun, hiff⟩ := @getCpusetLinux_released_iff (fun _ => true)
    (fun k => if k = 0 then einval else 0) 4 fun _ => rfl
  exact ⟨events, returned, hrun, hiff.2 (Or.inr ⟨1, by decide, by decide⟩)⟩

/-- With every call refused a set is freed twice. -/
theorem getCpusetLinux_frees_twice :
    ∃ events, (∀ fuel, 66 ≤ fuel →
        getCpusetLinux (fun _ => true) (fun _ => einval) 4 fuel = .ok (events, none)) ∧
      ¬ ReleasedOnce events none := by
  obtain ⟨ret, c, ended, hrun, hend⟩ := @retryLoop_spec (fun _ => true) (fun _ => einval) 4 0 (cpuAllocSize 4) _
    (fun _ => rfl) (Nat.zero_le 65) (held_first 4)
  rcases hend with ⟨-, -, k, -, hk⟩ | ⟨rfl, hheld, -⟩
  · exact absurd rfl hk
  · exact ⟨_, fun fuel hfuel => getCpusetLinux_eq (fun _ => rfl) (by decide) (hrun fuel hfuel), hheld.twice⟩

end Procenv.Cpuset
