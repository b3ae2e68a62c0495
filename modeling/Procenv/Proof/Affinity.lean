import Procenv.Model.Generic
import Procenv.Text.Ranges

/-!
# The lists of processors

`show_cpu_affinities_generic` writes the members of a set as ranges. `Ranging` is the
invariant of its loop: the text is that of the ranges closed so far, which are the members
seen so far up to the range that is open.

* `Ranging.step`: a round keeps the invariant.
* `rangeList_spec`: the text of a set is that of its maximal ranges.
* `ShowsBelow.mem`: a list tells the processors that it is of.
* `showCpuAffinitiesGeneric_iff`: the list is that of the set unless a processor is beyond `CPU_SETSIZE`.
-/

namespace Procenv.Show

open Text
open Interact.Prog (Oracle run_bind)

/-- The variables of the loop before the number `n`: the ranges closed so far, and the open one. -/
structure Ranging (p : Nat → Bool) (n : Nat) (r : RangeList) (closed : List RangeItem) : Prop where
  text : r.text = joinItems closed
  displayed : r.displayed = !closed.isEmpty
  members : closed.flatMap RangeItem.members ++ List.range' r.first r.count = (List.range n).filter p
  current : r.count ≠ 0 → r.last + 1 = n ∧ r.first + r.count = n
  proper : ∀ i ∈ closed, i.Proper
  apart : closed.Pairwise fun i j => i.last + 1 < j.first
  gap : ∀ i ∈ closed, i.last + 1 < if r.count = 0 then n else r.first

/-- The open range. -/
def RangeList.item (r : RangeList) : RangeItem := if r.first = r.last then .one r.first else .range r.first r.last

namespace Ranging

variable {p : Nat → Bool} {n : Nat} {r : RangeList} {closed : List RangeItem}

theorem init : Ranging p 0 {} [] :=
  ⟨rfl, rfl, rfl, fun h => absurd rfl h, by simp, List.Pairwise.nil, by simp⟩

theorem first_le (h : Ranging p n r closed) (hc : r.count ≠ 0) : r.first ≤ r.last := by
  obtain ⟨hlast, hfirst⟩ := h.current hc
  omega

theorem item_first (r : RangeList) : r.item.first = r.first := by
  unfold RangeList.item
  split <;> rfl

theorem item_last (r : RangeList) : r.item.last = r.last := by
  unfold RangeList.item
  split
  · next heq => exact heq
  · rfl

theorem item_members (h : Ranging p n r closed) (hc : r.count ≠ 0) :
    r.item.members = List.range' r.first r.count := by
  obtain ⟨hlast, hfirst⟩ := h.current hc
  rw [RangeItem.members, item_first, item_last]
  congr 1
  omega

/-- Appending the open range closes it. -/
theorem append_text (h : Ranging p n r closed) : r.append = joinItems (closed ++ [r.item]) := by
  have hsep : (if r.displayed then lit "," else []) = if closed = [] then [] else [comma] := by
    rw [h.displayed]
    cases closed <;> rfl
  have hitem : (if r.first = r.last then fmtU r.first else fmtU r.first ++ lit "-" ++ fmtU r.last) =
    r.item.text := by
    unfold RangeList.item
    split
    · rfl
    · simp only [RangeItem.text, List.append_assoc]
      rfl
  rw [RangeList.append, joinItems_concat, h.text, hsep, hitem]

/-- The closed ranges with the open one. -/
theorem ranges (h : Ranging p n r closed) (hc : r.count ≠ 0) :
    Ranges (closed ++ [r.item]) ((List.range n).filter p) where
  members := by simpa [h.item_members hc] using h.members
  proper := by
    have hle := h.first_le hc
    have hlast : r.item.Proper := by
      unfold RangeList.item
      split
      · trivial
      · next hne => exact Nat.lt_of_le_of_ne hle hne
    intro i hi
    rcases List.mem_append.1 hi with hi | hi
    · exact h.proper i hi
    · rwa [List.mem_singleton.1 hi]
  apart := by
    have hgap := h.gap
    rw [if_neg hc] at hgap
    simp only [List.pairwise_append, List.mem_singleton]
    refine ⟨h.apart, List.pairwise_singleton _ _, ?_⟩
    rintro i hi j rfl
    rw [item_first]
    exact hgap i hi

/-- **A round keeps the invariant.** -/
theorem step (h : Ranging p n r closed) : ∃ closed', Ranging p (n + 1) (r.step n (p n)) closed' := by
  have hfilter : (List.range (n + 1)).filter p = (List.range n).filter p ++ [n].filter p := by
    rw [List.range_succ, List.filter_append]
  by_cases hp : p n = true
  · -- the member opens a range, or extends the open one, which ends at `n`
    refine ⟨closed, ?_⟩
    rw [RangeList.step, if_pos hp]
    have hcurrent : (if r.count = 0 then n else r.first) + r.count = n := by
      by_cases hc : r.count = 0
      · simp [hc]
      · simpa [hc] using (h.current hc).2
    refine ⟨h.text, h.displayed, ?_, fun _ => ⟨rfl, ?_⟩, h.proper, h.apart, ?_⟩
    · rw [hfilter, ← h.members, List.range'_concat]
      by_cases hc : r.count = 0
      · simp [hc, hp]
      · simp [hc, hp, (h.current hc).2]
    · show (if r.count = 0 then n else r.first) + (r.count + 1) = n + 1
      omega
    · intro i hi
      have hgap := h.gap i hi
      simpa using hgap
  · have hpn : p n = false := by simpa using hp
    have hmembers : (List.range (n + 1)).filter p = (List.range n).filter p := by simp [hfilter, hpn]
    rw [RangeList.step, if_neg hp]
    by_cases hc : r.count = 0
    · -- no range is open
      refine ⟨closed, ?_⟩
      rw [if_neg (by simpa using hc)]
      refine ⟨h.text, h.displayed, by rw [hmembers, h.members], fun hne => absurd hc hne, h.proper, h.apart, ?_⟩
      intro i hi
      have hgap := h.gap i hi
      rw [if_pos hc] at hgap ⊢
      omega
    · -- the open range ends before `n`
      refine ⟨closed ++ [r.item], ?_⟩
      rw [if_pos hc]
      have hranges := h.ranges hc
      refine ⟨h.append_text, by simp, ?_, fun hne => absurd rfl hne, hranges.proper, hranges.apart, ?_⟩
      · simpa [hmembers] using hranges.members
      · intro i hi
        obtain ⟨hlast, hfirst⟩ := h.current hc
        rcases List.mem_append.1 hi with hi | hi
        · have hgap := h.gap i hi
          rw [if_neg hc] at hgap
          simp only [if_true]
          omega
        · rw [List.mem_singleton.1 hi, item_last, if_pos rfl]
          omega

/-- The whole loop. -/
theorem run (p : Nat → Bool) (n : Nat) : ∃ closed, Ranging p n
    ((((List.range n).map p).zipIdx).foldl (fun r (isSet, n) => r.step n isSet) ({} : RangeList)) closed := by
  induction n with
  | zero => exact ⟨[], init⟩
  | succ n ih =>
    obtain ⟨closed, h⟩ := ih
    rw [List.range_succ, List.map_append, List.zipIdx_append, List.foldl_append]
    simpa using h.step

end Ranging

/-- **The text of a set is that of its maximal ranges.** -/
theorem rangeList_spec (p : Nat → Bool) (n : Nat) :
    ∃ items, rangeList ((List.range n).map p) = joinItems items ∧ Ranges items ((List.range n).filter p) := by
  obtain ⟨closed, h⟩ := Ranging.run p n
  simp only [rangeList]
  generalize List.foldl _ _ _ = r at h ⊢
  by_cases hc : r.count = 0
  · rw [if_neg (not_not.2 hc)]
    have hmembers := h.members
    rw [hc] at hmembers
    exact ⟨closed, h.text, by simpa using hmembers, h.proper, h.apart⟩
  · rw [if_pos hc]
    exact ⟨_, h.append_text, h.ranges hc⟩

/-- The list as it should be: read back, it gives the maximal ranges of the processors of the set that
are below the bound, and it is `-1` exactly if there is no such processor. -/
structure ShowsBelow (max : Int) (cpuSet : Nat → Bool) (text : WStr) : Prop where
  none_iff : text = lit "-1" ↔ ∀ cpu : Nat, (cpu : Int) < max → cpuSet cpu = false
  items : (∃ cpu : Nat, (cpu : Int) < max ∧ cpuSet cpu = true) →
    ∃ items, readItems text = some items ∧ Ranges items ((List.range max.toNat).filter cpuSet)

/-- The text shown of a list is that of the members below the bound. -/
theorem rangeList_shows (max : Int) (p : Nat → Bool) :
    let cpuList := rangeList ((List.range max.toNat).map p)
    ShowsBelow max p (if cpuList = [] then lit "-1" else cpuList) := by
  obtain ⟨items, htext, hranges⟩ := rangeList_spec p max.toNat
  have hnone : items = [] ↔ ∀ cpu : Nat, (cpu : Int) < max → p cpu = false := by
    have hbelow : ∀ cpu : Nat, (cpu : Int) < max ↔ cpu < max.toNat := fun cpu => by omega
    rw [hranges.nil_iff, List.filter_eq_nil_iff]
    simp only [List.mem_range, hbelow, Bool.not_eq_true]
  simp only [htext]
  constructor
  · rw [← hnone]
    constructor
    · intro heq
      by_contra hne
      rw [if_neg (joinItems_ne hne rfl)] at heq
      exact joinItems_ne hne rfl heq
    · rintro rfl
      rfl
  · rintro ⟨cpu, hcpu, hin⟩
    have hne : items ≠ [] := by
      intro hnil
      rw [hnone.1 hnil cpu hcpu] at hin
      cases hin
    rw [if_neg (joinItems_ne hne rfl)]
    exact ⟨items, readItems_join hne, hranges⟩

/-- A list tells which processors below the bound are in the set. -/
theorem ShowsBelow.mem {max : Int} {p q : Nat → Bool} {text : WStr} (hp : ShowsBelow max p text)
    (hq : ShowsBelow max q text) {cpu : Nat} (hcpu : (cpu : Int) < max) (hin : p cpu = true) : q cpu = true := by
  have hshown : text ≠ lit "-1" := by
    intro hnone
    rw [hp.none_iff.1 hnone cpu hcpu] at hin
    cases hin
  have hmember : ∃ cpu : Nat, (cpu : Int) < max ∧ q cpu = true := by
    by_contra hno
    refine hshown (hq.none_iff.2 fun cpu hcpu => ?_)
    by_contra hset
    exact hno ⟨cpu, hcpu, by simpa using hset⟩
  obtain ⟨items, hread, hranges⟩ := hp.items ⟨cpu, hcpu, hin⟩
  obtain ⟨items', hread', hranges'⟩ := hq.items hmember
  obtain rfl : items = items' := Option.some.inj (hread.symm.trans hread')
  have hmem : cpu ∈ (List.range max.toNat).filter q := by
    rw [← hranges'.members, hranges.members, List.mem_filter, List.mem_range]
    exact ⟨by omega, hin⟩
  exact (List.mem_filter.1 hmem).2

/-- What is shown is the list of the members that `cpuset_has_cpu_linux` sees. -/
theorem showCpuAffinitiesGeneric_run (o : Oracle Call) (n : Nat) {cpuSet : Nat → Bool}
    (hset : o n Call.getCpuset = some cpuSet) :
    let max := (o (n + 1) (Call.sysconf "_SC_NPROCESSORS_ONLN")).1
    let cpuList := rangeList ((List.range max.toNat).map (cpusetHasCpuLinux cpuSet))
    showCpuAffinitiesGeneric.run o n =
      .ok ((), [.entry (bytes "affinity list") (if cpuList = [] then lit "-1" else cpuList)], n + 2) := by
  simp only [showCpuAffinitiesGeneric, getSysconf, run_bind, Interact.Prog.run_lift, hset]
  rfl

/-- **When the affinity list is that of the set.** An entry is shown; read back it gives the maximal
ranges of the processors of the set below the bound, or it is `-1` and there is none, exactly if the set
has no processor from `CPU_SETSIZE` on below the bound. -/
theorem showCpuAffinitiesGeneric_iff (o : Oracle Call) (n : Nat) {cpuSet : Nat → Bool}
    (hset : o n Call.getCpuset = some cpuSet) :
    let max := (o (n + 1) (Call.sysconf "_SC_NPROCESSORS_ONLN")).1
    ∃ text, showCpuAffinitiesGeneric.run o n = .ok ((), [.entry (bytes "affinity list") text], n + 2) ∧
      (ShowsBelow max cpuSet text ↔
        ∀ cpu : Nat, cpuSetSize ≤ cpu → (cpu : Int) < max → cpuSet cpu = false) := by
  intro max
  refine ⟨_, showCpuAffinitiesGeneric_run o n hset, ?_⟩
  have hshows := rangeList_shows max (cpusetHasCpuLinux cpuSet)
  constructor
  · intro hwhole cpu hsize hcpu
    by_contra hin
    -- the text tells the members, and it is that of the processors seen
    have hseen := hwhole.mem hshows hcpu (by simpa using hin)
    have hbelow : cpu < cpuSetSize := by
      simp only [cpusetHasCpuLinux, Bool.and_eq_true, decide_eq_true_eq] at hseen
      exact hseen.1
    omega
  · intro hsize
    have hsame : ∀ cpu : Nat, (cpu : Int) < max → cpusetHasCpuLinux cpuSet cpu = cpuSet cpu := by
      intro cpu hcpu
      by_cases hbelow : cpu < cpuSetSize
      · simp [cpusetHasCpuLinux, hbelow]
      · simp [cpusetHasCpuLinux, hbelow, hsize cpu (by omega) hcpu]
    have hmap : (List.range max.toNat).map (cpusetHasCpuLinux cpuSet) = (List.range max.toNat).map cpuSet := by
      refine List.map_congr_left fun cpu hcpu => hsame cpu ?_
      have hlt := List.mem_range.1 hcpu
      omega
    have hown := rangeList_shows max cpuSet
    rw [← hmap] at hown
    exact hown

/-- A machine with `max` processors and the given set. -/
def processors (max : Int) (cpuSet : List Nat) : Oracle Call := fun _ _ c =>
  match c with
  | .getCpuset => some fun cpu => cpu ∈ cpuSet
  | .sysconf _ => (max, false)
  | c => c.answer

/-- Four processors, and a set with three of them and one beyond. -/
theorem showCpuAffinitiesGeneric_iff_gap :
    ∃ text, showCpuAffinitiesGeneric.run (processors 4 [0, 2, 3, 5]) 0 =
        .ok ((), [.entry (bytes "affinity list") text], 2) ∧
      ShowsBelow 4 (fun cpu => cpu ∈ [0, 2, 3, 5]) text := by
  have hset : processors 4 [0, 2, 3, 5] 0 Call.getCpuset = some fun cpu => decide (cpu ∈ [0, 2, 3, 5]) := rfl
  obtain ⟨text, hrun, hiff⟩ := showCpuAffinitiesGeneric_iff (processors 4 [0, 2, 3, 5]) 0 hset
  refine ⟨text, hrun, hiff.2 fun cpu hsize hcpu => ?_⟩
  have hfour : (cpu : Int) < 4 := hcpu
  rw [cpuSetSize] at hsize
  omega

/-- Processor 1500 of 2000 is not listed. -/
theorem showCpuAffinitiesGeneric_beyond :
    showCpuAffinitiesGeneric.run (processors 2000 [1500]) 0 =
        .ok ((), [.entry (bytes "affinity list") (lit "-1")], 2) ∧
      ¬ ShowsBelow 2000 (fun cpu => cpu ∈ [1500]) (lit "-1") := by
  have hset : processors 2000 [1500] 0 Call.getCpuset = some fun cpu => decide (cpu ∈ [1500]) := rfl
  have hshows := rangeList_shows 2000 (cpusetHasCpuLinux fun cpu => decide (cpu ∈ [1500]))
  have hnone := hshows.none_iff.2 fun cpu _ => by
    by_cases hbelow : cpu < cpuSetSize
    · have hne : cpu ≠ 1500 := by
        rw [cpuSetSize] at hbelow
        omega
      simp [cpusetHasCpuLinux, hne]
    · simp [cpusetHasCpuLinux, hbelow]
  constructor
  · rw [← hnone]
    exact showCpuAffinitiesGeneric_run (processors 2000 [1500]) 0 hset
  · intro h
    have hout := h.none_iff.1 rfl 1500 (by decide)
    cases hout

end Procenv.Show
