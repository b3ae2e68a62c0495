import Procenv.Data.Lineage
import Procenv.Model.Ancestry

/-!
# The walks to the ancestors

On FreeBSD the walk ends where a process is not in the table: what it has built then is the line of the
process (`Lineage`), in whatever order the table is. On the other platforms it ends at one process only,
the lowest one with the pid that the platform's last process has.

* `handleProcBranchFreebsd_lineage`: **the visible ancestors, nearest first.**
* `handleProcBranch_ends_iff`: **when the walk ends on NetBSD, OpenBSD and Darwin.**
-/

namespace Procenv.Ancestry

open Data

variable {procs ps : List KinfoProc} {caller : Int} {pre rest : List KinfoProc} {s : Search}

/-! ## FreeBSD -/

/-- The processes of a line, with commas between them. -/
def ancestryText (l : List KinfoProc) : MbStr := (bytes ", ").intercalate (l.map procText)

theorem ancestryText_concat (l : List KinfoProc) (p : KinfoProc) :
    ancestryText (l ++ [p]) = ancestryText l ++ (if l = [] then [] else bytes ", ") ++ procText p := by
  unfold ancestryText
  rw [List.map_append]
  induction l with
  | nil => simp
  | cons q l ih =>
    cases l with
    | nil => simp [List.intercalate_cons_cons]
    | cons r l =>
      simp only [List.map_cons, List.cons_append, List.intercalate_cons_cons, reduceCtorEq, if_false] at ih ⊢
      rw [ih]
      simp

/-- The processes `pre` of the line were found, and `rest` is the line from the pid to find on. -/
structure Found (procs : List KinfoProc) (caller : Int) (pre rest : List KinfoProc) (s : Search) : Prop where
  line : Lineage KinfoProc.pid KinfoProc.ppid procs s.pidToFind rest
  text : s.str = ancestryText pre
  start : pre = [] → s.pidToFind = caller
  above : pre ≠ [] → Relation.TransGen (ParentOf KinfoProc.pid KinfoProc.ppid procs) caller s.pidToFind

/-- A process that is found. -/
theorem Found.step (hnd : (procs.map KinfoProc.pid).Nodup) (hacyclic : Acyclic KinfoProc.pid KinfoProc.ppid procs)
    {p : KinfoProc} (hp : p ∈ procs) (hpid : p.pid = s.pidToFind) (h : Found procs caller pre rest s) :
    ∃ rest', rest = p :: rest' ∧ Found procs caller (pre ++ [p]) rest'
      { pidToFind := p.ppid, foundPid := true
        str := s.str ++ (if s.pidToFind = caller then [] else bytes ", ") ++ procText p } := by
  obtain ⟨rest', hrest, hline⟩ := (hpid ▸ h.line).eq_cons hnd hp
  have hparent : ParentOf KinfoProc.pid KinfoProc.ppid procs s.pidToFind p.ppid := ⟨p, hp, hpid, rfl⟩
  refine ⟨rest', hrest, hline, ?_, by simp, fun _ => ?_⟩
  · -- the process itself comes first, and does not come again
    rw [ancestryText_concat, h.text]
    by_cases hpre : pre = []
    · rw [if_pos hpre, if_pos (h.start hpre)]
    · have hne : s.pidToFind ≠ caller := fun heq => hacyclic caller (by simpa [heq] using h.above hpre)
      rw [if_neg hpre, if_neg hne]
  · by_cases hpre : pre = []
    · rw [h.start hpre] at hparent
      exact .single hparent
    · exact (h.above hpre).tail hparent

/-- **A pass** finds a part of the line, and the next process at least, if that is in the table. -/
theorem scanFreebsd_found (hnd : (procs.map KinfoProc.pid).Nodup)
    (hacyclic : Acyclic KinfoProc.pid KinfoProc.ppid procs) (hps : ps ⊆ procs)
    (h : Found procs caller pre rest s) :
    ∃ l rest', rest = l ++ rest' ∧ Found procs caller (pre ++ l) rest' (scanFreebsd caller ps s) ∧
      ((scanFreebsd caller ps s).foundPid = true ↔ s.foundPid = true ∨ l ≠ []) ∧
        ((∃ p ∈ ps, p.pid = s.pidToFind) → l ≠ []) := by
  induction ps generalizing pre rest s with
  | nil => exact ⟨[], rest, rfl, by simpa [scanFreebsd] using h, by simp [scanFreebsd], by simp⟩
  | cons p ps ih =>
    obtain ⟨hp, hps⟩ := List.cons_subset.1 hps
    rw [scanFreebsd]
    by_cases hpid : p.pid = s.pidToFind
    · rw [if_pos hpid]
      obtain ⟨rest₁, rfl, h₁⟩ := h.step hnd hacyclic hp hpid
      obtain ⟨l, rest', rfl, h', hfound, -⟩ := ih hps h₁
      refine ⟨p :: l, rest', rfl, by simpa using h', ?_, by simp⟩
      rw [hfound]
      simp
    · rw [if_neg hpid]
      obtain ⟨l, rest', hrest, h', hfound, hnext⟩ := ih hps h
      refine ⟨l, rest', hrest, h', hfound, fun hex => hnext ?_⟩
      obtain ⟨q, hq, hqpid⟩ := hex
      rcases List.mem_cons.1 hq with rfl | hq
      · exact absurd hqpid hpid
      · exact ⟨q, hq, hqpid⟩

/-- **The walk** finds the rest of the line, with a pass for each process and one more at most. -/
theorem walkFreebsd_found (hnd : (procs.map KinfoProc.pid).Nodup)
    (hacyclic : Acyclic KinfoProc.pid KinfoProc.ppid procs) (hzero : ∀ p ∈ procs, p.pid ≠ 0) (fuel : Nat)
    (hfuel : rest.length < fuel) (h : Found procs caller pre rest s) :
    walkFreebsd caller procs fuel s = some (ancestryText (pre ++ rest)) := by
  induction fuel generalizing pre rest s with
  | zero => exact absurd hfuel (Nat.not_lt_zero _)
  | succ fuel ih =>
    have hpass : Found procs caller pre rest { s with foundPid := false } := ⟨h.line, h.text, h.start, h.above⟩
    obtain ⟨l, rest', rfl, h', hfound, hnext⟩ := scanFreebsd_found hnd hacyclic (List.Subset.refl _) hpass
    rw [walkFreebsd]
    by_cases hl : l = []
    · -- the process is not in the table
      have hnot : (scanFreebsd caller procs { s with foundPid := false }).foundPid = false := by
        rw [Bool.eq_false_iff, ne_eq, hfound, hl]
        simp
      have hmissing : ∀ p ∈ procs, p.pid ≠ s.pidToFind := fun p hp hpid => hnext ⟨p, hp, hpid⟩ hl
      have hnil := h.line.eq_nil hmissing
      rw [if_pos (Or.inl (by rw [hnot]; rfl)), h'.text, hnil, hl]
    · have hyes : (scanFreebsd caller procs { s with foundPid := false }).foundPid = true := hfound.2 (Or.inr hl)
      by_cases hpid : (scanFreebsd caller procs { s with foundPid := false }).pidToFind = 0
      · -- no process of the table has the pid 0
        have hline := h'.line
        rw [hpid] at hline
        rw [if_pos (Or.inr hpid), h'.text, hline.eq_nil hzero, List.append_nil]
      · rw [if_neg (by simp [hyes, hpid]), ← List.append_assoc]
        refine ih ?_ h'
        have hpos : 0 < l.length := List.length_pos_iff.2 hl
        rw [List.length_append] at hfuel
        omega

/-- **The visible ancestors, nearest first**: the walk ends, and its text is the line of the process, up to
the last one in the table. In any order of the table it is the same. -/
theorem handleProcBranchFreebsd_lineage (procs : List KinfoProc) (caller : Int)
    (hnd : (procs.map KinfoProc.pid).Nodup) (hzero : ∀ p ∈ procs, p.pid ≠ 0)
    (hacyclic : Acyclic KinfoProc.pid KinfoProc.ppid procs) (hcaller : ∃ p ∈ procs, p.pid = caller) :
    ∃ l, Lineage KinfoProc.pid KinfoProc.ppid procs caller l ∧ l ≠ [] ∧
      ∀ procs', procs'.Perm procs → ∀ fuel, l.length < fuel →
        handleProcBranchFreebsd procs' caller fuel = some (ancestryText l) := by
  obtain ⟨l, hl⟩ := hacyclic.lineage caller
  refine ⟨l, hl, ?_, fun procs' hperm fuel hfuel => ?_⟩
  · obtain ⟨p, hp, rfl⟩ := hcaller
    obtain ⟨l', rfl, -⟩ := hl.eq_cons hnd hp
    exact List.cons_ne_nil _ _
  · have hnd' : (procs'.map KinfoProc.pid).Nodup := (hperm.map _).nodup_iff.2 hnd
    have hparent : ∀ k k', ParentOf KinfoProc.pid KinfoProc.ppid procs' k k' →
        ParentOf KinfoProc.pid KinfoProc.ppid procs k k' := by
      rintro k k' ⟨p, hp, hk⟩
      exact ⟨p, hperm.mem_iff.1 hp, hk⟩
    have hacyclic' : Acyclic KinfoProc.pid KinfoProc.ppid procs' :=
      fun k hk => hacyclic k (Relation.TransGen.mono hparent k k hk)
    have hzero' : ∀ p ∈ procs', p.pid ≠ 0 := fun p hp => hzero p (hperm.mem_iff.1 hp)
    have hstart : Found procs' caller [] l ⟨caller, false, []⟩ :=
      ⟨hl.perm hperm.symm, rfl, fun _ => rfl, fun h => absurd rfl h⟩
    exact walkFreebsd_found hnd' hacyclic' hzero' fuel hfuel hstart

/-- A jail: the parent of the last visible process is hidden. -/
def jailedProcs : List KinfoProc :=
  [⟨400, 399, bytes "sshd"⟩, ⟨501, 500, bytes "procenv"⟩, ⟨7, 399, bytes "cron"⟩, ⟨500, 400, bytes "sh"⟩]

theorem jailedProcs_acyclic : Acyclic KinfoProc.pid KinfoProc.ppid jailedProcs :=
  acyclic_of_rank (fun pid => if pid = 399 then 0 else pid.toNat) (by decide)

theorem handleProcBranchFreebsd_lineage_jail :
    ∃ l, Lineage KinfoProc.pid KinfoProc.ppid jailedProcs 501 l ∧ l ≠ [] ∧
      ∀ procs', procs'.Perm jailedProcs → ∀ fuel, l.length < fuel →
        handleProcBranchFreebsd procs' 501 fuel = some (ancestryText l) :=
  handleProcBranchFreebsd_lineage jailedProcs 501 (by decide) (by decide) jailedProcs_acyclic (by decide)

example : handleProcBranchFreebsd jailedProcs 501 4 =
    some (bytes "501 ('procenv'), 500 ('sh'), 400 ('sshd')") := by decide

/-! ## NetBSD, OpenBSD and Darwin -/

section Bsd

variable {root ultimate : Int} {text : KinfoProc → MbStr} {w : Walk} {n : Nat} {pid : Int} {fn : String}

/-- The last process of the platform is in the table, the lowest there, and an ancestor of the caller. -/
structure RootReached (root : Int) (procs : List KinfoProc) (caller : Int) : Prop where
  present : ∃ p ∈ procs, p.pid = root
  lowest : ∀ p ∈ procs, root ≤ p.pid
  reached : Relation.ReflTransGen (ParentOf KinfoProc.pid KinfoProc.ppid procs) caller root

/-- The loop ends. -/
def Ends (f : Nat → Except Halt (Option MbStr)) : Prop := ∃ fuel str, f fuel = .ok (some str)

theorem ultimateParent_foldl (ps : List KinfoProc) (u : Int) :
    let v := ps.foldl (fun ultimate p => if p.pid < ultimate then p.pid else ultimate) u
    v ≤ u ∧ (∀ p ∈ ps, v ≤ p.pid) ∧ (v = u ∨ ∃ p ∈ ps, p.pid = v) := by
  induction ps generalizing u with
  | nil => simp
  | cons p ps ih =>
    obtain ⟨hle, hall, hmem⟩ := ih (if p.pid < u then p.pid else u)
    simp only [List.foldl_cons, List.forall_mem_cons]
    by_cases hp : p.pid < u
    · rw [if_pos hp] at hle hall hmem ⊢
      refine ⟨by omega, ⟨hle, hall⟩, Or.inr ?_⟩
      rcases hmem with h | ⟨q, hq, hqpid⟩
      · exact ⟨p, List.mem_cons_self, h.symm⟩
      · exact ⟨q, List.mem_cons_of_mem _ hq, hqpid⟩
    · rw [if_neg hp] at hle hall hmem ⊢
      refine ⟨hle, ⟨by omega, hall⟩, ?_⟩
      rcases hmem with h | ⟨q, hq, hqpid⟩
      · exact Or.inl h
      · exact Or.inr ⟨q, List.mem_cons_of_mem _ hq, hqpid⟩

/-- **The lowest pid** of the table. -/
theorem ultimateParent_ok {p : KinfoProc} (hp : p ∈ procs) :
    ∃ u, ultimateParent fn procs = .ok u ∧ (∀ p ∈ procs, u ≤ p.pid) ∧ ∃ p ∈ procs, p.pid = u := by
  rcases procs with _ | ⟨q, procs⟩
  · cases hp
  · obtain ⟨hle, hall, hmem⟩ := ultimateParent_foldl procs q.pid
    refine ⟨_, rfl, List.forall_mem_cons.2 ⟨hle, hall⟩, ?_⟩
    rcases hmem with h | ⟨r, hr, hrpid⟩
    · exact ⟨q, List.mem_cons_self, h.symm⟩
    · exact ⟨r, List.mem_cons_of_mem _ hr, hrpid⟩

/-- `n` steps lead from a process to the last one. -/
inductive Up (root : Int) (procs : List KinfoProc) : Nat → Int → Prop
  | last : (∃ p ∈ procs, p.pid = root) → Up root procs 0 root
  | step {p : KinfoProc} {n : Nat} :
    p ∈ procs → p.pid ≠ root → Up root procs n p.ppid → Up root procs (n + 1) p.pid

theorem Up.present (h : Up root procs n pid) : ∃ p ∈ procs, p.pid = pid := by
  cases h with
  | last h => exact h
  | step hp _ _ => exact ⟨_, hp, rfl⟩

theorem RootReached.up (h : RootReached root procs caller) : ∃ n, Up root procs n caller := by
  obtain ⟨hpresent, -, hreached⟩ := h
  induction hreached using Relation.ReflTransGen.head_induction_on with
  | refl => exact ⟨0, .last hpresent⟩
  | head hstep _ ih =>
    obtain ⟨p, hp, rfl, rfl⟩ := hstep
    obtain ⟨n, hn⟩ := ih
    by_cases hroot : p.pid = root
    · exact ⟨0, by rw [hroot]; exact .last hpresent⟩
    · exact ⟨n + 1, .step hp hroot hn⟩

/-- **A pass** goes up, if it does not end with the last process. -/
theorem scan_up (hnd : (procs.map KinfoProc.pid).Nodup) (hps : ps ⊆ procs) (hdone : w.done = false)
    (h : Up root procs n w.current) :
    (scan root root text ps w).done = true ∨
      (scan root root text ps w).done = false ∧ ∃ m, Up root procs m (scan root root text ps w).current ∧ m ≤ n ∧
        ((∃ p ∈ ps, p.pid = w.current) → m < n) := by
  induction ps generalizing n w with
  | nil => exact Or.inr ⟨hdone, n, h, Nat.le_refl n, by simp⟩
  | cons p ps ih =>
    obtain ⟨hp, hps⟩ := List.cons_subset.1 hps
    rw [scan]
    by_cases hpid : p.pid = w.current
    · rw [if_pos hpid]
      by_cases hroot : w.current = root
      · rw [if_pos ⟨rfl, hroot⟩]
        exact Or.inl rfl
      · rw [if_neg fun hand => hroot hand.2]
        generalize hk : w.current = k at h
        cases h with
        | last _ => exact absurd hk hroot
        | @step q m hq _ hup =>
          -- the process that is found is the one on the way
          obtain rfl : p = q := eq_of_key_eq hnd hp hq (hpid.trans hk)
          rcases @ih { w with str := w.str ++ text p ++ bytes ", ", current := p.ppid } m hps hdone hup with
            hend | ⟨hnot, m', hup', hle, -⟩
          · exact Or.inl hend
          · exact Or.inr ⟨hnot, m', hup', by omega, fun _ => by omega⟩
    · rw [if_neg hpid]
      rcases ih hps hdone h with hend | ⟨hnot, m, hup, hle, hlt⟩
      · exact Or.inl hend
      · refine Or.inr ⟨hnot, m, hup, hle, fun hex => hlt ?_⟩
        obtain ⟨q, hq, hqpid⟩ := hex
        rcases List.mem_cons.1 hq with rfl | hq
        · exact absurd hqpid hpid
        · exact ⟨q, hq, hqpid⟩

/-- **A process from which the last one is reached** ends the walk. -/
theorem walk_up (hnd : (procs.map KinfoProc.pid).Nodup) (fuel : Nat) (hfuel : n + 1 < fuel)
    (hdone : w.done = false) (h : Up root procs n w.current) :
    ∃ str, walk root root text procs fuel w = some str := by
  induction fuel generalizing n w with
  | zero => exact absurd hfuel (Nat.not_lt_zero _)
  | succ fuel ih =>
    rw [walk, hdone, if_neg Bool.false_ne_true]
    rcases scan_up hnd (List.Subset.refl procs) hdone h with hend | ⟨hnot, m, hup, -, hlt⟩
    · obtain ⟨fuel, rfl⟩ : ∃ f, fuel = f + 1 := ⟨fuel - 1, by omega⟩
      exact ⟨_, by rw [walk, if_pos hend]⟩
    · have hm : m < n := hlt h.present
      exact ih (by omega) hnot hup

/-- The way so far, and the last process if the walk is done. -/
structure Walked (root ultimate : Int) (procs : List KinfoProc) (caller : Int) (w : Walk) : Prop where
  reached : Relation.ReflTransGen (ParentOf KinfoProc.pid KinfoProc.ppid procs) caller w.current
  last : w.done = true → ultimate = root ∧ w.current = root ∧ ∃ p ∈ procs, p.pid = root

theorem scan_walked (hps : ps ⊆ procs) (hdone : w.done = false) (h : Walked root ultimate procs caller w) :
    Walked root ultimate procs caller (scan root ultimate text ps w) := by
  induction ps generalizing w with
  | nil => exact h
  | cons p ps ih =>
    obtain ⟨hp, hps⟩ := List.cons_subset.1 hps
    rw [scan]
    by_cases hpid : p.pid = w.current
    · rw [if_pos hpid]
      by_cases hend : ultimate = root ∧ w.current = ultimate
      · rw [if_pos hend]
        have hroot : w.current = root := hend.2.trans hend.1
        exact ⟨h.reached, fun _ => ⟨hend.1, hroot, p, hp, hpid.trans hroot⟩⟩
      · rw [if_neg hend]
        refine ih hps hdone ⟨h.reached.tail ⟨p, hp, hpid, rfl⟩, fun hd => ?_⟩
        rw [hdone] at hd
        cases hd
    · rw [if_neg hpid]
      exact ih hps hdone h

theorem walk_walked {str : MbStr} (fuel : Nat) (hwalk : walk root ultimate text procs fuel w = some str)
    (h : Walked root ultimate procs caller w) :
    ultimate = root ∧ (∃ p ∈ procs, p.pid = root) ∧
      Relation.ReflTransGen (ParentOf KinfoProc.pid KinfoProc.ppid procs) caller root := by
  induction fuel generalizing w with
  | zero => cases hwalk
  | succ fuel ih =>
    rw [walk] at hwalk
    by_cases hdone : w.done = true
    · obtain ⟨hultimate, hcurrent, hpresent⟩ := h.last hdone
      exact ⟨hultimate, hpresent, hcurrent ▸ h.reached⟩
    · rw [if_neg hdone] at hwalk
      exact ih hwalk (scan_walked (List.Subset.refl procs) (by simpa using hdone) h)

/-- **The walk ends exactly when it reaches the last process**, and that is the lowest one. -/
theorem ends_handleProcBranch (hnd : (procs.map KinfoProc.pid).Nodup) :
    Ends (handleProcBranch fn root text procs caller) ↔ RootReached root procs caller := by
  constructor
  · rintro ⟨fuel, str, hrun⟩
    rcases procs with _ | ⟨p, procs⟩
    · cases hrun
    obtain ⟨u, hu, hlowest, -⟩ := @ultimateParent_ok (p :: procs) fn p List.mem_cons_self
    rw [handleProcBranch, hu] at hrun
    have hwalk : walk root u text (p :: procs) fuel ⟨caller, false, []⟩ = some str := Except.ok.inj hrun
    obtain ⟨rfl, hpresent, hreached⟩ := walk_walked fuel hwalk ⟨.refl, fun h => by cases h⟩
    exact ⟨hpresent, hlowest, hreached⟩
  · intro h
    obtain ⟨n, hup⟩ := h.up
    obtain ⟨p, hp, hpid⟩ := h.present
    obtain ⟨u, hu, hlowest, q, hq, hqpid⟩ := @ultimateParent_ok procs fn p hp
    obtain rfl : u = root := by
      have h₁ := hlowest p hp
      have h₂ := h.lowest q hq
      omega
    obtain ⟨str, hstr⟩ := @walk_up procs u text ⟨caller, false, []⟩ n hnd (n + 2) (by omega) rfl hup
    refine ⟨n + 2, str, ?_⟩
    rw [handleProcBranch, hu]
    exact congrArg Except.ok hstr

/-- **When the walks end**: on NetBSD and Darwin exactly if pid 0, and on OpenBSD pid 1, is the lowest pid in the
table and an ancestor of the process, or the process, with all between in the table. -/
theorem handleProcBranch_ends_iff (procs : List KinfoProc) (caller : Int) (kiMaxcomlen : Nat)
    (hnd : (procs.map KinfoProc.pid).Nodup) :
    (Ends (handleProcBranchNetbsd kiMaxcomlen procs caller) ↔ RootReached 0 procs caller) ∧
      (Ends (handleProcBranchOpenbsd procs caller) ↔ RootReached 1 procs caller) ∧
      (Ends (handleProcBranchDarwin procs caller) ↔ RootReached 0 procs caller) :=
  ⟨ends_handleProcBranch hnd, ends_handleProcBranch hnd, ends_handleProcBranch hnd⟩

theorem handleProcBranch_ends_iff_jail :
    (Ends (handleProcBranchNetbsd 24 jailedProcs 501) ↔ RootReached 0 jailedProcs 501) ∧
      (Ends (handleProcBranchOpenbsd jailedProcs 501) ↔ RootReached 1 jailedProcs 501) ∧
      (Ends (handleProcBranchDarwin jailedProcs 501) ↔ RootReached 0 jailedProcs 501) :=
  handleProcBranch_ends_iff jailedProcs 501 24 (by decide)

/-- **In the jail the walks do not end.** -/
theorem handleProcBranch_hangs :
    (jailedProcs.map KinfoProc.pid).Nodup ∧ Acyclic KinfoProc.pid KinfoProc.ppid jailedProcs ∧
      (∃ p ∈ jailedProcs, p.pid = 501) ∧ ¬ Ends (handleProcBranchNetbsd 24 jailedProcs 501) ∧
        ¬ Ends (handleProcBranchOpenbsd jailedProcs 501) ∧ ¬ Ends (handleProcBranchDarwin jailedProcs 501) := by
  have hnd : (jailedProcs.map KinfoProc.pid).Nodup := by decide
  have hmissing : ∀ root ∈ ([0, 1] : List Int), ¬ RootReached root jailedProcs 501 := by
    intro root hroot h
    have hnone : ∀ root ∈ ([0, 1] : List Int), ¬ ∃ p ∈ jailedProcs, p.pid = root := by decide
    exact hnone root hroot h.present
  exact ⟨hnd, jailedProcs_acyclic, by decide, fun h => hmissing 0 (by decide) ((ends_handleProcBranch hnd).1 h),
    fun h => hmissing 1 (by decide) ((ends_handleProcBranch hnd).1 h),
    fun h => hmissing 0 (by decide) ((ends_handleProcBranch hnd).1 h)⟩

end Bsd

end Procenv.Ancestry
