import Mathlib.Data.List.Find
import Procenv.Model.Signals
import Procenv.Proof.Lookup
import Procenv.Proof.Runs

/-!
# The signals that `show_signals` shows

The loop over the numbers of the signals ends at the number of entries of the map. So it shows the
signals of the map with these numbers, each once and in their order, and not the signals behind.

* `runs_showSignal`: a number is shown if it is in the map.
* `showSignalsOf_iff`: **all signals of the map are shown exactly when no number is greater than the
  number of entries**.
-/

namespace Procenv

open Text Interact Show

variable {env : Env} {m : List (String × Int)} {o : Prog.Oracle Call} {i : Nat}

/-- The map of a platform: its numbers are positive and of the type `int`, as their count is. -/
structure SignalMap (m : List (String × Int)) : Prop where
  positive : ∀ e ∈ m, 0 < e.2 ∧ e.2 < 2 ^ 31
  length : m.length < 2 ^ 31

/-- The number is in the map. -/
def Known (m : List (String × Int)) (i : Nat) : Prop := ∃ e ∈ m, e.2 = (i : Int)

instance : DecidablePred (Known m) := fun i => inferInstanceAs (Decidable (∃ e ∈ m, e.2 = (i : Int)))

/-- `sigaction` and `sigismember` succeed for the signals of the map. -/
def Queried (o : Prog.Oracle Call) (m : List (String × Int)) : Prop :=
  ∀ i, Known m i → ∀ n, o n (Call.sigaction i) ≠ none ∧ 0 ≤ o n (Call.sigismember i)

/-- What a signal is shown as: under the first name with its number. -/
inductive SignalBlock (m : List (String × Int)) (i : Nat) : List Event → Prop
  | mk (name : String) (desc : WStr) (blocked ignored : Bool) :
    (m.find? fun e => e.2 = (i : Int)).map Prod.fst = some name →
    SignalBlock m i [.objectOpen false, .sectionOpen (bytes name), .entry (bytes "number") (fmtU i),
      .entry (bytes "description") (quoted desc), .entry (bytes "blocked") (yesNo blocked),
      .entry (bytes "ignored") (yesNo ignored), .sectionClose, .objectClose false]

/-- All signals of the map are shown, each once, in ascending order, and nothing else. -/
structure AllSignals (m : List (String × Int)) (shown : List Nat) : Prop where
  ascending : shown.Pairwise (· < ·)
  known : ∀ i, i ∈ shown ↔ Known m i

/-- Why `show_signals` stops: the mask cannot be queried, or a description does not convert. -/
def SignalsStop (env : Env) (o : Prog.Oracle Call) (e : Halt) : Prop :=
  e = .die "failed to query signal mask" [] ∨
    e = .hang ∧ ∃ n i desc, o n (Call.strsignal i) = some desc ∧ env.locale.mbsrtowcs desc = none

/-- **The search for the name** of a signal. -/
theorem signalName_eq (hm : SignalMap m) (hpos : 0 < i) (hi : i < 2 ^ 31) :
    signalName m i = .ok ((m.find? fun e => e.2 = (i : Int)).map Prod.fst) := by
  have hne : (i : Int) ≠ 0 := by omega
  rw [signalName, if_neg hne, mapName_sentinel, firstName]
  congr 2
  refine List.find?_congr fun e he => ?_
  obtain ⟨hpos', hlt⟩ := hm.positive e he
  obtain ⟨k, hk⟩ := Int.eq_ofNat_of_zero_le hpos'.le
  rw [hk] at hlt ⊢
  refine decide_eq_decide.2 ?_
  rw [BitVec.ofInt_natCast, BitVec.ofInt_natCast, ← BitVec.toNat_inj, BitVec.toNat_ofNat, BitVec.toNat_ofNat]
  omega

/-- The description of a signal, if it converts. -/
theorem runs_description {desc : Option MbStr} {n : Nat}
    (hdesc : ∀ d, desc = some d → o n (Call.strsignal i) = some d) :
    Prog.Runs o (fun _ ws => ws = []) (SignalsStop env o) (strOr env unknownStr desc) := by
  cases desc with
  | none => exact Prog.Runs.ret rfl
  | some d =>
    have hstop (hd : env.locale.mbsrtowcs d = none) : SignalsStop env o .hang :=
      Or.inr ⟨rfl, n, i, d, hdesc d rfl, hd⟩
    exact (runs_str hstop).mono fun _ _ hws => hws.1

/-- **A number is shown if it is in the map.** -/
theorem runs_showSignal (hm : SignalMap m) (hq : Queried o m) (hpos : 0 < i) (hi : i < 2 ^ 31) :
    Prog.Runs o (fun _ ws => if Known m i then SignalBlock m i ws else ws = []) (SignalsStop env o)
      (showSignalOf env m i) := by
  unfold showSignalOf
  refine (Prog.Runs.asked _).bind fun rc ws hrc => ?_
  obtain ⟨rfl, n₁, hrc⟩ := hrc
  refine (Prog.Runs.asked _).bind fun act ws hact => ?_
  obtain ⟨rfl, n₂, hact⟩ := hact
  by_cases hknown : Known m i
  · -- the queries succeed, and the name is found
    obtain ⟨hsome, -⟩ := hq i hknown n₂
    obtain ⟨-, hmember⟩ := hq i hknown n₁
    rw [hact] at hsome
    rw [hrc] at hmember
    obtain ⟨ignored, rfl⟩ := Option.ne_none_iff_exists'.1 hsome
    obtain ⟨name, hname⟩ : ∃ name, (m.find? fun e => e.2 = (i : Int)).map Prod.fst = some name := by
      obtain ⟨e, he, hnum⟩ := hknown
      rcases hfind : m.find? fun e => e.2 = (i : Int) with _ | found
      · exact absurd (decide_eq_true hnum) (List.find?_eq_none.1 hfind e he)
      · exact ⟨found.1, by rw [hfind]; rfl⟩
    have hrc' : ¬ rc < 0 := by omega
    simp only [if_pos hknown, if_neg hrc', signalName_eq hm hpos hi, hname]
    refine (Prog.Runs.asked _).bind fun desc ws hdesc => ?_
    obtain ⟨rfl, n₃, hdesc⟩ := hdesc
    refine Prog.Runs.emit (Prog.Runs.emit (Prog.Runs.emit ?_))
    refine (runs_description fun d hd => hdesc.trans hd).bind fun text ws hws => ?_
    subst hws
    refine Prog.Runs.emit (Prog.Runs.emit (Prog.Runs.emit (Prog.Runs.emit (Prog.Runs.emit (Prog.Runs.ret ?_)))))
    exact .mk name text (rc ≠ 0) ignored hname
  · -- the number is left out, if not for the queries then for the name
    have hnone : (m.find? fun e => e.2 = (i : Int)).map Prod.fst = none := by
      rw [List.find?_eq_none.2 fun e he heq => hknown ⟨e, he, of_decide_eq_true heq⟩]
      rfl
    simp only [if_neg hknown]
    cases act with
    | none => exact Prog.Runs.ret rfl
    | some ignored =>
      simp only
      split
      · exact Prog.Runs.ret rfl
      · rw [signalName_eq hm hpos hi, hnone]
        exact Prog.Runs.ret rfl

/-- **A run of `show_signals`**: the numbers of the map up to the number of its entries are shown. -/
theorem runs_showSignals (hm : SignalMap m) (hq : Queried o m) :
    Prog.Runs o (fun _ es => ∃ blocks,
      es = .containerOpen (bytes "signals") :: blocks.flatten ++ [.containerClose] ∧
      List.Forall₂ (SignalBlock m) ((List.range' 1 m.length).filter fun i => Known m i) blocks)
      (SignalsStop env o) (showSignalsOf env m) := by
  unfold showSignalsOf
  refine Prog.Runs.emit ((Prog.Runs.lift _).bind fun mask ws hws => ?_)
  subst hws
  cases mask with
  | false => exact Prog.Runs.stop (Or.inl rfl)
  | true =>
    have hloop : Prog.Runs o (fun _ ws => ∃ blocks,
        List.Forall₂ (SignalBlock m) ((List.range' 1 m.length).filter fun i => Known m i) blocks ∧
          ws = blocks.flatten)
        (SignalsStop env o) ((List.range' 1 m.length).forM (showSignalOf env m)) := by
      refine Prog.Runs.forM_filter fun i hi => ?_
      have hbounds := List.mem_range'_1.1 hi
      have hlen := hm.length
      simp only [decide_eq_true_eq]
      exact runs_showSignal hm hq (by omega) (by omega)
    refine hloop.bind fun _ ws hws => ?_
    obtain ⟨blocks, hblocks, rfl⟩ := hws
    exact Prog.Runs.emit (Prog.Runs.ret ⟨blocks, rfl, hblocks⟩)

/-- **The numbers that are shown** are all if the last one is a number of the loop. -/
theorem allSignals_iff (hm : SignalMap m) :
    AllSignals m ((List.range' 1 m.length).filter fun i => Known m i) ↔ ∀ e ∈ m, e.2 ≤ (m.length : Int) := by
  have hmem : ∀ i, i ∈ (List.range' 1 m.length).filter (fun i => Known m i) ↔
    (1 ≤ i ∧ i < 1 + m.length) ∧ Known m i := by
    intro i
    rw [List.mem_filter, List.mem_range'_1, decide_eq_true_eq]
  constructor
  · intro h e he
    obtain ⟨k, hk⟩ := Int.eq_ofNat_of_zero_le (hm.positive e he).1.le
    have hshown := (hmem k).1 ((h.known k).2 ⟨e, he, hk⟩)
    omega
  · intro hle
    refine ⟨(List.pairwise_lt_range').filter _, fun i =>
      (hmem i).trans ⟨fun h => h.2, fun hknown => ⟨?_, hknown⟩⟩⟩
    obtain ⟨e, he, hnum⟩ := hknown
    have hpos := (hm.positive e he).1
    have hmax := hle e he
    omega

/-- **All signals of the map are shown exactly when none has a number greater than the number of entries.**
Whatever the map, the numbers that are shown are in ascending order and in the map. -/
theorem showSignalsOf_iff (hm : SignalMap m) (hq : Queried o m) (n : Nat) :
    Prog.Leaves (fun _ es => ∃ shown blocks,
        es = .containerOpen (bytes "signals") :: blocks.flatten ++ [.containerClose] ∧
        List.Forall₂ (SignalBlock m) shown blocks ∧ (AllSignals m shown ↔ ∀ e ∈ m, e.2 ≤ (m.length : Int)))
      (SignalsStop env o) ((showSignalsOf env m).run o n) := by
  refine (runs_showSignals hm hq n).mono fun _ es hrun => ?_
  obtain ⟨blocks, hes, hblocks⟩ := hrun
  exact ⟨_, blocks, hes, hblocks, allSignals_iff hm⟩

/-- `signal_map_netbsd`, with the numbers of the system. -/
def signalMapNetbsd : List (String × Int) :=
  [("SIGABRT", 6), ("SIGALRM", 14), ("SIGBUS", 10), ("SIGCHLD|SIGCLD", 20), ("SIGCONT", 19), ("SIGFPE", 8),
   ("SIGHUP", 1), ("SIGILL", 4), ("SIGINT", 2), ("SIGKILL", 9), ("SIGPIPE", 13), ("SIGQUIT", 3), ("SIGSEGV", 11),
   ("SIGSTOP", 17), ("SIGTERM", 15), ("SIGTRAP", 5), ("SIGTSTP", 18), ("SIGTTIN", 21), ("SIGUSR1", 30),
   ("SIGUSR2", 31), ("SIGIO", 23), ("SIGPROF", 27), ("SIGSYS", 12), ("SIGURG", 16), ("SIGVTALRM", 26),
   ("SIGWINCH", 28), ("SIGXCPU", 24), ("SIGXFSZ", 25), ("SIGEMT", 7), ("SIGINFO", 29), ("SIGPWR", 32)]

/-- A system on which all calls succeed. -/
def signalOracle : Prog.Oracle Call := fun _ β c => match β, c with
  | _, .sigprocmask => true
  | _, .sigaction _ => some false
  | _, c => c.answer

theorem signalMapNetbsd_map : SignalMap signalMapNetbsd := ⟨by decide, by decide⟩

theorem signalOracle_queried : Queried signalOracle m :=
  fun _ _ _ => ⟨Option.some_ne_none _, Int.le_refl _⟩

theorem showSignalsOf_iff_two :
    let m := [("SIGINT", 2), ("SIGHUP", 1)]
    Prog.Leaves (fun _ es => ∃ shown blocks,
        es = .containerOpen (bytes "signals") :: blocks.flatten ++ [.containerClose] ∧
        List.Forall₂ (SignalBlock m) shown blocks ∧ (AllSignals m shown ↔ ∀ e ∈ m, e.2 ≤ (m.length : Int)))
      (SignalsStop default signalOracle) ((showSignalsOf default m).run signalOracle 0) :=
  showSignalsOf_iff ⟨by decide, by decide⟩ signalOracle_queried 0

/-- **`SIGPWR` is not shown on NetBSD.** -/
theorem showSignals_netbsd_missing : SignalMap signalMapNetbsd ∧ Queried signalOracle signalMapNetbsd ∧
    ∃ shown blocks n, (showSignalsOf default signalMapNetbsd).run signalOracle 0 =
        .ok ((), .containerOpen (bytes "signals") :: blocks.flatten ++ [.containerClose], n) ∧
      List.Forall₂ (SignalBlock signalMapNetbsd) shown blocks ∧ ¬ AllSignals signalMapNetbsd shown := by
  refine ⟨signalMapNetbsd_map, signalOracle_queried, ?_⟩
  have hok : ((showSignalsOf default signalMapNetbsd).run signalOracle 0).isOk = true := by decide +kernel
  have hruns := @runs_showSignals default signalMapNetbsd signalOracle signalMapNetbsd_map signalOracle_queried
  generalize showSignalsOf default signalMapNetbsd = routine at hok hruns ⊢
  have hrun := hruns 0
  generalize routine.run signalOracle 0 = run at hok hrun ⊢
  rcases run with e | ⟨⟨⟩, es, n⟩
  · cases hok
  · obtain ⟨blocks, rfl, hblocks⟩ := hrun
    refine ⟨_, blocks, n, rfl, hblocks, fun hall => ?_⟩
    exact absurd ((allSignals_iff signalMapNetbsd_map).1 hall) (by decide)

end Procenv
