import Mathlib.Data.List.Nodup
import Procenv.Model.Process
import Procenv.Proof.MainIndent

/-!
# What a run releases

`cleanup` has no memory of having run: `die` calls it again when `execvp` fails after
`main`'s own call. A run that gets to this call is a run of `main` (`beforeCleanup_run`),
in which nothing has been released yet.

* `released_once_iff`: **a run releases nothing twice, exactly if it does not get to an
  `execvp` that fails and whose message is shown**.
-/

namespace Procenv.Process

open Text Outcome

variable {sys : System} {g g' : Globals}

/-- `cleanup` is called at most once, and each resource released at most once. -/
def ReleasedOnce (effects : List Effect) : Prop :=
  effects.count .cleanup ≤ 1 ∧ ∀ r, effects.count (.release r) ≤ 1

/-- The first attempt to show a message that does not die shows it. -/
def showsMessage : List Message → Bool
  | [] => false
  | .dies :: messages => showsMessage messages
  | .unshown :: _ => false
  | .shown :: _ => true

/-- A program is to be executed at the end, by the environment or by `--exec`. -/
def WantsExec (sys : System) (opts : List Opt) : Prop :=
  (getenvSet sys.getenv "PROCENV_EXEC").isSome = true ∨ .long .exec ∈ opts

/-! ## `cleanup` and `die` -/

theorem cleanup_nodup (g : Globals) : (cleanup g).1.Nodup := by
  unfold cleanup
  by_cases hok : g.hasDoc = true ∧ 0 ≤ g.main.settings.indentAmount
  · simp only [if_pos hok]
    by_cases hfd : g.outputFd = true <;>
      by_cases hcrumb : g.main.settings.outputFormat = .crumb ∧ g.main.out.crumbList.isSome = true <;>
      simp [hfd, hcrumb]
  · simp [if_neg hok]

theorem cleanup_once (g : Globals) : ReleasedOnce (cleanup g).1 :=
  ⟨List.nodup_iff_count_le_one.1 (cleanup_nodup g) _, fun _ => List.nodup_iff_count_le_one.1 (cleanup_nodup g) _⟩

theorem cleanup_mem (g : Globals) : .cleanup ∈ (cleanup g).1 := by
  by_cases hok : g.hasDoc = true ∧ 0 ≤ g.main.settings.indentAmount <;> simp [cleanup, hok]

theorem die_effects (g : Globals) (messages : List Message) :
    (die g messages).1 = if showsMessage messages then (cleanup g).1 else [] := by
  induction messages with
  | nil => rfl
  | cons m messages ih =>
    cases m with
    | dies => exact ih
    | shown | unshown => rfl

theorem releasedOnce_nil : ReleasedOnce [] := by simp [ReleasedOnce]

theorem die_once (g : Globals) (messages : List Message) : ReleasedOnce (die g messages).1 := by
  rw [die_effects]
  split
  · exact cleanup_once g
  · exact releasedOnce_nil

theorem stop_once (g : Globals) (s : Stop) : ReleasedOnce (stop sys g s).1 := by
  unfold stop
  split <;> first | exact die_once g _ | exact releasedOnce_nil

/-! ## A run that gets to its end is a run of `main` -/

/-- The call of a task. -/
def Task.action : Task → Option Action
  | .act a => some a
  | .show _ _ | .stop _ => none

theorem showOutput_keeps {wrote : Bool} {result : Option Stop} (h : showOutput g wrote result = (g', none)) :
    g'.main = g.main ∧ g'.hasDoc = g.hasDoc := by
  unfold showOutput at h
  split at h
  · split at h <;> simp only [Prod.mk.injEq, reduceCtorEq, and_false] at h
    rw [← h.1]
    exact ⟨rfl, rfl⟩
  all_goals
    simp only [Prod.mk.injEq] at h
    rw [← h.1]
    exact ⟨rfl, rfl⟩

theorem runTasks_run {tasks : List Task} (h : runTasks sys tasks g = (g', none)) :
    runActions sys.host (tasks.filterMap Task.action) g.main = .ok g'.main ∧ g'.hasDoc = g.hasDoc ∧
      ∀ s, .stop s ∉ tasks := by
  induction tasks generalizing g with
  | nil =>
    obtain rfl : g = g' := by simpa [runTasks] using h
    exact ⟨rfl, rfl, by simp⟩
  | cons task tasks ih =>
    cases task with
    | stop s => simp [runTasks] at h
    | act a =>
      simp only [runTasks] at h
      split at h
      · simp at h
      · rename_i main hmain
        obtain ⟨hrun, hdoc, hstop⟩ := ih h
        refine ⟨?_, hdoc, by simpa using hstop⟩
        simp only [List.filterMap_cons, Task.action, runActions_cons, hmain]
        exact hrun
    | «show» wrote result =>
      -- showing output is no action of `main`, and leaves its state
      simp only [runTasks] at h
      split at h
      · simp at h
      · rename_i g₁ hshow
        obtain ⟨hrun, hdoc, hstop⟩ := ih h
        obtain ⟨hmain, hdoc₁⟩ := showOutput_keeps hshow
        refine ⟨?_, hdoc.trans hdoc₁, by simpa using hstop⟩
        rw [← hmain]
        exact hrun

/-- What the display routines of a run without stops emit. -/
def System.display (sys : System) : Display := fun n r => ((sys.routine n r).1, none)

theorem routineTasks_actions (sys : System) (n : Nat) (r : Routine) (h : ∀ s, .stop s ∉ routineTasks sys n r) :
    (routineTasks sys n r).filterMap Task.action = routineActions sys.display n r := by
  have hstop : (sys.routine n r).2 = none := by
    cases hr : (sys.routine n r).2 with
    | none => rfl
    | some e => exact absurd (by simp [routineTasks, hr]) (h (.halt e))
  simp [routineTasks, hstop, routineActions, System.display, List.filterMap_map, Function.comp_def, Task.action]

theorem loopTasks_actions {opts : List Opt} {n : Nat} (h : ∀ s, .stop s ∉ loopTasks sys n opts) :
    (loopTasks sys n opts).filterMap Task.action = loopActions sys.display n opts := by
  induction opts generalizing n with
  | nil => rfl
  | cons o opts ih =>
    cases o with
    | long o =>
      have hrest := ih (n := n) fun s hs => h s (by simp [loopTasks, hs])
      simp [loopTasks, loopActions, Task.action, hrest]
    | display r =>
      have hroutine := routineTasks_actions sys n r fun s hs => h s (by simp [loopTasks, hs])
      have hrest := ih (n := n + 1) fun s hs => h s (by simp [loopTasks, hs])
      simp [loopTasks, loopActions, Task.action, hroutine, hrest]
    | help =>
      have hrest := ih (n := n) fun s hs => h s (by simp [loopTasks, hs])
      simp [loopTasks, loopActions, List.filterMap_cons, Task.action, hrest]
    | invalid => exact absurd (by simp [loopTasks]) (h (.halt (.die "invalid option '%c' specified" [bytes "?"])))

theorem dumpTasks_actions (sys : System) (rs : List Routine) (n : Nat) (h : ∀ s, .stop s ∉ dumpTasks sys n rs) :
    (dumpTasks sys n rs).filterMap Task.action = dumpCalls sys.display n rs := by
  induction rs generalizing n with
  | nil => rfl
  | cons r rs ih =>
    have hroutine := routineTasks_actions sys n r fun s hs => h s (by simp [dumpTasks, hs])
    have hrest := ih (n + 1) fun s hs => h s (by simp [dumpTasks, hs])
    simp [dumpTasks, dumpCalls, hroutine, hrest]

theorem endTasks_actions {done : Bool} {fmt : OutputFormat} (h : ∀ s, .stop s ∉ endTasks sys done fmt) :
    (endTasks sys done fmt).filterMap Task.action = endActions sys.display done fmt := by
  cases done with
  | true => simp [endTasks, endActions, Task.action, List.filterMap_map, Function.comp_def]
  | false =>
    have hdump := dumpTasks_actions sys dumpRoutines 0 fun s hs => h s (by simp [endTasks, hs])
    simp [endTasks, endActions, dumpActions, Task.action, hdump]

theorem start_run {st : MainState} (h : start sys = (st, none)) :
    startMain sys.host.locale sys.getenv = .ok st := by
  unfold start at h
  split at h
  · simp at h
  · rename_i st₀ h₀
    dsimp only at h
    split at h
    · simp at h
    · split at h
      · simp at h
      · rename_i st₁ h₁
        obtain ⟨rfl, -⟩ := Prod.mk.inj h
        rw [startMain, h₀]
        exact h₁

/-- **A run that gets to its own call of `cleanup` is a run of `main`.** -/
theorem beforeCleanup_run {opts : List Opt} (h : beforeCleanup sys opts = (g, none)) :
    ∃ st, startMain sys.host.locale sys.getenv = .ok st ∧
      runMain sys.host sys.display opts st = .ok g.main ∧ g.hasDoc = true := by
  unfold beforeCleanup at h
  split at h
  · simp at h
  · rename_i st hstart
    split at h
    · simp at h
    · rename_i g₁ hloop
      split at h
      · simp at h
      · -- none of the three parts has stopped the run
        rename_i g₂ hend
        obtain ⟨hrun₁, hdoc₁, hstop₁⟩ := runTasks_run hloop
        obtain ⟨hrun₂, hdoc₂, hstop₂⟩ := runTasks_run hend
        obtain ⟨hmain, hdoc⟩ := showOutput_keeps h
        rw [loopTasks_actions hstop₁] at hrun₁
        rw [endTasks_actions hstop₂] at hrun₂
        refine ⟨st, ?_, ?_, by rw [hdoc, hdoc₂, hdoc₁]⟩
        · exact start_run hstart
        · rw [hmain]
          unfold runMain
          rw [hrun₁]
          exact hrun₂

/-- What `main`'s own call of `cleanup` finds. -/
theorem beforeCleanup_globals {opts : List Opt} (h : beforeCleanup sys opts = (g, none)) :
    g.hasDoc = true ∧ 0 ≤ g.main.settings.indentAmount ∧ (g.main.reexec = true ↔ WantsExec sys opts) := by
  obtain ⟨st, hstart, hrun, hdoc⟩ := beforeCleanup_run h
  obtain ⟨t, ht, hset⟩ := runMain_settings hrun
  refine ⟨hdoc, ?_, ?_⟩
  · obtain ⟨t', ht', hend⟩ := ok_of_bind hrun
    obtain rfl : t = t' := Except.ok.inj (ht.symm.trans ht')
    rw [hset]
    exact end_amount hend
  · obtain ⟨c, -, rfl⟩ := start_of_startMain hstart
    rw [runMain_reexec hrun]
    simp [WantsExec]

/-! ## Whole runs -/

theorem finish_once_iff (hdoc : g.hasDoc = true) (ha : 0 ≤ g.main.settings.indentAmount) :
    ReleasedOnce (finish sys g).1 ↔
      ¬ (g.main.reexec = true ∧ sys.execvp = false ∧ showsMessage sys.messages = true) := by
  have hclean : (cleanup g).2 = false := by simp [cleanup, hdoc, ha]
  by_cases hbad : g.main.reexec = true ∧ sys.execvp = false ∧ showsMessage sys.messages = true
  · -- the two calls of `cleanup`
    have heff : (finish sys g).1 = (cleanup g).1 ++ (cleanup g).1 := by
      simp [finish, hclean, hbad.1, hbad.2.1, die_effects, hbad.2.2]
    have hcount : 0 < (cleanup g).1.count .cleanup := List.count_pos_iff.2 (cleanup_mem g)
    refine ⟨fun h => ?_, fun h => absurd hbad h⟩
    have htwice := h.1
    rw [heff, List.count_append] at htwice
    omega
  · have heff : (finish sys g).1 = (cleanup g).1 := by
      unfold finish
      cases hre : g.main.reexec <;> cases hexec : sys.execvp <;> cases hmsg : showsMessage sys.messages <;>
        simp_all [die_effects]
    rw [heff]
    exact ⟨fun _ => hbad, fun _ => cleanup_once g⟩

/-- **A run releases nothing twice, exactly if it does not get to an `execvp` that fails and whose message
is shown.** There `die` calls `cleanup` a second time. -/
theorem released_once_iff (sys : System) (opts : List Opt) :
    ReleasedOnce (run sys opts).1 ↔
      ¬ (sys.newDoc = true ∧ (beforeCleanup sys opts).2 = none ∧ WantsExec sys opts ∧ sys.execvp = false ∧
        showsMessage sys.messages = true) := by
  unfold run
  cases hnew : sys.newDoc with
  | false => simpa using die_once _ _
  | true =>
    simp only [Bool.not_true, Bool.false_eq_true, if_false, true_and]
    cases hrun : beforeCleanup sys opts with
    | mk g stopped =>
      cases stopped with
      | some s => simpa using stop_once g s
      | none =>
        obtain ⟨hdoc, ha, hexec⟩ := beforeCleanup_globals hrun
        simpa [hexec] using finish_once_iff hdoc ha

/-- A system on which all calls succeed but for `execvp`. -/
def noProgram : System where
  host := { locale := posixLocale, operands := [bytes "no-such-program"] }
  getenv := fun _ => none
  newDoc := true
  copyExec := none
  saveLocale := none
  queries := none
  routine := fun _ _ => (versionCalls.events, none)
  usage := fun _ => (true, none)
  output := none
  messages := [.shown]
  execvp := false

/-- `procenv --version --exec no-such-program` calls `cleanup` twice. -/
theorem failing_exec_releases_twice :
    ¬ ReleasedOnce (run noProgram [.display .showVersion, .long .exec]).1 := by
  have heff : (run noProgram [.display .showVersion, .long .exec]).1 =
      [.cleanup, .release .ttyFd, .release .doc, .cleanup, .release .ttyFd, .release .doc] := by rfl
  rw [heff]
  simp [ReleasedOnce]

end Procenv.Process
