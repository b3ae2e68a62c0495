import Procenv.Data.Outcome
import Procenv.Model.Main

/-!
# Runs of `main`

What a call of `main` does outside the document (`Acted`), and what follows for a run:
the settings are changed by the long options and by the help text only, `done` is set by
the display options, `reexec` by `--exec`.

* `act_acted`: **what a call of `main` can do**.
* `runMain_eq`: a run of `main` is the run of `mainActions`.
* `loop_settings_eq`: the settings after the option loop, from its options.
-/

namespace Procenv

open Text Outcome

variable {host : Host} {display : Display} {st st' : MainState}

/-- The settings after a call. -/
def Action.set (loc : Locale) (c : Settings) : Action → Except Halt Settings
  | .long o => o.set loc c
  | .usage => .ok { c with indentAmount := 0 }
  | _ => .ok c

/-- The calls that leave the settings and the flags. -/
def Action.plain : Action → Bool
  | .setDone | .long _ | .usage => false
  | _ => true

theorem Action.set_plain {a : Action} (ha : a.plain = true) (loc : Locale) (c : Settings) :
    a.set loc c = .ok c := by
  cases a <;> first | rfl | simp [plain] at ha

/-- What a call that returns does outside the document. -/
structure Acted (host : Host) (a : Action) (st st' : MainState) : Prop where
  settings : a.set host.locale st.settings = .ok st'.settings
  done : st'.done = (st.done || decide (a = .setDone))
  reexec : st'.reexec = (st.reexec || decide (a = .long .exec))
  execArgs : st'.execArgs =
    if a = .checkExec ∧ st.reexec = true ∧ st.execArgs = none then some host.operands else st.execArgs
  late : st.done = true → ∀ o, a = .long o → o = .exec
  operands : a = .checkExec → st.reexec = true → st.execArgs = none → host.operands ≠ []

/-- **What a call of `main` can do.** -/
theorem act_acted {a : Action} (h : act host st a = .ok st') : Acted host a st st' := by
  cases a with
  | setDone | usage =>
    simp only [act, Except.ok.injEq] at h
    subst h
    constructor <;> simp [Action.set]
  | halt h' => simp [act] at h
  | checkExec =>
    -- the check stops a re-exec without arguments, and fills in the operands
    simp only [act] at h
    split at h
    · simp at h
    · split at h <;> rename_i h₁ h₂ <;> simp only [Except.ok.injEq] at h <;> subst h
      · constructor <;> simp_all [Action.set]
      · constructor <;> simp_all [Action.set]
  | long o =>
    simp only [act, bind, Except.bind, pure, Except.pure] at h
    split at h
    · simp at h
    · split at h
      · simp at h
      · rename_i h₁ _ c hc
        simp only [Except.ok.injEq] at h
        subst h
        constructor <;> simp_all [Action.set]
  | masterHeader | call | masterFooter | chomp | compress =>
    simp only [act, bind, Except.bind, pure, Except.pure] at h
    split at h
    · simp at h
    · simp only [Except.ok.injEq] at h
      subst h
      constructor <;> simp [Action.set]

/-! ## Runs -/

theorem runActions_append (as bs : List Action) :
    runActions host (as ++ bs) st = (runActions host as st).bind (runActions host bs) := by
  simp [runActions, List.foldlM_append, bind, Except.bind]

theorem runActions_cons (a : Action) (as : List Action) :
    runActions host (a :: as) st = (act host st a).bind (runActions host as) := rfl

theorem run_of_append {as bs : List Action} (h : runActions host (as ++ bs) st = .ok st') :
    ∃ t, runActions host as st = .ok t ∧ runActions host bs t = .ok st' := by
  rw [runActions_append] at h
  exact ok_of_bind h

theorem run_of_cons {a : Action} {as : List Action} (h : runActions host (a :: as) st = .ok st') :
    ∃ t, Acted host a st t ∧ act host st a = .ok t ∧ runActions host as t = .ok st' := by
  obtain ⟨t, ht, h'⟩ := ok_of_bind h
  exact ⟨t, act_acted ht, ht, h'⟩

theorem run_of_nil (h : runActions host [] st = .ok st') : st' = st := by
  simpa [runActions, pure, Except.pure, eq_comm] using h

theorem runActions_done {as : List Action} (h : runActions host as st = .ok st') :
    st'.done = (st.done || decide (.setDone ∈ as)) := by
  induction as generalizing st with
  | nil => simp [run_of_nil h]
  | cons a as ih =>
    obtain ⟨t, ht, -, h'⟩ := run_of_cons h
    rw [ih h', ht.done]
    simp [eq_comm, Bool.or_assoc]

theorem runActions_reexec {as : List Action} (h : runActions host as st = .ok st') :
    st'.reexec = (st.reexec || decide (.long .exec ∈ as)) := by
  induction as generalizing st with
  | nil => simp [run_of_nil h]
  | cons a as ih =>
    obtain ⟨t, ht, -, h'⟩ := run_of_cons h
    rw [ih h', ht.reexec]
    simp [eq_comm, Bool.or_assoc]

theorem runActions_execArgs {as : List Action} (has : .checkExec ∉ as) (h : runActions host as st = .ok st') :
    st'.execArgs = st.execArgs := by
  induction as generalizing st with
  | nil => rw [run_of_nil h]
  | cons a as ih =>
    obtain ⟨t, ht, -, h'⟩ := run_of_cons h
    have ha : a ≠ .checkExec := fun ha => has (by simp [ha])
    rw [ih (fun hmem => has (by simp [hmem])) h', ht.execArgs, if_neg fun h => ha h.1]

/-- The arguments of the re-exec are set once. -/
theorem runActions_execArgs_some {as : List Action} {args : List MbStr} (hst : st.execArgs = some args)
    (h : runActions host as st = .ok st') : st'.execArgs = some args := by
  induction as generalizing st with
  | nil => rw [run_of_nil h, hst]
  | cons a as ih =>
    obtain ⟨t, ht, -, h'⟩ := run_of_cons h
    exact ih (by simp [ht.execArgs, hst]) h'

/-- The arguments of the re-exec are those of the command line, if there are none. -/
theorem runActions_execArgs_none {as : List Action} (hst : st.execArgs = none)
    (hre : st.reexec = true) (has : .checkExec ∈ as) (h : runActions host as st = .ok st') :
    st'.execArgs = some host.operands := by
  induction as generalizing st with
  | nil => cases has
  | cons a as ih =>
    obtain ⟨t, ht, -, h'⟩ := run_of_cons h
    by_cases ha : a = .checkExec
    · exact runActions_execArgs_some (by simp [ht.execArgs, ha, hre, hst]) h'
    · exact ih (by simp [ht.execArgs, ha, hst]) (by simp [ht.reexec, hre])
        ((List.mem_cons.1 has).resolve_left (Ne.symm ha)) h'

/-- The settings stay where no call is an option or the help text. -/
theorem runActions_settings_eq {as : List Action} (has : ∀ a ∈ as, a = .setDone ∨ a.plain = true)
    (h : runActions host as st = .ok st') : st'.settings = st.settings := by
  induction as generalizing st with
  | nil => rw [run_of_nil h]
  | cons a as ih =>
    obtain ⟨t, ht, -, h'⟩ := run_of_cons h
    have hset : t.settings = st.settings := by
      have hs := ht.settings
      rcases has a (by simp) with rfl | ha
      · simpa [Action.set, eq_comm] using hs
      · simpa [Action.set_plain ha, eq_comm] using hs
    rw [ih (fun b hb => has b (by simp [hb])) h', hset]

/-! ## The option loop -/

theorem routineActions_returns {n : Nat} {r : Routine} {es : List Event} (h : display n r = (es, none)) :
    routineActions display n r = es.map .call := by
  simp [routineActions, h]

theorem routineActions_dies {n : Nat} {r : Routine} {es : List Event} {fmt : String} {args : List MbStr}
    (h : display n r = (es, some (fmt, args))) :
    routineActions display n r = es.map .call ++ [.halt (.die fmt args)] := by
  simp [routineActions, h]

/-- A routine makes calls, and may die. -/
theorem mem_routineActions {n : Nat} {r : Routine} {a : Action} (h : a ∈ routineActions display n r) :
    (∃ e ∈ (display n r).1, a = .call e) ∨ ∃ fmt args, a = .halt (.die fmt args) := by
  rcases List.mem_append.1 h with h | h
  · obtain ⟨e, he, rfl⟩ := List.mem_map.1 h
    exact Or.inl ⟨e, he, rfl⟩
  · obtain ⟨m, -, rfl⟩ := List.mem_map.1 h
    exact Or.inr ⟨m.1, m.2, rfl⟩

theorem routineActions_plain (n : Nat) (r : Routine) : ∀ a ∈ routineActions display n r, a.plain = true := by
  intro a ha
  rcases mem_routineActions ha with ⟨e, -, rfl⟩ | ⟨fmt, args, rfl⟩ <;> rfl

theorem dumpCalls_plain (n : Nat) (rs : List Routine) : ∀ a ∈ dumpCalls display n rs, a.plain = true := by
  induction rs generalizing n with
  | nil => simp [dumpCalls]
  | cons r rs ih =>
    intro a ha
    rcases List.mem_append.1 ha with ha | ha
    · exact routineActions_plain n r a ha
    · exact ih (n + 1) a ha

theorem endActions_plain (display : Display) (done : Bool) (fmt : OutputFormat) :
    ∀ a ∈ endActions display done fmt, a.plain = true := by
  intro a ha
  unfold endActions at ha
  split at ha
  · cases fmt <;> simp only [compressActions, List.cons_append, List.nil_append, List.mem_cons, List.not_mem_nil,
      or_false] at ha
    all_goals rcases ha with rfl | rfl | rfl | rfl <;> rfl
  · simp only [dumpActions, List.cons_append, List.mem_cons, List.mem_append, List.not_mem_nil, or_false] at ha
    rcases ha with rfl | rfl | (ha | rfl) | rfl | rfl <;> first | rfl | exact dumpCalls_plain 0 _ a ha

theorem checkExec_loopActions (n : Nat) (opts : List Opt) : .checkExec ∉ loopActions display n opts := by
  induction opts generalizing n with
  | nil => simp [loopActions]
  | cons o opts ih =>
    cases o with
    | display r =>
      have hr : .checkExec ∉ routineActions display n r := fun h => by
        simpa using mem_routineActions h
      simp [loopActions, ih, hr]
    | long _ | help | invalid => simp [loopActions, ih]

theorem long_loopActions {o : LongOption} (n : Nat) (opts : List Opt) :
    .long o ∈ loopActions display n opts ↔ .long o ∈ opts := by
  induction opts generalizing n with
  | nil => simp [loopActions]
  | cons o' opts ih =>
    cases o' with
    | display r =>
      have hr : .long o ∉ routineActions display n r := fun h => by
        simpa [Action.plain] using routineActions_plain n r _ h
      simp [loopActions, ih, hr]
    | long _ | help | invalid => simp [loopActions, ih]

theorem setDone_loopActions (n : Nat) (opts : List Opt) :
    .setDone ∈ loopActions display n opts ↔ opts.any Opt.isDisplay = true := by
  induction opts generalizing n with
  | nil => simp [loopActions]
  | cons o opts ih =>
    cases o with
    | long o => simpa [loopActions, Opt.isDisplay] using ih n
    | display r => simp [loopActions, Opt.isDisplay]
    | help => simp [loopActions, Opt.isDisplay]
    | invalid => simp [loopActions, Opt.isDisplay]

theorem loopActions_long (os : List LongOption) (opts : List Opt) (n : Nat) :
    loopActions display n (os.map .long ++ opts) = os.map .long ++ loopActions display n opts := by
  induction os with
  | nil => rfl
  | cons o os ih => simp [loopActions, ih]

/-- An option sequence up to its first display option. -/
theorem opts_split (opts : List Opt) :
    ∃ (os : List LongOption) (rest : List Opt), opts = os.map .long ++ rest ∧
      (rest = [] ∨ ∃ o rest', rest = o :: rest' ∧ o.isDisplay = true) := by
  induction opts with
  | nil => exact ⟨[], [], rfl, Or.inl rfl⟩
  | cons o opts ih =>
    by_cases ho : o.isDisplay = true
    · exact ⟨[], o :: opts, rfl, Or.inr ⟨o, opts, rfl, ho⟩⟩
    · cases o with
      | display _ | help | invalid => simp [Opt.isDisplay] at ho
      | long o =>
        obtain ⟨os, rest, rfl, hrest⟩ := ih
        exact ⟨o :: os, rest, rfl, hrest⟩

/-- **A run of `main` is the run of its calls.** -/
theorem runMain_eq {opts : List Opt} (hst : st.done = false)
    (h : runActions host (loopActions display 0 opts) st = .ok st') :
    runMain host display opts st =
      runActions host (mainActions display opts st'.settings.outputFormat) st := by
  have hdone : st'.done = opts.any Opt.isDisplay := by
    rw [runActions_done h, hst, Bool.false_or, Bool.eq_iff_iff, decide_eq_true_iff, setDone_loopActions]
  rw [mainActions, runActions_append, h, ← hdone]
  simp only [runMain, h, bind, Except.bind]

/-- **The program that a run is to execute**: that of the variable, or else that of the command line. -/
theorem runMain_execArgs {opts : List Opt} (h : runMain host display opts st = .ok st')
    (hexec : st.reexec = true ∨ .long .exec ∈ opts) :
    st'.execArgs = some (st.execArgs.getD host.operands) := by
  obtain ⟨t, ht, h'⟩ := ok_of_bind h
  have hargs := runActions_execArgs (checkExec_loopActions 0 opts) ht
  have hre : t.reexec = true := by
    rw [runActions_reexec ht, Bool.or_eq_true, decide_eq_true_iff, long_loopActions]
    exact hexec
  cases hst : st.execArgs with
  | some args => exact runActions_execArgs_some (hargs.trans hst) h'
  | none =>
    refine runActions_execArgs_none (hargs.trans hst) hre ?_ h'
    unfold endActions
    split <;> simp

theorem runMain_reexec {opts : List Opt} (h : runMain host display opts st = .ok st') :
    st'.reexec = (st.reexec || decide (.long .exec ∈ opts)) := by
  obtain ⟨t, ht, h'⟩ := ok_of_bind h
  have hend : .long .exec ∉ endActions display t.done t.settings.outputFormat := fun h => by
    simpa [Action.plain] using endActions_plain _ _ _ _ h
  rw [runActions_reexec h', runActions_reexec ht]
  simp [hend, long_loopActions]

/-- The start of `main`. -/
theorem startMain_def (loc : Locale) (getenv : String → Option MbStr) :
    startMain loc getenv = (checkSettings getenv {} >>= handleIndentChar loc).map fun settings =>
      { settings
        reexec := (getenvSet getenv "PROCENV_EXEC").isSome
        execArgs := (getenvSet getenv "PROCENV_EXEC").map strsepFields } := by
  simp only [startMain, checkEnvvars, init, bind, Except.bind, pure, Except.pure]
  cases checkSettings getenv {} with
  | error e => rfl
  | ok c =>
    cases getenvSet getenv "PROCENV_EXEC" <;> dsimp only <;> cases handleIndentChar loc c <;> rfl

theorem start_of_startMain {loc : Locale} {getenv : String → Option MbStr} (h : startMain loc getenv = .ok st) :
    ∃ c, checkSettings getenv {} >>= handleIndentChar loc = .ok c ∧ st =
      { settings := c
        reexec := (getenvSet getenv "PROCENV_EXEC").isSome
        execArgs := (getenvSet getenv "PROCENV_EXEC").map strsepFields } := by
  rw [startMain_def] at h
  cases hc : checkSettings getenv {} >>= handleIndentChar loc with
  | error e => simp [hc, Except.map] at h
  | ok c => exact ⟨c, rfl, by simpa [hc, Except.map, eq_comm] using h⟩

theorem masterFooter_endActions (display : Display) (done : Bool) (fmt : OutputFormat) :
    .masterFooter ∈ endActions display done fmt := by
  unfold endActions
  split <;> simp [dumpActions]

/-- The footer asserts that the indent amount is not negative. -/
theorem end_amount {done : Bool} {fmt : OutputFormat}
    (h : runActions host (endActions display done fmt) st = .ok st') :
    0 ≤ st.settings.indentAmount := by
  have hplain := endActions_plain display done fmt
  obtain ⟨p, q, hpq⟩ := List.append_of_mem (masterFooter_endActions display done fmt)
  rw [hpq] at h hplain
  obtain ⟨t, ht, h'⟩ := run_of_append h
  obtain ⟨t', -, hfoot, -⟩ := run_of_cons h'
  rw [← runActions_settings_eq (fun a ha => .inr (hplain a (by simp [ha]))) ht]
  by_cases ha : 0 ≤ t.settings.indentAmount
  · exact ha
  · simp [act, masterFooter, commonAssert, Host.config, ha, bind, Except.bind] at hfoot

/-- The settings stay after the option loop. -/
theorem runMain_settings {opts : List Opt} (h : runMain host display opts st = .ok st') :
    ∃ t, runActions host (loopActions display 0 opts) st = .ok t ∧ st'.settings = t.settings := by
  obtain ⟨t, ht, h'⟩ := ok_of_bind h
  exact ⟨t, ht, runActions_settings_eq (fun a ha => .inr (endActions_plain _ _ _ a ha)) h'⟩

/-- The settings after an option. -/
def Opt.set (loc : Locale) (c : Settings) : Opt → Except Halt Settings
  | .long o => o.set loc c
  | .help => .ok { c with indentAmount := 0 }
  | .display _ | .invalid => .ok c

/-- **The settings after the option loop** are what its options make of them. -/
theorem loop_settings_eq {opts : List Opt} {n : Nat}
    (h : runActions host (loopActions display n opts) st = .ok st') :
    opts.foldlM (Opt.set host.locale) st.settings = .ok st'.settings := by
  induction opts generalizing n st with
  | nil => rw [run_of_nil h]; rfl
  | cons o opts ih =>
    cases o with
    | long o =>
      obtain ⟨t, ht, -, h'⟩ := run_of_cons h
      rw [List.foldlM_cons, show Opt.set host.locale st.settings (.long o) = .ok t.settings from ht.settings]
      exact ih h'
    | display r =>
      obtain ⟨t, ht, h'⟩ := run_of_append h
      have hset : t.settings = st.settings := by
        refine runActions_settings_eq (fun a ha => ?_) ht
        rcases List.mem_append.1 ha with ha | ha
        · have : a = .setDone ∨ a = .masterHeader := by simpa using ha
          rcases this with rfl | rfl
          · exact .inl rfl
          · exact .inr rfl
        · exact .inr (routineActions_plain n r a ha)
      rw [List.foldlM_cons, ← hset]
      exact ih h'
    | help =>
      -- `setDone`, the header, and `usage`, which sets the amount
      obtain ⟨t, ht, h'⟩ := run_of_append h
      obtain ⟨t₁, ht₁, -, h₁⟩ := run_of_cons ht
      obtain ⟨t₂, ht₂, -, h₂⟩ := run_of_cons h₁
      obtain ⟨t₃, ht₃, -, h₃⟩ := run_of_cons h₂
      obtain rfl := run_of_nil h₃
      rw [List.foldlM_cons, ← ih h']
      have h₁ : t₁.settings = st.settings := by simpa [Action.set, eq_comm] using ht₁.settings
      have h₂ : t₂.settings = t₁.settings := by simpa [Action.set, eq_comm] using ht₂.settings
      have h₃ : t.settings = { t₂.settings with indentAmount := 0 } := by
        simpa [Action.set, eq_comm] using ht₃.settings
      rw [h₃, h₂, h₁]
      rfl
    | invalid =>
      obtain ⟨t, ht, -⟩ := run_of_append h
      obtain ⟨t₁, -, -, h₁⟩ := run_of_cons ht
      obtain ⟨t₂, -, -, h₂⟩ := run_of_cons h₁
      obtain ⟨t₃, -, h₃, -⟩ := run_of_cons h₂
      simp [act] at h₃

end Procenv
