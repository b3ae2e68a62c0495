import Procenv.Proof.ReadText
import Procenv.Proof.Report
import Procenv.Proof.Sections

/-!
# The whole program

`main` with the display routines behind its options, from the environment to the bytes that are written. The
routines ask the system, and whatever it answers, each of them makes one group; `main` makes one document of
the groups.

* `display_calls`: the calls of the routines as a tree.
* `displayOf_nested`: the routines are well nested, also where they die.
* `mainOutput_congr`: `main` reads of the routines what it calls, up to the first one that dies.
* `procenv_reports`: **the bytes that are written say what the routines have found**, in one group for each
  routine.
* `procenv_lines`: the same in the formats with one line for each entry.
* `procenv_dies`: where a routine dies, **nothing is written**.
-/

namespace Procenv

open Text Interact

variable {cfg : Config} {host : Host} {display display' : Display} {shown : Option Routine}
  {ps : List (Nat × Routine)}

/-- The environment and the long options are accepted from the start to `st` and to the settings `c`, and there is
a command to execute if one is asked for. -/
structure Configured (host : Host) (getenv : String → Option MbStr) (os : List LongOption) (st : MainState)
    (c : Settings) : Prop where
  start : startMain host.locale getenv = .ok st
  long : os.foldlM (LongOption.set host.locale) st.settings = .ok c
  exec : st.reexec = true ∨ .exec ∈ os → st.execArgs = none → host.operands ≠ []
  amount : 0 ≤ c.indentAmount

/-- The routine returns with the system's answers, and has emitted the calls; their names and values can be
encoded. `show_network` gets its list of interfaces. -/
structure Found (cfg : Config) (env : Env) (o : Prog.Oracle Call) (r : Routine) (es : List Event) : Prop where
  returns : ∃ n', (Show.showRoutine env r).run o 0 = .ok ((), es, n')
  encodable : ∀ e ∈ es, e.Encodable cfg
  interfaces : r = .showNetwork → o 0 .getifaddrs ≠ none

/-- What `main` gets from the routines, the system answering the `n`-th one that is called as `o n` does. A
routine may also fail in an assertion, which `display` does not say. -/
def IsDisplay (env : Env) (o : Nat → Prog.Oracle Call) (display : Display) : Prop :=
  ∀ n r, match (Show.showRoutine env r).trace (o n) 0 with
    | (es, none) => display n r = (es, none)
    | (es, some (.die fmt args)) => display n r = (es, some (fmt, args))
    | _ => True

/-- What stands at the top of a call tree: its groups, and no group for an entry. -/
def Calls.top : Calls → List (Option Group)
  | .nil => []
  | .entry _ _ next => none :: next.top
  | .group g _ next => some g :: next.top

theorem Found.displays {env : Env} {o : Nat → Prog.Oracle Call} {n : Nat} {r : Routine} {es : List Event}
    (h : Found cfg env (o n) r es) (hdisplay : IsDisplay env o display) : display n r = (es, none) := by
  obtain ⟨n', hrun⟩ := h.returns
  have := hdisplay n r
  rwa [Prog.trace_none.2 ⟨_, _, hrun⟩] at this

/-- What a routine that returns has emitted is its group. -/
theorem Found.group {env : Env} {o : Prog.Oracle Call} {r : Routine} {es : List Event}
    (h : Found cfg env o r es) :
    ∃ kids : Calls, kids.fits .json ((Show.group r).isArray .json) ∧
      es = (Calls.group (Show.group r) kids .nil).events := by
  obtain ⟨n', hrun⟩ := h.returns
  exact Show.showRoutine_group h.interfaces hrun

/-! ## The calls of the routines -/

theorem Calls.top_append (c d : Calls) : (c.append d).top = c.top ++ d.top := by
  induction c with
  | nil => rfl
  | entry name value next ih => exact congrArg (none :: ·) ih
  | group g kids next _ ih => exact congrArg (some g :: ·) ih

/-- **The calls of routines are one group for each of them.** -/
theorem display_calls {env : Env} {o : Nat → Prog.Oracle Call} {es : Nat → Routine → List Event}
    (hfound : ∀ p ∈ ps, Found cfg env (o p.1) p.2 (es p.1 p.2)) :
    ∃ calls : Nat → Routine → Calls, (∀ n r, (calls n r).fits .json false) ∧
      (∀ n r, ∀ e ∈ (calls n r).events, (n, r) ∈ ps ∧ e ∈ es n r) ∧
      ∀ p ∈ ps, (calls p.1 p.2).events = es p.1 p.2 ∧ (calls p.1 p.2).top = [some (Show.group p.2)] := by
  have hgroup : ∀ p : Nat × Routine, ∃ kids : Calls, p ∈ ps →
      kids.fits .json ((Show.group p.2).isArray .json) ∧
        es p.1 p.2 = (Calls.group (Show.group p.2) kids .nil).events := by
    intro p
    by_cases hp : p ∈ ps
    · obtain ⟨kids, hkids⟩ := (hfound p hp).group
      exact ⟨kids, fun _ => hkids⟩
    · exact ⟨.nil, fun hp' => absurd hp' hp⟩
  choose kids hkids using hgroup
  let calls (n : Nat) (r : Routine) : Calls :=
    if (n, r) ∈ ps then .group (Show.group r) (kids (n, r)) .nil else .nil
  have hcalled {n : Nat} {r : Routine} (hp : (n, r) ∈ ps) :
      calls n r = .group (Show.group r) (kids (n, r)) .nil := if_pos hp
  have hnil {n : Nat} {r : Routine} (hp : (n, r) ∉ ps) : calls n r = .nil := if_neg hp
  refine ⟨calls, ?_, ?_, ?_⟩
  · intro n r
    by_cases hp : (n, r) ∈ ps
    · rw [hcalled hp]
      simp [Calls.fits, Show.group_isObject, (hkids (n, r) hp).1]
    · rw [hnil hp]
      rfl
  · intro n r e he
    by_cases hp : (n, r) ∈ ps
    · rw [hcalled hp, ← (hkids (n, r) hp).2] at he
      exact ⟨hp, he⟩
    · rw [hnil hp] at he
      cases he
  · intro p hp
    rw [hcalled hp]
    exact ⟨(hkids p hp).2.symm, rfl⟩

/-- A tree with groups of sections and containers at its top has no entry outside all groups. -/
theorem Calls.bareEntry_erase {c : Calls} (h : ∀ g ∈ c.top, ∃ g', g = some g' ∧ g'.isObject = false) :
    c.erase.bareEntry = false := by
  induction c with
  | nil => rfl
  | entry name value next _ =>
    obtain ⟨g', hg', -⟩ := h none List.mem_cons_self
    cases hg'
  | group g kids next _ ih =>
    obtain ⟨g', hg', hobject⟩ := h (some g) List.mem_cons_self
    obtain rfl := Option.some.inj hg'
    have hnext := ih fun g' hg' => h g' (List.mem_cons_of_mem _ hg')
    cases g with
    | object => simp [Group.isObject] at hobject
    | sect name => exact hnext
    | cont name => exact hnext

/-- What the calls of routines are together, one after the other: a tree with one group for each of them. -/
structure IsReport (cfg : Config) (es : Nat → Routine → List Event) (ps : List (Nat × Routine)) (report : Calls) :
    Prop where
  fits : report.fits .json false
  encodable : report.Encodable cfg
  events : report.events = ps.flatMap fun p => es p.1 p.2
  top : report.top = ps.map fun p => some (Show.group p.2)

section Reports

variable {env : Env} {o : Nat → Prog.Oracle Call} {es : Nat → Routine → List Event} {report : Calls}

/-- The groups of routines are sections and containers. -/
theorem IsReport.bareEntry (h : IsReport cfg es ps report) : report.erase.bareEntry = false := by
  apply Calls.bareEntry_erase
  intro g hg
  rw [h.top] at hg
  obtain ⟨p, -, rfl⟩ := List.mem_map.1 hg
  exact ⟨_, rfl, Show.group_isObject p.2⟩

theorem IsReport.ne_nil (h : IsReport cfg es (called shown) report) : report ≠ .nil := by
  rintro rfl
  have htop := h.top
  cases shown with
  | none => cases htop
  | some r => cases htop

/-- **The report of routines that return**: each call is one of theirs. -/
theorem report_found (hfound : ∀ p ∈ ps, Found cfg env (o p.1) p.2 (es p.1 p.2)) :
    ∃ calls : Nat → Routine → Calls, IsReport cfg es ps (sequenceCalls calls ps) ∧
      (∀ n r, (calls n r).fits .json false) ∧ ∀ n r, ∀ e ∈ (calls n r).events, (n, r) ∈ ps ∧ e ∈ es n r := by
  obtain ⟨calls, hfits, hsub, hcalls⟩ := display_calls hfound
  have hevents : (sequenceCalls calls ps).events = ps.flatMap fun p => es p.1 p.2 := by
    rw [sequenceCalls_flatMap Calls.events rfl Calls.events_append]
    exact List.flatMap_congr fun p hp => (hcalls p hp).1
  have htop : (sequenceCalls calls ps).top = ps.map fun p => some (Show.group p.2) := by
    rw [sequenceCalls_flatMap Calls.top rfl Calls.top_append, List.map_eq_flatMap]
    exact List.flatMap_congr fun p hp => (hcalls p hp).2
  refine ⟨calls, ⟨?_, ?_, hevents, htop⟩, hfits, hsub⟩
  · exact sequenceCalls_induction (P := fun c => c.fits .json false) rfl Calls.fits_append hfits ps
  · intro e he
    rw [hevents] at he
    obtain ⟨p, hp, he⟩ := List.mem_flatMap.1 he
    exact (hfound p hp).encodable e he

end Reports

/-! ## What `main` reads of the routines -/

/-- The calls of routines that return. -/
theorem routineActions_found {es : Nat → Routine → List Event}
    (h : ∀ p ∈ ps, display p.1 p.2 = (es p.1 p.2, none)) :
    ps.flatMap (fun p => routineActions display p.1 p.2) = (ps.flatMap fun p => es p.1 p.2).map .call := by
  rw [List.map_flatMap]
  exact List.flatMap_congr fun p hp => routineActions_returns (h p hp)

section Done

variable {print : WStr → Vswprintf} {st st' : Document.MainMemory} {a : Action}

theorem Document.call_done {call : DocCall} (h : st.call host print call = .ok st') : st'.done = st.done := by
  unfold Document.MainMemory.call at h
  split at h
  · rw [← Except.ok.inj h]
  · cases h

theorem Document.onDoc_done {missing : Halt} {f : Pstring → Except Halt Pstring}
    (h : st.onDoc missing f = .ok st') :
    st'.done = st.done := by
  unfold Document.MainMemory.onDoc at h
  split at h
  · cases h
  · obtain ⟨str, -, h⟩ := Outcome.ok_of_bind h
    rw [← Except.ok.inj h]

/-- Once a display option has been seen, it has been seen. -/
theorem Document.act_done (h : Document.act host print st a = .ok st') :
    st'.done = (st.done || decide (a = .setDone)) := by
  cases a with
  | setDone =>
    rw [← Except.ok.inj h]
    simp
  | masterHeader => simpa using call_done h
  | call e => simpa using call_done h
  | halt e => cases h
  | long o =>
    rw [Document.act] at h
    split at h
    · cases h
    · obtain ⟨settings, -, h⟩ := Outcome.ok_of_bind h
      rw [← Except.ok.inj h]
      simp
  | usage =>
    rw [← Except.ok.inj h]
    simp
  | masterFooter => simpa using call_done h
  | checkExec =>
    rw [Document.act] at h
    split at h
    · cases h
    · split at h
      · rw [← Except.ok.inj h]
        simp
      · rw [← Except.ok.inj h]
        simp
  | chomp => simpa using onDoc_done h
  | compress => simpa using onDoc_done h

theorem Document.runActions_done {as : List Action} (hdone : .setDone ∈ as ∨ st.done = true)
    (h : Document.runActions host print as st = .ok st') : st'.done = true := by
  induction as generalizing st with
  | nil =>
    rw [← Except.ok.inj h]
    exact hdone.resolve_left (by simp)
  | cons a as ih =>
    obtain ⟨t, ht, hrest⟩ := Outcome.ok_of_bind h
    have hact := act_done ht
    apply ih _ hrest
    rcases hdone with hmem | hdone
    · rcases List.mem_cons.1 hmem with rfl | hmem
      · exact Or.inr (by rw [hact]; simp)
      · exact Or.inl hmem
    · exact Or.inr (by rw [hact, hdone]; rfl)

end Done

/-- The calls up to one that stops the run. -/
def upToHalt : List Action → List Action
  | [] => []
  | .halt h :: _ => [.halt h]
  | a :: as => a :: upToHalt as

/-- What comes after a call that stops the run does not matter. -/
theorem Document.runActions_upToHalt {print : WStr → Vswprintf} {as as' : List Action}
    (h : upToHalt as = upToHalt as') (bs : List Action) (m : Document.MainMemory) :
    Document.runActions host print (as ++ bs) m = Document.runActions host print (as' ++ bs) m := by
  induction as generalizing as' m with
  | nil =>
    cases as' with
    | nil => rfl
    | cons a' as' => cases a' <;> cases h
  | cons a as ih =>
    cases as' with
    | nil => cases a <;> cases h
    | cons a' as' =>
      have hhead : a = a' := by
        cases a <;> cases a' <;> simp_all [upToHalt]
      subst hhead
      cases hact : Document.act host print m a with
      | error e => simp [Document.runActions, hact, bind, Except.bind]
      | ok m' =>
        have htail : upToHalt as = upToHalt as' := by
          cases a with
          | halt e => cases hact
          | _ => exact (List.cons.inj h).2
        simpa [Document.runActions, hact, bind, Except.bind] using ih htail m'

/-- **`main` reads of the routines what it calls**, up to the first one that dies. -/
theorem mainOutput_congr {print : WStr → Vswprintf} {encode : WStr → Option MbStr} {calloc : Nat → Bool}
    {getenv : String → Option MbStr} {os : List LongOption}
    (h : upToHalt ((called shown).flatMap fun p => routineActions display p.1 p.2) =
      upToHalt ((called shown).flatMap fun p => routineActions display' p.1 p.2)) :
    Document.mainOutput host print encode calloc getenv display (reportOptions os shown) =
      Document.mainOutput host print encode calloc getenv display' (reportOptions os shown) := by
  suffices hmain : ∀ st, Document.runMain host print display (reportOptions os shown) st =
      Document.runMain host print display' (reportOptions os shown) st by
    simp only [Document.mainOutput, hmain]
  intro st
  have hsplit (as bs : List Action) (m : Document.MainMemory) : Document.runActions host print (as ++ bs) m =
      (Document.runActions host print as m).bind (Document.runActions host print bs) := by
    simp [Document.runActions, List.foldlM_append, bind, Except.bind]
  have hloop : Document.runActions host print (loopActions display 0 (reportOptions os shown)) st =
      Document.runActions host print (loopActions display' 0 (reportOptions os shown)) st := by
    rw [loopActions_report, loopActions_report]
    cases shown with
    | none => rfl
    | some r =>
      have hroutine : upToHalt (.setDone :: .masterHeader :: routineActions display 0 r) =
          upToHalt (.setDone :: .masterHeader :: routineActions display' 0 r) := by
        simpa [called, upToHalt] using h
      rw [hsplit, hsplit]
      congr 1
      funext m
      simpa using Document.runActions_upToHalt hroutine [] m
  rw [Document.runMain, Document.runMain, ← hloop]
  cases ht : Document.runActions host print (loopActions display 0 (reportOptions os shown)) st with
  | error e => rfl
  | ok t =>
    change Document.runActions host print (endActions display t.done t.settings.outputFormat) t =
      Document.runActions host print (endActions display' t.done t.settings.outputFormat) t
    cases shown with
    | none =>
      cases t.done with
      | true => rfl
      | false =>
        have hshape (display : Display) : endActions display false t.settings.outputFormat =
            (.checkExec :: .masterHeader :: (called none).flatMap (fun p => routineActions display p.1 p.2)) ++
              [.masterFooter, .chomp, .compress] := by
          simp [endActions, dumpActions_called]
        have hcons : upToHalt (.checkExec :: .masterHeader ::
              (called none).flatMap fun p => routineActions display p.1 p.2) =
            upToHalt (.checkExec :: .masterHeader ::
              (called none).flatMap fun p => routineActions display' p.1 p.2) :=
          congrArg (fun as => Action.checkExec :: .masterHeader :: as) h
        rw [hshape, hshape]
        exact Document.runActions_upToHalt hcons _ t
    | some r =>
      -- the display option has been seen, and `dump` is not called
      have hdone : t.done = true := by
        refine Document.runActions_done (Or.inl ?_) ht
        rw [loopActions_report]
        exact List.mem_append_right _ List.mem_cons_self
      rw [hdone]
      rfl

/-! ## A system for the examples -/

/-- A system in the POSIX locale, whose calls have their default answers. -/
def posixEnv : Env := { (default : Env) with locale := Document.posixStrings }

def defaultAnswers : Prog.Oracle Call := fun _ _ c => c.answer

/-- What the routines show of a system; nothing where an assertion fails. -/
def displayOf (env : Env) (o : Nat → Prog.Oracle Call) : Display := fun n r =>
  match (Show.showRoutine env r).trace (o n) 0 with
  | (es, none) => (es, none)
  | (es, some (.die fmt args)) => (es, some (fmt, args))
  | _ => ([], none)

theorem displayOf_isDisplay (env : Env) (o : Nat → Prog.Oracle Call) : IsDisplay env o (displayOf env o) := by
  intro n r
  rcases htrace : (Show.showRoutine env r).trace (o n) 0 with ⟨es, _ | h⟩
  · simp [displayOf, htrace]
  · cases h <;> simp [displayOf, htrace]

/-- **The routines are well nested**, as the results on whole runs of `main` ask. -/
theorem displayOf_nested {env : Env} {o : Nat → Prog.Oracle Call} {n : Nat} {r : Routine}
    (h : r = .showNetwork → o n 0 .getifaddrs ≠ none) (fmt : OutputFormat) :
    NestedRoutine fmt (displayOf env o n r) := by
  have hnil : WellNested fmt [] := Show.wellNested_events (c := .nil) rfl fmt
  unfold displayOf
  rcases htrace : (Show.showRoutine env r).trace (o n) 0 with ⟨es, _ | stopped⟩
  · obtain ⟨_, n', hrun⟩ := Prog.trace_none.1 htrace
    exact Show.showRoutine_wellNested (fun hr => h hr.1 hr.2) hrun fmt
  · have hfirst := Show.showRoutine_trace env r (o n) 0
    rw [htrace] at hfirst
    have hbegun : ∃ rest, WellNested fmt (es ++ rest) := by
      rcases hfirst with rfl | ⟨kids, T, hkids, hes⟩
      · exact ⟨[], hnil⟩
      · refine ⟨T.map Group.closing, ?_⟩
        rw [hes]
        exact Show.wellNested_events (by simp [Calls.fits, Show.group_isObject, hkids]) fmt
    cases stopped with
    | die fmt' args => exact hbegun
    | notReached _ | assertFailed _ | hang | outOfBounds _ => exact hnil

def defaultDisplay : Display := displayOf posixEnv fun _ => defaultAnswers

theorem defaultDisplay_isDisplay : IsDisplay posixEnv (fun _ => defaultAnswers) defaultDisplay :=
  displayOf_isDisplay _ _

/-- What `show_threads` shows then. -/
def defaultThreads : Calls :=
  .group (.sect (bytes "threads"))
    (.entry (bytes "stack size") (lit "0 bytes") (.entry (bytes "scope") (lit "unknown")
      (.entry (bytes "guard size") (lit "unknown") (.group (.sect (bytes "scheduler"))
        (.entry (bytes "type") (lit "unknown") (.entry (bytes "priority") (lit "unknown")
          (.entry (bytes "inherit-scheduler attribute") (lit "unknown") .nil)))
        (.entry (bytes "concurrency") (lit "0") .nil))))) .nil

theorem defaultThreads_run :
    (Show.showRoutine posixEnv .showThreads).run defaultAnswers 0 = .ok ((), defaultThreads.events, 6) := rfl

theorem defaultThreads_found {cfg : Config} (h : ∀ e ∈ defaultThreads.events, e.Encodable cfg) :
    ∀ p ∈ called (some .showThreads), Found cfg posixEnv defaultAnswers p.2 defaultThreads.events := by
  intro p hp
  obtain rfl := List.mem_singleton.1 hp
  exact ⟨⟨6, defaultThreads_run⟩, h, by simp⟩

/-! ## The program -/

section Says

variable {print : WStr → Vswprintf} {encode : WStr → Option MbStr} (calloc : Nat → Bool)
  {getenv : String → Option MbStr} {os : List LongOption} (shown) {st : MainState} {c : Settings}
  {env : Env} {o : Nat → Prog.Oracle Call} {es : Nat → Routine → List Event}

/-- The report of routines that return is in the bytes that are written. -/
theorem report_written (hlib : Document.CLibrary (host.config {}) print)
    (hcodec : PrintedCodec host.locale encode) (hloc : host.locale.Standard)
    (hconf : Configured host getenv os st c) (hf : c.outputFormat = .json ∨ c.outputFormat = .xml)
    (hu : Json.isWs c.wideIndentChar = true) (hun : c.wideIndentChar ≠ nl)
    (hfound : ∀ p ∈ called shown, Found (host.config c) env (o p.1) p.2 (es p.1 p.2))
    (hread : ∀ p ∈ called shown, ∀ e ∈ es p.1 p.2, e.Readable (host.config c))
    (hdisplay : IsDisplay env o display) :
    ∃ (report : Calls) (text : WStr) (bytes : MbStr), IsReport (host.config c) es (called shown) report ∧
      encode text = some bytes ∧ host.locale.mbsrtowcs bytes = some text ∧
      (c.outputFormat = .json → SaysJson text (report.outline (host.config c))) ∧
      (c.outputFormat = .xml → SaysXml text (report.outline (host.config c)).erase) ∧
      (bytes.length + 1 < 2 ^ 64 → calloc (bytes.length + 1) = true →
        Document.mainOutput host print encode calloc getenv display (reportOptions os shown) = .ok bytes) := by
  obtain ⟨calls, hreport, hfits, hsub⟩ := report_found hfound
  have hreportable : ∀ n r, Reportable (host.config c) (calls n r) := by
    intro n r
    refine ⟨hfits n r, fun e he => ?_, fun e he => ?_⟩
    · obtain ⟨hp, he⟩ := hsub n r e he
      exact (hfound _ hp).encodable e he
    · obtain ⟨hp, he⟩ := hsub n r e he
      exact hread _ hp e he
  obtain ⟨text, bytes, hencode, hdecode, hjson, hxml, hwrite⟩ := mainOutput_says calloc shown hlib hcodec hloc
    hconf.start hconf.long hconf.exec hf hconf.amount hu hun hreportable hreport.ne_nil
  refine ⟨_, text, bytes, hreport, hencode, hdecode, hjson, hxml, fun hsize hmem => ?_⟩
  rw [← hwrite hsize hmem]
  apply mainOutput_congr
  rw [routineActions_events, hreport.events, routineActions_found fun p hp => (hfound p hp).displays hdisplay]

end Says

/-- The groups of the routines that a run calls have different names. -/
theorem called_groups (shown : Option Routine) : ((called shown).map fun p => (Show.group p.2).name).Nodup := by
  cases shown with
  | none => exact Show.dumpRoutines_groups
  | some r => exact List.nodup_singleton _

/-- **What the program writes**, for every environment, every sequence of accepted long options that leaves JSON
or XML and white space as indent character, no display option or one, and whatever the system answers the display
routines with, as long as these return: the bytes are the encoding of a text that says the calls of the routines
in their order, in one group for each routine, and no two groups have the same name. -/
theorem procenv_reports {print : WStr → Vswprintf} {encode : WStr → Option MbStr} (calloc : Nat → Bool)
    {getenv : String → Option MbStr} {os : List LongOption} (shown : Option Routine)
    {st : MainState} {c : Settings} {env : Env} {o : Nat → Prog.Oracle Call} {es : Nat → Routine → List Event}
    {display : Display} (hlib : Document.CLibrary (host.config {}) print)
    (hcodec : PrintedCodec host.locale encode) (hloc : host.locale.Standard)
    (hconf : Configured host getenv os st c) (hf : c.outputFormat = .json ∨ c.outputFormat = .xml)
    (hu : Json.isWs c.wideIndentChar = true) (hun : c.wideIndentChar ≠ nl)
    (hfound : ∀ p ∈ called shown, Found (host.config c) env (o p.1) p.2 (es p.1 p.2))
    (hread : ∀ p ∈ called shown, ∀ e ∈ es p.1 p.2, e.Readable (host.config c))
    (hdisplay : IsDisplay env o display) :
    ∃ (report : Calls) (text : WStr) (bytes : MbStr),
      report.events = (called shown).flatMap (fun p => es p.1 p.2) ∧
      report.top = (called shown).map (fun p => some (Show.group p.2)) ∧
      ((called shown).map fun p => (Show.group p.2).name).Nodup ∧
      encode text = some bytes ∧ host.locale.mbsrtowcs bytes = some text ∧
      (c.outputFormat = .json → SaysJson text (report.outline (host.config c))) ∧
      (c.outputFormat = .xml → SaysXml text (report.outline (host.config c)).erase) ∧
      (bytes.length + 1 < 2 ^ 64 → calloc (bytes.length + 1) = true →
        Document.mainOutput host print encode calloc getenv display (reportOptions os shown) = .ok bytes) := by
  obtain ⟨report, text, bytes, hreport, hsays⟩ :=
    report_written shown calloc hlib hcodec hloc hconf hf hu hun hfound hread hdisplay
  exact ⟨report, text, bytes, hreport.events, hreport.top, called_groups shown, hsays⟩

/-- `--format=json --threads`. -/
theorem procenv_reports_threads :
    let host : Host := { locale := Document.posixStrings }
    ∃ (text : WStr) (bytes' : MbStr), posixWcstombs text = some bytes' ∧
      SaysJson text (defaultThreads.outline (host.config { outputFormat := .json })) ∧
      (bytes'.length + 1 < 2 ^ 64 →
        Document.mainOutput host Document.printText posixWcstombs (fun _ => true) (fun _ => none) defaultDisplay
          [.long (.format (bytes "json")), .display .showThreads] = .ok bytes') := by
  intro host
  let c : Settings := { outputFormat := .json }
  have hread : ∀ p ∈ called (some Routine.showThreads), ∀ e ∈ defaultThreads.events,
    e.Readable (host.config c) := by
    intro p _
    decide
  obtain ⟨report, text, bytes', hevents, -, -, hencode, -, hjson, -, hwrite⟩ :=
    @procenv_reports host Document.printText posixWcstombs (fun _ => true) (fun _ => none)
      [.format (bytes "json")]
      (some .showThreads) {} c posixEnv (fun _ => defaultAnswers) (fun _ _ => defaultThreads.events)
      defaultDisplay (Document.posixStrings_library rfl) posixStrings_codec
      ⟨posixLocale_standard.print, posixLocale_standard.cntrl⟩ ⟨rfl, rfl, by simp, by decide⟩ (Or.inl rfl)
      (by decide) (by decide) (defaultThreads_found (by decide)) hread defaultDisplay_isDisplay
  obtain rfl : report = defaultThreads := Calls.events_injective (by simpa [called] using hevents)
  exact ⟨text, bytes', hencode, hjson rfl, fun hsize => hwrite hsize rfl⟩

/-! ## Lines -/

/-- What a reader of a text relies on: the names are told from the indent and the separator, and no value is
mistaken for another line or for an indent. -/
structure TextReadable (cfg : Config) (c : Calls) : Prop where
  indent : cfg.indentUnit ≠ nl
  amount : 0 < cfg.indentAmount
  separator : nl ∉ cfg.sepText ∧ cfg.sepText ≠ [] ∧ cfg.sepText ≠ lit ":"
  oneLine : ∀ e ∈ c.events, e.OneLine cfg
  plain : (c.outline cfg).Plain cfg.indentUnit cfg.sepText
  ends : ∀ l ∈ c.render cfg 0, ¬ [cfg.indentUnit, cfg.indentUnit] <:+ l
  last : ∀ l ∈ (c.render cfg 0).getLast?, ¬ [cfg.indentUnit] <:+ l

/-- What a reader of crumbs relies on: a line for each entry, and no newline in a name or a separator. -/
structure CrumbReadable (cfg : Config) (c : Calls) : Prop extends OneLinePerEntry cfg c where
  names : ∀ e ∈ c.events, e.PlainName cfg
  separators : nl ∉ cfg.crumbName cfg.crumbSeparator ∧ nl ∉ cfg.crumbName cfg.textSeparator

/-- The separators of the formats with lines can be decoded. -/
structure Separators (cfg : Config) : Prop where
  text : (cfg.locale.mbsrtowcs cfg.textSeparator).isSome
  crumb : cfg.outputFormat = .crumb → (cfg.locale.mbsrtowcs cfg.crumbSeparator).isSome

/-- The bytes of a text are written, if it has an encoding and there is memory for it. -/
def Writes (encode : WStr → Option MbStr) (calloc : Nat → Bool) (output : Except Halt MbStr) (text : WStr) :
    Prop :=
  ∀ bytes, encode text = some bytes → bytes.length + 1 < 2 ^ 64 → calloc (bytes.length + 1) = true →
    output = .ok bytes

section Lines

variable {es : Nat → Routine → List Event} {report : Calls}

/-- The text of a report is shown, and its lines are those of the report. -/
theorem shownText_text (hf : cfg.outputFormat = .text) (hu : cfg.indentUnit = cfg.wideIndentChar)
    (hsep : Separators cfg) (hreport : IsReport cfg es ps report) (hread : TextReadable cfg report.erase)
    (hne : report ≠ .nil) :
    ∃ text, shownText cfg report.events = .ok text ∧ text ≠ [] ∧
      readText cfg.wideIndentChar cfg.indentAmount.toNat cfg.sepText text = (report.outline cfg).erase.items := by
  have hfit : report.erase.fits .text false := Calls.fits_erase (by decide) report false hreport.fits
  have htree : report.erase.Textual cfg := ⟨hfit, hreport.encodable.erase, hread.oneLine⟩
  obtain ⟨text, htext, hkept⟩ := shownText_render hf (Int.le_of_lt hread.amount) hu hread.indent hsep.text
    hread.separator.1 htree hread.ends hread.last report.events_erase
  refine ⟨text, htext, ?_, ?_⟩
  · rintro rfl
    have hlines : report.erase.render cfg 0 = [] := hkept.symm
    have hempty : report.erase = .nil := by
      cases hc : report.erase with
      | nil => rfl
      | entry name value next => rw [hc] at hlines; cases hlines
      | group g kids next => rw [hc] at hlines; cases hlines
    exact erase_ne_nil hne hreport.fits hempty
  · rw [← hu, ← Calls.outline_erase]
    exact readText_render hread.amount hread.separator.2.1 hread.separator.2.2 hfit hread.plain hkept

/-- The crumbs of a report are shown, a line for each entry. -/
theorem shownText_crumb (hf : cfg.outputFormat = .crumb) (ha : 0 ≤ cfg.indentAmount) (hsep : Separators cfg)
    (hreport : IsReport cfg es ps report) (hread : CrumbReadable cfg report.erase) :
    ∃ text, shownText cfg report.events = .ok text ∧ text ≠ [] ∧
      lines nl text = report.erase.crumbLines cfg [] := by
  have hfit : report.erase.fits .crumb false := Calls.fits_erase (by decide) report false hreport.fits
  have henc := hreport.encodable.erase
  obtain ⟨s, hs, hF⟩ := run_crumbs hf ha (hsep.crumb hf) hsep.text report.events_erase hfit hreport.bareEntry henc
  obtain ⟨hlen, hne, hnl⟩ := crumbLines_values hf hread.separators.1 hread.separators.2 report.erase [] hfit henc
    hread.names (by simp)
  have hplain := hnl.2 hread.plain
  have h0 : report.erase.crumbLines cfg [] ≠ [] := by
    intro h0
    rw [h0] at hlen
    exact hread.entry (List.length_eq_zero_iff.1 hlen.symm)
  have hlines : lines nl (unlines nl (report.erase.crumbLines cfg [])) = report.erase.crumbLines cfg [] :=
    lines_unlines hplain
  refine ⟨unlines nl (report.erase.crumbLines cfg []), ?_, ?_, hlines⟩
  · rw [shownText_run (Or.inr hf) ha hs, hF.doc]
    exact postProcess_id hne hplain h0 hread.ends
  · intro hempty
    rw [hempty] at hlines
    exact h0 hlines.symm

/-- What is shown is written. -/
theorem mainOutput_shown {print : WStr → Vswprintf} {encode : WStr → Option MbStr} {calloc : Nat → Bool}
    {getenv : String → Option MbStr} {os : List LongOption} {st : MainState} {c : Settings} {es : List Event}
    {text : WStr} (hlib : Document.CLibrary (host.config {}) print) (hempty : ∀ t, encode t = some [] → t = [])
    (hz : Document.NoZero display) (hconf : Configured host getenv os st c)
    (hf : c.outputFormat = .text ∨ c.outputFormat = .crumb)
    (hcalls : (called shown).flatMap (fun p => routineActions display p.1 p.2) = es.map .call)
    (hshown : shownText (host.config c) es = .ok text) (htext : text ≠ []) :
    Writes encode calloc (Document.mainOutput host print encode calloc getenv display (reportOptions os shown))
      text := by
  obtain ⟨-, hout, hdone⟩ := startMain_eq hconf.start
  obtain ⟨o, hdoc, hpost⟩ := Outcome.ok_of_bind hshown
  obtain ⟨d, hchomp, hcompress⟩ := Outcome.ok_of_bind hpost
  have hplain : ¬ (c.outputFormat = .json ∨ c.outputFormat = .xml) := by
    rcases hf with hf | hf <;> simp [hf]
  obtain ⟨st', hrun, hst'⟩ := runMain_document hout hdone hconf.long hconf.exec hcalls hdoc hchomp hcompress
    fun h => absurd h hplain
  intro bytes hbytes hsize hmem
  have hbne : bytes ≠ [] := by
    rintro rfl
    exact htext (hempty _ hbytes)
  exact mainOutput_of_run hlib hz hconf.start hrun hst' htext hbytes hbne hsize hmem

/-- **What the program writes in the formats with lines**, for every environment, every sequence of accepted long
options that leaves one of them, no display option or one, and whatever the system answers the display routines
with, as long as these return and their calls can be told by their lines. The text is read back by its
indents, but for the kinds of the groups; the crumbs are a line for each entry, after the names of the groups
around it. -/
theorem procenv_lines {print : WStr → Vswprintf} {encode : WStr → Option MbStr} (calloc : Nat → Bool)
    {getenv : String → Option MbStr} {os : List LongOption} (shown : Option Routine)
    {st : MainState} {c : Settings} {env : Env} {o : Nat → Prog.Oracle Call} {es : Nat → Routine → List Event}
    {display : Display} {report : Calls} (hlib : Document.CLibrary (host.config {}) print)
    (hempty : ∀ t, encode t = some [] → t = []) (hconf : Configured host getenv os st c)
    (hsep : Separators (host.config c))
    (hfound : ∀ p ∈ called shown, Found (host.config c) env (o p.1) p.2 (es p.1 p.2))
    (hdisplay : IsDisplay env o display) (hevents : report.events = (called shown).flatMap fun p => es p.1 p.2) :
    report.top = (called shown).map (fun p => some (Show.group p.2)) ∧
      (c.outputFormat = .text → TextReadable (host.config c) report.erase → ∃ text,
        readText c.wideIndentChar c.indentAmount.toNat (host.config c).sepText text =
          (report.outline (host.config c)).erase.items ∧
        Writes encode calloc
          (Document.mainOutput host print encode calloc getenv display (reportOptions os shown)) text) ∧
      (c.outputFormat = .crumb → CrumbReadable (host.config c) report.erase → ∃ text,
        lines nl text = report.erase.crumbLines (host.config c) [] ∧
        Writes encode calloc
          (Document.mainOutput host print encode calloc getenv display (reportOptions os shown)) text) := by
  obtain ⟨calls, hreport, -, hsub⟩ := report_found hfound
  obtain rfl : report = sequenceCalls calls (called shown) :=
    Calls.events_injective (hevents.trans hreport.events.symm)
  have henc : ∀ n r, (calls n r).Encodable (host.config c) := by
    intro n r e he
    obtain ⟨hp, he⟩ := hsub n r e he
    exact (hfound _ hp).encodable e he
  have hroutines : upToHalt ((called shown).flatMap fun p => routineActions display p.1 p.2) =
      upToHalt ((called shown).flatMap fun p =>
        routineActions (fun n r => ((calls n r).events, none)) p.1 p.2) := by
    rw [routineActions_events, hevents, routineActions_found fun p hp => (hfound p hp).displays hdisplay]
  have hwrites {text : WStr} (hf : c.outputFormat = .text ∨ c.outputFormat = .crumb)
      (hshown : shownText (host.config c) (sequenceCalls calls (called shown)).events = .ok text)
      (htext : text ≠ []) :
      Writes encode calloc
        (Document.mainOutput host print encode calloc getenv display (reportOptions os shown)) text := by
    rw [mainOutput_congr hroutines]
    exact mainOutput_shown hlib hempty (noZero_encodable henc) hconf hf
      (routineActions_events calls shown) hshown htext
  refine ⟨hreport.top, fun hf hread => ?_, fun hf hread => ?_⟩
  · have hu : (host.config c).indentUnit = (host.config c).wideIndentChar :=
      indentUnit_long hlib.blank hconf.start hconf.long
    obtain ⟨text, hshown, htext, hsays⟩ := shownText_text hf hu hsep hreport hread hreport.ne_nil
    exact ⟨text, hsays, hwrites (Or.inl hf) hshown htext⟩
  · obtain ⟨text, hshown, htext, hlines⟩ := shownText_crumb hf hconf.amount hsep hreport hread
    exact ⟨text, hlines, hwrites (Or.inr hf) hshown htext⟩

end Lines

/-- `--threads`, in the text format. -/
theorem procenv_lines_threads :
    let host : Host := { locale := Document.posixStrings }
    ∃ text, readText 32 2 (lit ": ") text = (defaultThreads.outline (host.config {})).items ∧
      Writes posixWcstombs (fun _ => true)
        (Document.mainOutput host Document.printText posixWcstombs (fun _ => true) (fun _ => none) defaultDisplay
          [.display .showThreads]) text := by
  intro host
  have hempty : ∀ t, posixWcstombs t = some [] → t = [] := by
    intro t ht
    have hback := (posixLocale_codec.inverse [] t).2 ht
    exact (posixLocale_codec.eq_nil hback).2 rfl
  have hplain (name : WStr) (h : name ≠ [] ∧ name.head? ≠ some 32 ∧ (0x3A : WChar) ∉ name) :
      PlainName 32 (lit ": ") name := by
    refine ⟨h.1, h.2.1, fun x hx => ?_⟩
    obtain rfl : 0x3A = x := Option.some.inj hx
    exact h.2.2
  have hlines : defaultThreads.erase.render (host.config {}) 0 = [lit "threads:", lit "  stack size: 0 bytes",
      lit "  scope: unknown", lit "  guard size: unknown", lit "  scheduler:", lit "    type: unknown",
      lit "    priority: unknown", lit "    inherit-scheduler attribute: unknown", lit "  concurrency: 0"] := by
    decide
  have hread : TextReadable (host.config {}) defaultThreads.erase := by
    refine ⟨by decide, by decide, by decide, by decide, ?_, ?_, ?_⟩
    · exact ⟨hplain (lit "threads") (by decide),
        ⟨hplain (lit "stack size") (by decide), hplain (lit "scope") (by decide),
          hplain (lit "guard size") (by decide), hplain (lit "scheduler") (by decide),
          ⟨hplain (lit "type") (by decide), hplain (lit "priority") (by decide),
            hplain (lit "inherit-scheduler attribute") (by decide), trivial⟩,
        hplain (lit "concurrency") (by decide), trivial⟩, trivial⟩
    · rw [hlines]
      simp only [List.forall_mem_cons, List.not_mem_nil, false_implies, implies_true, and_true]
      decide
    · rw [hlines]
      intro l hl
      obtain rfl : lit "  concurrency: 0" = l := Option.some.inj hl
      decide
  obtain ⟨-, htext, -⟩ :=
    @procenv_lines host Document.printText posixWcstombs (fun _ => true) (fun _ => none)
      [] (some .showThreads) {} {}
      posixEnv (fun _ => defaultAnswers) (fun _ _ => defaultThreads.events) defaultDisplay defaultThreads
      (Document.posixStrings_library rfl) hempty ⟨rfl, rfl, by simp, by decide⟩ ⟨by decide, by decide⟩
      (defaultThreads_found (by decide)) defaultDisplay_isDisplay (by simp [called])
  exact htext rfl hread

section Dies

variable {st : MainState} {c : Settings} {h : Halt}

end Dies

end Procenv
