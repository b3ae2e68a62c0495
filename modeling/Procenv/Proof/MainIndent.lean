import Procenv.Proof.Indent
import Procenv.Proof.MainRun

/-!
# The indent over whole runs of `main`

Between two display routines the cursor is where the header left it, or after a
call of the top level (`Top`); the footer brings the indent back to zero from there.
Only `reset_indent`, which `--exec` runs also after a display option, leaves these
positions.

* `routine_always`, `dump_always`: the display routines keep `Top`.
* `main_indent`: **the indent is never negative, `dec_indent` never fails and the footer
  leaves no indent, exactly if no `--exec` comes between the header and the footer of
  an XML document, or of a JSON document that is not empty**. With the help text it is
  the other way round: an XML document ends without indent only if there is one.
-/

namespace Procenv

open Text Outcome

variable {host : Host} {display : Display} {st st' : MainState} {c : Settings}

/-! ## Positions between the display routines -/

/-- A routine is well nested: it emits a call tree of the format's grammar. Outside JSON the object
calls do nothing, and may stand anywhere. -/
def WellNested (fmt : OutputFormat) (es : List Event) : Prop :=
  ∃ calls : Calls, calls.fits fmt false ∧ (if fmt = .json then es else eraseObjects es) = calls.events

/-- Where the header leaves the cursor. -/
def startCursor (cfg : Config) : Cursor :=
  match cfg.outputFormat with
  | .json => ⟨.objectOpen, 0⟩
  | .xml => ⟨.none, cfg.indentAmount⟩
  | .text | .crumb => ⟨.none, 0⟩

/-- The position where the header leaves the cursor. -/
def startPos (fmt : OutputFormat) : Pos := if fmt = .json then .opened else .fresh

/-- The positions between the display routines: after the header, or after a call. -/
def Top (cfg : Config) (cur : Cursor) : Prop :=
  cur = startCursor cfg ∨
    if cfg.outputFormat = .crumb then cur.indent = 0
    else Stands cfg.outputFormat false cur.element .after ∧
      cur.indent = kidIndent cfg (startPos cfg.outputFormat) (startCursor cfg).indent

variable {cfg : Config} {s : OutState}

theorem startCursor_nonneg (ha : 0 ≤ cfg.indentAmount) : 0 ≤ (startCursor cfg).indent := by
  unfold startCursor
  split <;> first | exact ha | exact Int.le_refl _

theorem Top.nonneg (ha : 0 ≤ cfg.indentAmount) {cur : Cursor} (h : Top cfg cur) : 0 ≤ cur.indent := by
  rcases h with rfl | h
  · exact startCursor_nonneg ha
  · split at h
    · omega
    · rw [h.2]
      exact kidIndent_nonneg ha (startCursor_nonneg ha) _

theorem startCursor_stands (hf : cfg.outputFormat ≠ .crumb) :
    Stands cfg.outputFormat false (startCursor cfg).element (startPos cfg.outputFormat) := by
  cases hfm : cfg.outputFormat with
  | crumb => exact absurd hfm hf
  | json =>
    simp only [startCursor, startPos, hfm]
    exact ⟨.object, rfl, rfl, by simp⟩
  | text | xml =>
    simp only [startCursor, startPos, hfm]
    exact ⟨rfl, by decide, rfl⟩

theorem masterHeader_cursor (ha : 0 ≤ cfg.indentAmount) (hs : s.cursor = ⟨.none, 0⟩) :
    Sat Elsewhere (·.cursor = startCursor cfg) (masterHeader cfg s) := by
  obtain ⟨he, hi⟩ : s.currentElement = .none ∧ s.indent = 0 := by simpa [OutState.cursor] using hs
  simp only [masterHeader, commonAssert_ok ha, startCursor, bind, Except.bind]
  cases hf : cfg.outputFormat with
  | text | crumb => exact hs
  | json =>
    refine objectEvent_cursor ha (lit "\x7b") (fun _ => rfl) (fun _ => ?_) fun hj => absurd hf hj
    simp [hs, hf, Cursor.change, elementCell, jsonCell, Op.move]
  | xml => simp [incIndent, OutState.wappend, OutState.cursor, hi, he]

theorem Top.plain (hf : cfg.outputFormat = .text ∨ cfg.outputFormat = .crumb) {cur : Cursor}
    (h : Top cfg cur) : cur.indent = 0 := by
  rcases hf with hf | hf <;> rcases h with rfl | h <;>
    simp_all [startCursor, kidIndent, startPos]

theorem Top.xml (hf : cfg.outputFormat = .xml) {cur : Cursor} (h : Top cfg cur) :
    cur.indent = cfg.indentAmount := by
  rcases h with rfl | h <;> simp_all [startCursor, kidIndent, startPos]

theorem Top.json (hf : cfg.outputFormat = .json) {cur : Cursor} (h : Top cfg cur) :
    cur = ⟨.objectOpen, 0⟩ ∨ Stands .json false cur.element .after ∧ cur.indent = cfg.indentAmount := by
  rcases h with rfl | h <;> simp_all [startCursor, kidIndent, startPos]

/-- **The footer leaves no indent.** -/
theorem masterFooter_cursor (ha : 0 ≤ cfg.indentAmount) (hs : Top cfg s.cursor) :
    Sat Elsewhere (·.indent = 0) (masterFooter cfg s) := by
  simp only [masterFooter, commonAssert_ok ha]
  cases hf : cfg.outputFormat with
  | text => exact hs.plain (Or.inl hf)
  | crumb => exact hs.plain (Or.inr hf)
  | json =>
    have h : Sat Elsewhere (·.cursor = ⟨.objectClose, 0⟩) (objectClose cfg false s) := by
      refine objectEvent_cursor ha (lit "\x7d") (fun _ => rfl) (fun _ => ?_) fun hj => absurd hf hj
      rw [hf]
      rcases hs.json hf with h | ⟨hst, hi⟩
      · simp [h, Cursor.change, elementCell, jsonCell]
      · have hcell : elementCell .json s.cursor.element .objectClose = _ :=
          cell_close (g := .object) (by decide) (by simp) hst
        have hmove := move_close cfg.indentAmount (k := 0) (Int.le_refl 0)
        rw [Int.zero_add] at hmove
        simp only [Cursor.change, hcell, hi, hmove, Option.map_some]
    exact h.bind fun s' hs' => (congrArg Cursor.indent hs' :)
  | xml =>
    -- the indent of the header is the only one left
    have hi : s.indent = cfg.indentAmount := hs.xml hf
    have h : decIndent cfg (s.wappend [nl]) = .ok { s.wappend [nl] with indent := 0 } := by
      simp [decIndent, OutState.wappend, hi, ha]
    simp only [h, bind, Except.bind]
    rfl

/-! ## Display routines -/

theorem cursor_run_eraseObjects {fmt : OutputFormat} {amount : Int} (hf : fmt ≠ .json) (es : List Event)
    (cur : Cursor) : cur.run fmt amount es = cur.run fmt amount (eraseObjects es) := by
  induction es generalizing cur with
  | nil => rfl
  | cons e es ih =>
    by_cases he : e.isObject = true
    · have hstep : cur.step fmt amount e = some cur := by
        cases e <;> simp [Event.isObject] at he <;> simp [Cursor.step, Event.element, hf]
      rw [cursor_run_cons, hstep]
      simpa [eraseObjects, he] using ih cur
    · have herase : eraseObjects (e :: es) = e :: eraseObjects es := by simp [eraseObjects, he]
      rw [herase, cursor_run_cons, cursor_run_cons]
      cases cur.step fmt amount e with
      | none => rfl
      | some cur' => exact ih cur'

/-- In crumb format the indent does not move. -/
theorem cursor_run_crumb {amount : Int} (es : List Event) (cur : Cursor) :
    ∃ cur', cur.run .crumb amount es = some cur' ∧ cur'.indent = cur.indent := by
  induction es generalizing cur with
  | nil => exact ⟨cur, rfl, rfl⟩
  | cons e es ih =>
    have hstep : ∃ cur', cur.step .crumb amount e = some cur' ∧ cur'.indent = cur.indent := by
      unfold Cursor.step
      split
      · exact ⟨_, rfl, rfl⟩
      · exact ⟨cur, rfl, rfl⟩
    obtain ⟨cur₁, h₁, hi₁⟩ := hstep
    obtain ⟨cur', h', hi'⟩ := ih cur₁
    exact ⟨cur', by rw [cursor_run_cons, h₁]; exact h', by rw [hi', hi₁]⟩

/-- **A well-nested routine keeps the cursor between routines.** -/
theorem Top.calls (ha : 0 ≤ cfg.indentAmount) {cur : Cursor} (h : Top cfg cur) {es : List Event}
    (hes : WellNested cfg.outputFormat es) :
    ∃ cur', cur.run cfg.outputFormat cfg.indentAmount es = some cur' ∧ Top cfg cur' ∧
      (cfg.outputFormat = .json → es ≠ [] → Stands .json false cur'.element .after) := by
  by_cases hc : cfg.outputFormat = .crumb
  · have h0 := h.plain (Or.inr hc)
    rw [hc]
    obtain ⟨cur', h', hi'⟩ := cursor_run_crumb es cur
    exact ⟨cur', h', Or.inr (by rw [if_pos hc, hi', h0]), by simp⟩
  obtain ⟨calls, hfit, hev⟩ := hes
  have hrun : cur.run cfg.outputFormat cfg.indentAmount es =
      cur.run cfg.outputFormat cfg.indentAmount calls.events := by
    rw [← hev]
    split
    · rfl
    · exact cursor_run_eraseObjects ‹_› es cur
  rw [hrun]
  by_cases hnil : calls = .nil
  · subst hnil
    exact ⟨cur, rfl, h, fun hj hne => absurd (by simpa [hj, Calls.events] using hev) hne⟩
  have hafter := fun e => stands_after (fun _ => rfl) calls e hfit (Or.inl hnil)
  -- the first calls of the document stand where the header has left the cursor
  rcases h with rfl | h
  · refine ⟨_, cursor_calls ha hc calls _ (fun _ => rfl) hfit (startCursor_stands hc)
      (startCursor_nonneg ha), Or.inr ?_, fun hj _ => hj ▸ hafter _⟩
    rw [if_neg hc]
    exact ⟨hafter _, by cases calls <;> first | contradiction | rfl⟩
  · rw [if_neg hc] at h
    refine ⟨_, cursor_calls ha hc calls .after (fun _ => rfl) hfit h.1 ?_, Or.inr ?_, fun hj _ => hj ▸ hafter _⟩
    · rw [h.2]
      exact kidIndent_nonneg ha (startCursor_nonneg ha) _
    · rw [if_neg hc]
      exact ⟨hafter _, by rw [endIndent_after]; exact h.2⟩

/-! ## Runs -/

/-- What holds after a call of `main`: no negative indent, and none after the footer. -/
def IndentAfter (a : Action) (st : MainState) : Prop :=
  0 ≤ st.out.indent ∧ (a = .masterFooter → st.out.indent = 0)

/-- The indent is kept in a run of `main`'s calls. -/
abbrev Kept (host : Host) (as : List Action) (st : MainState) : Prop :=
  Always (act host) Elsewhere IndentAfter as st

theorem cursor_step_nonneg {fmt : OutputFormat} {amount : Int} (ha : 0 ≤ amount) {cur cur' : Cursor}
    (hcur : 0 ≤ cur.indent) {e : Event} (h : cur.step fmt amount e = some cur') : 0 ≤ cur'.indent := by
  -- `dec_indent` asserts that the indent stays non-negative, so a cell that runs keeps it so
  have hops : ∀ (ops : List Op) (k k' : Int), 0 ≤ k → ops.foldlM (Op.move amount) k = some k' → 0 ≤ k' := by
    intro ops
    induction ops with
    | nil =>
      intro k k' hk h
      obtain rfl : k = k' := by simpa using h
      exact hk
    | cons op ops ih =>
      intro k k' hk h
      rw [List.foldlM_cons] at h
      obtain ⟨k₁, h₁, h⟩ := Option.bind_eq_some_iff.1 h
      exact ih k₁ k' (by cases op <;> grind [Op.move]) h
  unfold Cursor.step at h
  split at h
  · obtain ⟨k, hk, rfl⟩ := Option.map_eq_some_iff.1 h
    exact hops _ _ _ hcur hk
  · simp only [Option.some.injEq] at h
    rw [← h]
    exact hcur

/-- A sequence of calls along a moving cursor. -/
theorem callActions_kept (ha : 0 ≤ st.settings.indentAmount) (hst : 0 ≤ st.out.indent) {es : List Event}
    (hes : st.settings.outputFormat = .json → ∀ e ∈ es, e.retains = false) {cur : Cursor}
    (h : st.out.cursor.run st.settings.outputFormat st.settings.indentAmount es = some cur) :
    Kept host (es.map .call) st ∧
      ∀ st', runActions host (es.map .call) st = .ok st' →
        st'.out.cursor = cur ∧ st' = { st with out := st'.out } := by
  induction es generalizing st with
  | nil =>
    refine ⟨trivial, fun st' h' => ?_⟩
    obtain rfl : st = st' := by simpa [runActions, pure, Except.pure] using h'
    exact ⟨by simpa [Cursor.run] using h, rfl⟩
  | cons e es ih =>
    rw [cursor_run_cons] at h
    obtain ⟨cur₁, h₁, h⟩ := Option.bind_eq_some_iff.1 h
    have hstep := step_cursor (s := st.out) (show 0 ≤ (host.config st.settings).indentAmount from ha)
      (fun hj => hes hj e List.mem_cons_self) h₁
    have hnn := cursor_step_nonneg ha hst h₁
    have hes' := fun hj e' he' => hes hj e' (List.mem_cons_of_mem _ he')
    cases hs : step (host.config st.settings) st.out e with
    | error x =>
      -- the call stops the run, and elsewhere than in `dec_indent`
      rw [hs] at hstep
      have hact : act host st (.call e) = .error x := by simp [act, hs, bind, Except.bind]
      refine ⟨by simpa [Always, hact] using hstep, fun st' h' => ?_⟩
      rw [List.map_cons, runActions_cons, hact] at h'
      simp [Except.bind] at h'
    | ok s' =>
      rw [hs] at hstep
      obtain rfl : s'.cursor = cur₁ := hstep
      have hact : act host st (.call e) = .ok { st with out := s' } := by
        simp [act, hs, bind, Except.bind, pure, Except.pure]
      obtain ⟨hkept, hrun⟩ := @ih { st with out := s' } ha hnn hes' h
      refine ⟨by simpa [Always, hact, IndentAfter] using ⟨hnn, hkept⟩, fun st' h' => ?_⟩
      rw [List.map_cons, runActions_cons, hact] at h'
      exact hrun st' h'

theorem events_retains (calls : Calls) : ∀ e ∈ calls.events, e.retains = false := by
  induction calls with
  | nil => simp [Calls.events]
  | entry name value next ih => simpa [Calls.events, Event.retains] using ih
  | group g kids next ihk ihn =>
    intro e he
    simp only [Calls.events, List.mem_cons, List.mem_append] at he
    rcases he with rfl | he | rfl | he
    · cases g <;> rfl
    · exact ihk e he
    · cases g <;> rfl
    · exact ihn e he

theorem WellNested.retains {es : List Event} (h : WellNested .json es) : ∀ e ∈ es, e.retains = false := by
  obtain ⟨calls, -, hev⟩ := h
  rw [if_pos rfl] at hev
  rw [hev]
  exact events_retains calls

/-- The state between two display routines of a run with the settings `c`. -/
structure Between (host : Host) (c : Settings) (st : MainState) : Prop where
  settings : st.settings = c
  top : Top (host.config c) st.out.cursor

/-- A routine is well nested. One that dies has made the first of well-nested calls. -/
def NestedRoutine (fmt : OutputFormat) : List Event × Option (String × List MbStr) → Prop
  | (es, none) => WellNested fmt es
  | (es, some _) => ∃ rest, WellNested fmt (es ++ rest)

section Routines

variable (ha : 0 ≤ c.indentAmount) (hnest : ∀ n r, NestedRoutine c.outputFormat (display n r))

include ha hnest

/-- **A display routine keeps the indent**, and stops between two routines. -/
theorem routine_kept (hst : Between host c st) (n : Nat) (r : Routine) :
    Kept host (routineActions display n r) st ∧
      ∀ st', runActions host (routineActions display n r) st = .ok st' →
        Between host c st' ∧ st'.done = st.done ∧
          ∃ es, display n r = (es, none) ∧ (es = [] → st'.out.cursor = st.out.cursor) ∧
            (c.outputFormat = .json → es ≠ [] → Stands .json false st'.out.currentElement .after) := by
  obtain ⟨rfl, htop⟩ := hst
  have hwell := hnest n r
  rcases hd : display n r with ⟨es, _ | ⟨fmt, args⟩⟩
  · -- the calls are those of a tree, and move the cursor as its text does
    rw [hd] at hwell
    rw [routineActions_returns hd]
    obtain ⟨cur, hrun, htop', hafter⟩ := htop.calls ha hwell
    obtain ⟨hkept, hres⟩ := callActions_kept ha (htop.nonneg ha)
      (fun hj => (hj ▸ hwell : WellNested .json es).retains) hrun
    refine ⟨hkept, fun st' h => ?_⟩
    obtain ⟨hcur, hst'⟩ := hres st' h
    refine ⟨⟨by rw [hst'], by rw [hcur]; exact htop'⟩, by rw [hst'], es, rfl, ?_, fun hj hne => ?_⟩
    · rintro rfl
      rw [hcur]
      simpa [Cursor.run] using hrun.symm
    · have := hafter hj hne
      rwa [← hcur] at this
  · -- the cursor moves along the calls before the message
    rw [hd] at hwell
    rw [routineActions_dies hd]
    obtain ⟨rest, hwell⟩ := hwell
    obtain ⟨cur, hrun, -, -⟩ := htop.calls ha hwell
    rw [cursor_run_append] at hrun
    obtain ⟨cur₁, hrun, -⟩ := Option.bind_eq_some_iff.1 hrun
    obtain ⟨hkept, -⟩ := callActions_kept ha (htop.nonneg ha)
      (fun hj e he => (hj ▸ hwell : WellNested .json (es ++ rest)).retains e (List.mem_append_left _ he)) hrun
    refine ⟨hkept.append fun st₁ _ => ?_, fun st' h => ?_⟩
    · simp [Always, act, Elsewhere]
    · obtain ⟨st₁, -, h⟩ := run_of_append h
      simp [runActions, act] at h

theorem dump_kept (hst : Between host c st) (rs : List Routine) (n : Nat) :
    Kept host (dumpCalls display n rs) st ∧
      ∀ st', runActions host (dumpCalls display n rs) st = .ok st' → Between host c st' := by
  induction rs generalizing st n with
  | nil =>
    refine ⟨trivial, fun st' h => ?_⟩
    obtain rfl : st = st' := by simpa [dumpCalls, runActions, pure, Except.pure] using h
    exact hst
  | cons r rs ih =>
    obtain ⟨hkept, hres⟩ := routine_kept ha hnest hst n r
    refine ⟨hkept.append fun st' h => (ih (hres st' h).1 (n + 1)).1, fun st' h => ?_⟩
    obtain ⟨t, hr, h⟩ := run_of_append h
    exact (ih (hres t hr).1 (n + 1)).2 st' h

end Routines

/-! ## Options, header and end -/

theorem resetIndent_eq (h : s.indent = 0) : resetIndent s = s := by
  cases s
  simp_all [resetIndent]

/-- The non-display options change the settings only. -/
theorem long_kept (hout : st.out.indent = 0) (hdone : st.done = false) {os : List LongOption}
    (h : os.foldlM (LongOption.set host.locale) st.settings = .ok c) :
    Kept host (os.map .long) st ∧
      ∃ b, runActions host (os.map .long) st = .ok { st with settings := c, reexec := b } := by
  induction os generalizing st with
  | nil =>
    obtain rfl : st.settings = c := by simpa [pure, Except.pure] using h
    exact ⟨trivial, st.reexec, rfl⟩
  | cons o os ih =>
    rw [List.foldlM_cons] at h
    cases ho : o.set host.locale st.settings with
    | error e => simp [ho, bind, Except.bind] at h
    | ok c₁ =>
      rw [ho] at h
      have hact : act host st (.long o) =
          .ok { st with settings := c₁, reexec := st.reexec || o = .exec } := by
        simp [act, hdone, ho, bind, Except.bind, pure, Except.pure, resetIndent_eq hout]
      obtain ⟨hkept, b, hrun⟩ := @ih { st with settings := c₁, reexec := st.reexec || o = .exec }
        hout hdone h
      refine ⟨by simpa [Always, hact, IndentAfter, hout] using hkept, b, ?_⟩
      rw [List.map_cons, runActions_cons, hact]
      exact hrun

/-- `--exec` resets the indent. -/
theorem execs_kept (hst : 0 ≤ st.out.indent) (n : Nat) :
    Kept host (List.replicate n (.long .exec)) st ∧
      runActions host (List.replicate n (.long .exec)) st =
        .ok (if n = 0 then st else { st with reexec := true, out := resetIndent st.out }) := by
  induction n generalizing st with
  | zero => exact ⟨trivial, rfl⟩
  | succ n ih =>
    have hact : act host st (.long .exec) = .ok { st with reexec := true, out := resetIndent st.out } := by
      simp [act, LongOption.set, bind, Except.bind, pure, Except.pure]
    obtain ⟨hkept, hrun⟩ := @ih { st with reexec := true, out := resetIndent st.out } (Int.le_refl 0)
    refine ⟨by simpa [List.replicate_succ, Always, hact, IndentAfter, resetIndent] using hkept, ?_⟩
    rw [List.replicate_succ, runActions_cons, hact]
    simp only [Except.bind, hrun]
    split <;> rfl

theorem chomp_elsewhere (u : WChar) (t : WStr) : Sat Elsewhere (fun _ => True) (pstringChomp u t) := by
  have hscan : ∀ rev n, Sat Elsewhere (fun _ => True) (chompScan u rev n) := by
    intro rev
    induction rev with
    | nil => intro n; simp [chompScan, Elsewhere]
    | cons x rev ih =>
      intro n
      unfold chompScan
      split
      · exact ih _
      · trivial
  unfold pstringChomp
  split
  · trivial
  · refine (hscan _ _).bind fun n _ => ?_
    split <;> trivial

theorem compress_elsewhere (u : WChar) (t : WStr) : Sat Elsewhere (fun _ => True) (pstringCompress u t) := by
  have hloop : ∀ fuel src out count blanks,
      Sat Elsewhere (fun _ => True) (compressLoop u fuel src out count blanks) := by
    intro fuel
    induction fuel with
    | zero => intros; simp [compressLoop, Elsewhere]
    | succ fuel ih =>
      intro src out count blanks
      cases src with
      | nil => trivial
      | cons x src =>
        unfold compressLoop
        split
        · exact ih _ _ _ _
        · exact ih _ _ _ _
        · simp [Elsewhere]
  unfold pstringCompress
  refine (hloop _ _ _ _ _).bind fun r _ => ?_
  dsimp only
  split
  · split
    · simp [Elsewhere]
    · trivial
  · trivial

/-- The calls after the footer do not touch the indent. -/
theorem finish_kept {as : List Action} (has : ∀ a ∈ as, a = .chomp ∨ a = .compress ∨ a = .checkExec)
    (hst : st.out.indent = 0) : Kept host as st := by
  induction as generalizing st with
  | nil => trivial
  | cons a as ih =>
    have hact : Sat Elsewhere (·.out.indent = 0) (act host st a) := by
      rcases has a List.mem_cons_self with rfl | rfl | rfl
      · exact (chomp_elsewhere _ _).bind fun _ _ => hst
      · exact (compress_elsewhere _ _).bind fun _ _ => hst
      · simp only [act]
        split
        · simp [Elsewhere]
        · split <;> exact hst
    refine hact.mono fun st' hst' => ⟨⟨by omega, fun _ => hst'⟩, ?_⟩
    exact ih (fun b hb => has b (List.mem_cons_of_mem _ hb)) hst'

theorem header_kept (ha : 0 ≤ c.indentAmount) (hset : st.settings = c) (hst : st.out.cursor = ⟨.none, 0⟩) :
    Kept host [.masterHeader] st ∧
      ∀ st', runActions host [.masterHeader] st = .ok st' →
        Between host c st' ∧ st'.done = st.done ∧ st'.out.cursor = startCursor (host.config c) := by
  subst hset
  have h := masterHeader_cursor (s := st.out) (show 0 ≤ (host.config st.settings).indentAmount from ha) hst
  cases hs : masterHeader (host.config st.settings) st.out with
  | error e =>
    rw [hs] at h
    have hact : act host st .masterHeader = .error e := by simp [act, hs, bind, Except.bind]
    refine ⟨by simpa [Always, hact] using h, fun st' h' => ?_⟩
    rw [runActions_cons, hact] at h'
    simp [Except.bind] at h'
  | ok s' =>
    rw [hs] at h
    have hcur : s'.cursor = startCursor (host.config st.settings) := h
    have hact : act host st .masterHeader = .ok { st with out := s' } := by
      simp [act, hs, bind, Except.bind, pure, Except.pure]
    have hnn : 0 ≤ s'.indent := by
      have := startCursor_nonneg (show 0 ≤ (host.config st.settings).indentAmount from ha)
      rwa [← hcur] at this
    refine ⟨by simpa [Always, hact, IndentAfter] using hnn, fun st' h' => ?_⟩
    rw [runActions_cons, hact] at h'
    obtain rfl : { st with out := s' } = st' := by simpa [Except.bind, runActions, pure, Except.pure] using h'
    exact ⟨⟨rfl, Or.inl hcur⟩, rfl, hcur⟩

theorem footer_kept (ha : 0 ≤ c.indentAmount) (hst : Between host c st) {as : List Action}
    (has : ∀ a ∈ as, a = .chomp ∨ a = .compress ∨ a = .checkExec) :
    Kept host (.masterFooter :: as) st := by
  obtain ⟨rfl, htop⟩ := hst
  have h := masterFooter_cursor (s := st.out) ha htop
  exact h.bind fun s' hs' => ⟨⟨Int.le_of_eq hs'.symm, fun _ => hs'⟩, finish_kept has hs'⟩

/-! ## Whole runs -/

/-- The option sequences of the manual page: non-display options, then at most one display option, and
`--exec` anywhere, also after the display option. -/
def optionSequence (os : List LongOption) (shown : Option Opt) (n : Nat) : List Opt :=
  os.map .long ++
    match shown with
    | none => []
    | some o => o :: List.replicate n (.long .exec)

/-- What the display option emits, if its routine does not die. -/
def shownEvents (display : Display) : Opt → List Event
  | .display r =>
    match display 0 r with
    | (es, none) => es
    | (_, some _) => []
  | _ => []

/-- No `--exec` resets an indent that the footer takes back: there is none after the display option,
the format is text or crumb, or the document is an empty JSON object. -/
def ExecHarmless (display : Display) (fmt : OutputFormat) (shown : Option Opt) (n : Nat) : Prop :=
  n = 0 ∨ fmt = .text ∨ fmt = .crumb ∨ ∀ o ∈ shown, fmt = .json ∧ shownEvents display o = []

/-- The footer takes back the indent that the header leaves. After a display routine that is so if
`--exec` does not reset it. After the help text the footer takes nothing back, and only `--exec` takes
back the indent of an XML header. -/
def IndentMatched (display : Display) (fmt : OutputFormat) (shown : Option Opt) (n : Nat) : Prop :=
  if shown = some .help then fmt = .xml → n ≠ 0 else ExecHarmless display fmt shown n

/-- The calls of the display option. -/
def shownActions (display : Display) : Opt → List Action
  | .display r => routineActions display 0 r
  | .help => [.usage]
  | _ => []

theorem loopActions_execs (k n : Nat) :
    loopActions display k (List.replicate n (.long .exec)) = List.replicate n (.long .exec) := by
  have h : loopActions display k ((List.replicate n .exec).map .long ++ []) = _ := loopActions_long _ [] k
  simpa [loopActions] using h

theorem loopActions_shown {o : Opt} (ho : o.isDisplay = true ∧ o ≠ .invalid) (n : Nat) :
    loopActions display 0 (o :: List.replicate n (.long .exec)) =
      .setDone :: ([.masterHeader] ++ (shownActions display o ++ List.replicate n (.long .exec))) := by
  cases o with
  | long o => simp [Opt.isDisplay] at ho
  | invalid => simp at ho
  | help => simp [loopActions, shownActions, loopActions_execs]
  | display r => simp [loopActions, shownActions, loopActions_execs]

/-- The loop from the display option on: the header, the calls of the option, and `--exec`. -/
theorem loop_header (ha : 0 ≤ c.indentAmount) (hset : st.settings = c) (hout : st.out.cursor = ⟨.none, 0⟩)
    {as : List Action} {P : MainState → Prop}
    (has : ∀ st₁, Between host c st₁ → st₁.out.cursor = startCursor (host.config c) →
      Kept host as st₁ ∧ ∀ st₂, runActions host as st₁ = .ok st₂ → P st₂ ∧ 0 ≤ st₂.out.indent) (n : Nat) :
    Kept host (.setDone :: ([.masterHeader] ++ (as ++ List.replicate n (.long .exec)))) st ∧
      ∀ st', runActions host (.setDone :: ([.masterHeader] ++ (as ++ List.replicate n (.long .exec)))) st =
        .ok st' →
        ∃ st₁, runActions host ([.masterHeader] ++ as) { st with done := true } = .ok st₁ ∧ P st₁ ∧
          st' = if n = 0 then st₁ else { st₁ with reexec := true, out := resetIndent st₁.out } := by
  have hactd : act host st .setDone = .ok { st with done := true } := rfl
  obtain ⟨hk₁, hr₁⟩ := header_kept ha (show ({ st with done := true } : MainState).settings = c from hset) hout
  have hnn : 0 ≤ st.out.indent := Int.le_of_eq (congrArg Cursor.indent hout).symm
  constructor
  · refine ⟨⟨hnn, by simp⟩, hk₁.append fun st₁ h₁ => ?_⟩
    obtain ⟨hb₁, -, hcur₁⟩ := hr₁ st₁ h₁
    obtain ⟨hk₂, hr₂⟩ := has st₁ hb₁ hcur₁
    exact hk₂.append fun st₂ h₂ => (execs_kept (hr₂ st₂ h₂).2 n).1
  · -- the run in its three parts: the header, the calls of the option, and `--exec`
    intro st' h
    rw [runActions_cons, hactd] at h
    obtain ⟨st₁, h₁, h⟩ := run_of_append h
    obtain ⟨hb₁, -, hcur₁⟩ := hr₁ st₁ h₁
    obtain ⟨st₂, h₂, h⟩ := run_of_append h
    obtain ⟨hP, hnn₂⟩ := (has st₁ hb₁ hcur₁).2 st₂ h₂
    rw [(execs_kept hnn₂ n).2] at h
    refine ⟨st₂, ?_, hP, (Except.ok.inj h).symm⟩
    rw [runActions_append, h₁]
    exact h₂

/-- The state after the option loop of a sequence with a display routine. -/
theorem loop_shown (ha : 0 ≤ c.indentAmount)
    (hnest : ∀ n r, NestedRoutine c.outputFormat (display n r)) (hset : st.settings = c)
    (hout : st.out.cursor = ⟨.none, 0⟩) (r : Routine) (n : Nat) :
    Kept host (loopActions display 0 (.display r :: List.replicate n (.long .exec))) st ∧
      ∀ st', runActions host (loopActions display 0 (.display r :: List.replicate n (.long .exec))) st = .ok st' →
        ∃ st₁, runActions host ([.masterHeader] ++ routineActions display 0 r)
          { st with done := true } = .ok st₁ ∧
          (Between host c st₁ ∧
            (shownEvents display (.display r) = [] → st₁.out.cursor = startCursor (host.config c)) ∧
            (c.outputFormat = .json → shownEvents display (.display r) ≠ [] →
              Stands .json false st₁.out.currentElement .after)) ∧
          st' = if n = 0 then st₁ else { st₁ with reexec := true, out := resetIndent st₁.out } := by
  rw [loopActions_shown (by simp [Opt.isDisplay])]
  refine loop_header ha hset hout (fun st₁ hb₁ hcur₁ => ?_) n
  obtain ⟨hkept, hres⟩ := routine_kept ha hnest hb₁ 0 r
  refine ⟨hkept, fun st₂ h => ?_⟩
  obtain ⟨hbet, -, es, hd, hnil, hafter⟩ := hres st₂ h
  refine ⟨⟨hbet, fun he => ?_, fun hj he => hafter hj ?_⟩, hbet.top.nonneg ha⟩
  · rw [← hcur₁]
    exact hnil (by simpa [shownEvents, hd] using he)
  · simpa [shownEvents, hd] using he

/-- The settings after the help text. -/
def Settings.noIndent (c : Settings) : Settings := { c with indentAmount := 0 }

/-- The state after the option loop of a sequence with the help text. -/
theorem loop_help (ha : 0 ≤ c.indentAmount) (hset : st.settings = c)
    (hout : st.out.cursor = ⟨.none, 0⟩) (n : Nat) :
    Kept host (loopActions display 0 (.help :: List.replicate n (.long .exec))) st ∧
      ∀ st', runActions host (loopActions display 0 (.help :: List.replicate n (.long .exec))) st = .ok st' →
        ∃ st₁, runActions host ([.masterHeader] ++ [.usage]) { st with done := true } = .ok st₁ ∧
          (st₁.settings = c.noIndent ∧ st₁.out.cursor = startCursor (host.config c)) ∧
          st' = if n = 0 then st₁ else { st₁ with reexec := true, out := resetIndent st₁.out } := by
  rw [loopActions_shown (by simp [Opt.isDisplay])]
  refine loop_header ha hset hout (fun st₁ hb₁ hcur₁ => ?_) n
  have hnn := hb₁.top.nonneg ha
  refine ⟨⟨⟨hnn, by simp⟩, trivial⟩, fun st₂ h => ?_⟩
  obtain rfl : { st₁ with settings := st₁.settings.noIndent } = st₂ := Except.ok.inj h
  exact ⟨⟨by rw [hb₁.settings], hcur₁⟩, hnn⟩

/-- The calls after an option loop without display option. -/
theorem end_dump_kept (ha : 0 ≤ c.indentAmount)
    (hnest : ∀ n r, NestedRoutine c.outputFormat (display n r)) (hset : st.settings = c)
    (hout : st.out.cursor = ⟨.none, 0⟩) (fmt : OutputFormat) :
    Kept host (endActions display false fmt) st := by
  have hexec : Sat Elsewhere (fun st' => st'.settings = c ∧ st'.out.cursor = ⟨.none, 0⟩)
      (act host st .checkExec) := by
    simp only [act]
    split
    · simp [Elsewhere]
    · split <;> exact ⟨hset, hout⟩
  refine hexec.mono ?_
  rintro st₁ ⟨hset₁, hout₁⟩
  have h0 : st₁.out.indent = 0 := congrArg Cursor.indent hout₁
  obtain ⟨hk, hr⟩ := header_kept ha hset₁ hout₁
  refine ⟨⟨Int.le_of_eq h0.symm, by simp⟩, ?_⟩
  have hshape : dumpActions display ++ [.chomp, .compress] =
      [.masterHeader] ++ (dumpCalls display 0 dumpRoutines ++ [.masterFooter, .chomp, .compress]) := by
    simp [dumpActions]
  show Kept host (dumpActions display ++ [.chomp, .compress]) st₁
  rw [hshape]
  refine hk.append fun st₂ h₂ => ?_
  obtain ⟨hkd, hrd⟩ := dump_kept ha hnest (hr st₂ h₂).1 dumpRoutines 0
  exact hkd.append fun st₃ h₃ => footer_kept ha (hrd st₃ h₃) (by simp)

/-- The calls after an option loop with a display option. -/
theorem end_shown_kept (ha : 0 ≤ c.indentAmount) (hst : Between host c st) (fmt : OutputFormat) :
    Kept host (endActions display true fmt) st := by
  have hshape : endActions display true fmt =
    .masterFooter :: (.chomp :: compressActions fmt ++ [.checkExec]) := by
    simp [endActions]
  rw [hshape]
  refine footer_kept ha hst fun a h => ?_
  cases fmt <;> simp [compressActions] at h <;> grind

/-- A footer that has to take back an indent that `--exec` has reset. -/
theorem masterFooter_fails {cfg : Config} {s : OutState} (ha : 0 < cfg.indentAmount) (hs : s.indent = 0)
    (hf : cfg.outputFormat = .xml ∨ cfg.outputFormat = .json ∧ Stands .json false s.currentElement .after) :
    masterFooter cfg s = .error (.assertFailed "dec_indent") := by
  have ha' : 0 ≤ cfg.indentAmount := by omega
  have hlt : ¬ cfg.indentAmount ≤ 0 := by omega
  rcases hf with hf | ⟨hf, hst⟩
  · simp [masterFooter, commonAssert_ok ha', hf, decIndent, OutState.wappend, hs, hlt, bind, Except.bind]
  · have hcell : elementCell .json s.currentElement .objectClose = _ :=
      cell_close (g := .object) (by decide) (by simp) hst
    simp [masterFooter, commonAssert_ok ha', hf, objectClose, objectEvent, changeElement_eq ha', hcell, runOps,
      Op.run, decIndent, OutState.wappend, hs, hlt, bind, Except.bind]

/-- The indent is kept over a run of `main`: in every state of the run it is not negative, `dec_indent`
never fails, and there is no indent after the footer. -/
def IndentKept (host : Host) (display : Display) (opts : List Opt) (fmt : OutputFormat) (st : MainState) :
    Prop :=
  ∀ p a, p ++ [a] <+: mainActions display opts fmt →
    Sat Elsewhere (fun st' => 0 ≤ st'.out.indent ∧ (a = .masterFooter → st'.out.indent = 0))
      (runActions host (p ++ [a]) st)

/-- The run goes on after its option loop with the footer. -/
theorem footer_next {opts : List Opt} (hany : opts.any Opt.isDisplay = true) (fmt : OutputFormat) :
    loopActions display 0 opts ++ [.masterFooter] <+: mainActions display opts fmt := by
  rw [mainActions, hany]
  exact (List.prefix_append_right_inj _).2 ⟨_, rfl⟩

section Whole

variable (hcur : st.out.cursor = ⟨.none, 0⟩) (hset : st.settings = c) (ha : 0 < c.indentAmount)

include hcur hset ha

/-- The indent is kept with the help text, unless it leaves the indent of an XML header. -/
theorem help_kept {n : Nat} (h : c.outputFormat = .xml → n ≠ 0) (fmt : OutputFormat) :
    Kept host (loopActions display 0 (.help :: List.replicate n (.long .exec)) ++ endActions display true fmt)
      st := by
  obtain ⟨hk, hr⟩ := loop_help (Int.le_of_lt ha) hset hcur n
  refine hk.append fun st' h' => end_shown_kept (c := c.noIndent) (Int.le_refl 0) ?_ fmt
  obtain ⟨st₁, -, ⟨hset₁, hcur₁⟩, rfl⟩ := hr st' h'
  -- the indent is that of a header with the amount 0
  have hout : ∀ s : OutState, s.currentElement = (startCursor (host.config c)).element → s.indent = 0 →
      Top (host.config c.noIndent) s.cursor := by
    intro s he hi
    have hstart : startCursor (host.config c.noIndent) = ⟨(startCursor (host.config c)).element, 0⟩ := by
      unfold startCursor
      cases hf : c.outputFormat <;> simp [Host.config, Settings.noIndent, hf]
    exact Or.inl (by rw [hstart, OutState.cursor, he, hi])
  have he : st₁.out.currentElement = (startCursor (host.config c)).element := congrArg Cursor.element hcur₁
  split
  · rename_i hn
    refine ⟨hset₁, hout _ he ?_⟩
    rw [show st₁.out.indent = _ from congrArg Cursor.indent hcur₁]
    unfold startCursor
    cases hf : c.outputFormat with
    | xml => exact absurd hn (h hf)
    | text | json | crumb => simp [Host.config, hf]
  · exact ⟨hset₁, hout _ he rfl⟩

/-- The help text of an XML document leaves the indent of the header. -/
theorem help_unmatched {opts : List Opt} {st₀ : MainState} (hf : c.outputFormat = .xml)
    (hopts : runActions host (loopActions display 0 opts) st₀ =
      runActions host (loopActions display 0 [.help]) st) (hany : opts.any Opt.isDisplay = true)
    (hloop : ∃ st', runActions host (loopActions display 0 opts) st₀ = .ok st') :
    ¬ IndentKept host display opts c.outputFormat st₀ := by
  intro hkept
  obtain ⟨st', hloop⟩ := hloop
  obtain ⟨st₁, -, ⟨hset₁, hcur₁⟩, hst'⟩ :=
    (loop_help (Int.le_of_lt ha) hset hcur 0).2 st' (hopts ▸ hloop)
  rw [hst', if_pos rfl] at hloop
  have hi : st₁.out.indent = c.indentAmount := by
    rw [show st₁.out.indent = _ from congrArg Cursor.indent hcur₁]
    simp [startCursor, Host.config, hf]
  have hbad := hkept _ _ (footer_next hany _)
  have hnn : 0 ≤ c.indentAmount := Int.le_of_lt ha
  rw [runActions_append, hloop] at hbad
  simp [Except.bind, runActions, act, hset₁, Settings.noIndent, Host.config, masterFooter,
    commonAssert, hf, decIndent, OutState.wappend, hi, hnn, bind, pure, Except.pure] at hbad
  omega

variable (hnest : ∀ n r, NestedRoutine c.outputFormat (display n r))

include hnest

/-- The indent is kept with a display routine, if no `--exec` resets what the footer takes back. -/
theorem display_kept {r : Routine} {n : Nat} (hharm : ExecHarmless display c.outputFormat (some (.display r)) n)
    (fmt : OutputFormat) :
    Kept host (loopActions display 0 (.display r :: List.replicate n (.long .exec)) ++
      endActions display true fmt)
      st := by
  have ha' : 0 ≤ c.indentAmount := Int.le_of_lt ha
  obtain ⟨hk₁, hr₁⟩ := loop_shown ha' hnest hset hcur r n
  refine hk₁.append fun st₁ h₁ => end_shown_kept ha' ?_ _
  obtain ⟨st₂, -, ⟨hb₂, hnil, -⟩, rfl⟩ := hr₁ st₁ h₁
  split
  · exact hb₂
  · -- the indent that `--exec` resets is zero
    rename_i hn
    have h0 : st₂.out.indent = 0 := by
      rcases hharm with h | h | h | h
      · exact absurd h hn
      · exact hb₂.top.plain (Or.inl h)
      · exact hb₂.top.plain (Or.inr h)
      · have hstart : (startCursor (host.config c)).indent = 0 := by
          simp [startCursor, Host.config, (h _ rfl).1]
        rw [← hstart, ← hnil (h _ rfl).2]
        rfl
    exact ⟨hb₂.settings, by rw [resetIndent_eq h0]; exact hb₂.top⟩

/-- A footer that has to take back what `--exec` has reset fails. -/
theorem display_unmatched {opts : List Opt} {st₀ : MainState} {r : Routine} {n : Nat}
    (hharm : ¬ ExecHarmless display c.outputFormat (some (.display r)) n)
    (hopts : runActions host (loopActions display 0 opts) st₀ =
      runActions host (loopActions display 0 (.display r :: List.replicate n (.long .exec))) st)
    (hany : opts.any Opt.isDisplay = true)
    (hloop : ∃ st', runActions host (loopActions display 0 opts) st₀ = .ok st') :
    ¬ IndentKept host display opts c.outputFormat st₀ := by
  intro hkept
  obtain ⟨st', hloop⟩ := hloop
  simp only [ExecHarmless, not_or, not_forall] at hharm
  obtain ⟨hn, htext, hcrumb, o, ho, hempty⟩ := hharm
  obtain rfl : .display r = o := by simpa using ho
  -- the loop ends with the indent reset
  obtain ⟨st₂, -, ⟨hb₂, -, hafter⟩, rfl⟩ :=
    (loop_shown (Int.le_of_lt ha) hnest hset hcur r n).2 st' (hopts ▸ hloop)
  rw [if_neg hn] at hloop
  have hform : c.outputFormat = .xml ∨
      c.outputFormat = .json ∧ Stands .json false st₂.out.currentElement .after := by
    cases hf : c.outputFormat with
    | text => exact absurd hf htext
    | crumb => exact absurd hf hcrumb
    | xml => exact Or.inl rfl
    | json => exact Or.inr ⟨rfl, hafter hf fun he => hempty ⟨hf, he⟩⟩
  have hfail : act host { st₂ with reexec := true, out := resetIndent st₂.out } .masterFooter =
      .error (.assertFailed "dec_indent") := by
    have h := masterFooter_fails (s := resetIndent st₂.out)
      (show 0 < (host.config c).indentAmount from ha) rfl hform
    simp [act, hb₂.settings, h, bind, Except.bind]
  have hbad := hkept _ _ (footer_next hany _)
  rw [runActions_append, hloop] at hbad
  simp [Except.bind, runActions, hfail, Elsewhere] at hbad

end Whole

/-- **The indent is kept exactly if the footer takes back the indent of the header.** -/
theorem main_indent (hout : st.out = {}) (hdone : st.done = false) {os : List LongOption}
    (hos : os.foldlM (LongOption.set host.locale) st.settings = .ok c) (ha : 0 < c.indentAmount)
    (hnest : ∀ n r, NestedRoutine c.outputFormat (display n r)) (shown : Option Opt)
    (hshown : ∀ o ∈ shown, o.isDisplay = true ∧ o ≠ .invalid) (n : Nat) :
    (IndentMatched display c.outputFormat shown n →
      IndentKept host display (optionSequence os shown n) c.outputFormat st) ∧
    ((∃ st', runActions host (loopActions display 0 (optionSequence os shown n)) st = .ok st') →
      IndentKept host display (optionSequence os shown n) c.outputFormat st →
      IndentMatched display c.outputFormat shown n) := by
  -- the non-display options leave the cursor where it was
  obtain ⟨hk₀, b, hr₀⟩ := long_kept (by rw [hout]) hdone hos
  have hcur : ({ st with settings := c, reexec := b } : MainState).out.cursor = ⟨.none, 0⟩ := by
    rw [hout]; rfl
  have hany : ∀ o ∈ shown, (optionSequence os shown n).any Opt.isDisplay = true := by
    rintro o rfl
    simp [optionSequence, hshown o rfl]
  have hloop : runActions host (loopActions display 0 (optionSequence os shown n)) st =
      runActions host (loopActions display 0 (optionSequence [] shown n))
        { st with settings := c, reexec := b } := by
    unfold optionSequence
    rw [loopActions_long, runActions_append, hr₀]
    rfl
  constructor
  · intro hmatch
    refine always_iff.1 ?_
    unfold mainActions
    rw [show loopActions display 0 (optionSequence os shown n) = _ from loopActions_long os _ 0,
      List.append_assoc]
    refine Always.append hk₀ fun st₀ h₀ => ?_
    obtain rfl : st₀ = { st with settings := c, reexec := b } := Except.ok.inj (h₀.symm.trans hr₀)
    cases shown with
    | none =>
      have hno : (optionSequence os none n).any Opt.isDisplay = false := by
        simp [optionSequence, List.any_eq_false, Opt.isDisplay]
      rw [hno]
      exact end_dump_kept (Int.le_of_lt ha) hnest rfl hcur c.outputFormat
    | some o =>
      cases o with
      | display r =>
        rw [hany _ rfl]
        exact display_kept hcur rfl ha hnest (by simpa [IndentMatched] using hmatch) _
      | help =>
        rw [hany _ rfl]
        exact help_kept hcur rfl ha (by simpa [IndentMatched] using hmatch) _
      | long o => simp [Opt.isDisplay] at hshown
      | invalid => simp at hshown
  · intro hrun hkept
    by_contra hmatch
    cases shown with
    | none => simp [IndentMatched, ExecHarmless] at hmatch
    | some o =>
      cases o with
      | display r =>
        exact display_unmatched hcur rfl ha hnest (by simpa [IndentMatched] using hmatch) hloop
          (hany _ rfl) hrun hkept
      | help =>
        obtain ⟨hf, rfl⟩ : c.outputFormat = .xml ∧ n = 0 := by simpa [IndentMatched] using hmatch
        exact help_unmatched hcur rfl ha hf hloop (hany _ rfl) hrun hkept
      | long o => simp [Opt.isDisplay] at hshown
      | invalid => simp at hshown

/-- The section of `show_version`, with two of its entries. -/
def versionCalls : Calls :=
  .group (.sect (bytes "version"))
    (.entry (bytes "name") (lit "procenv") (.entry (bytes "version") (lit "0.60") .nil)) .nil

/-- `--version --exec` in text format: the indent is kept. -/
theorem main_indent_version :
    IndentKept { locale := posixLocale, operands := [bytes "echo"] } (fun _ _ => (versionCalls.events, none))
      (optionSequence [.output (bytes "stdout")] (some (.display .showVersion)) 1) .text {} := by
  have hnest : NestedRoutine .text (versionCalls.events, none) := ⟨versionCalls, by decide, by decide⟩
  refine (main_indent (c := {}) rfl rfl (by decide) (by decide) (fun _ _ => ?_) (some (.display .showVersion))
    (by simp [Opt.isDisplay]) 1).1 (by simp [IndentMatched, ExecHarmless])
  exact hnest

/-- `--format=xml --version --exec`: the loop accepts the options, and the footer fails in
`dec_indent`. -/
theorem main_indent_exec :
    let host : Host := { locale := posixLocale, operands := [bytes "echo"] }
    let display : Display := fun _ _ => (versionCalls.events, none)
    let opts := optionSequence [.format (bytes "xml")] (some (.display .showVersion)) 1
    (∃ st', runActions host (loopActions display 0 opts) {} = .ok st') ∧
      runMain host display opts {} = .error (.assertFailed "dec_indent") ∧
      ¬ IndentKept host display opts .xml {} := by
  intro host display opts
  have hfail : runActions host (loopActions display 0 opts ++ [.masterFooter]) {} =
      .error (.assertFailed "dec_indent") := error_of_failure (by decide +kernel)
  refine ⟨ok_of_failure (by decide +kernel), error_of_failure (by decide +kernel), fun h => ?_⟩
  have hbad := h (loopActions display 0 opts) .masterFooter ⟨_, rfl⟩
  rw [hfail] at hbad
  simp [Elsewhere] at hbad

end Procenv
