import Procenv.Model.MainMemory
import Procenv.Proof.Document
import Procenv.Proof.InPlace

/-!
# The memory of a run of `main`

A run on the document's buffer and the run on its text go through the same calls. As long
as the document is written the states are related by `Writes`, after the footer by `Chomped`
and at the end by `Shows`: then `doc` points to a buffer with the text and its terminator.

* `act_writes`, `run_writes`: one call, and a sequence of calls.
* `end_shows`: the footer, `pstring_chomp` and `pstring_compress`.
* `main_memory`: **every run of `main` stops on the buffer where it stops on the text, and
  for the same reason, or leaves the buffer of the text**.
-/

namespace Procenv.Document

open Text Outcome

variable {host : Host} {print : WStr → Vswprintf} {m m' : MainMemory} {st st' : MainState} {display : Display}
  {cfg cfg' : Config} {s : DocState} {o o' : OutState}

/-! ## The states -/

/-- Both states are the same but for the document. -/
structure Flags (m : MainMemory) (st : MainState) : Prop where
  settings : m.settings = st.settings
  done : m.done = st.done
  reexec : m.reexec = st.reexec
  execArgs : m.execArgs = st.execArgs

/-- The document is being written. -/
structure Writes (host : Host) (m : MainMemory) (st : MainState) : Prop extends Flags m st where
  coherent : Coherent host.locale st.settings
  tracks : Tracks (host.config st.settings) m.out st.out

/-- The document is chomped. -/
structure Chomped (m : MainMemory) (st : MainState) : Prop extends Flags m st where
  doc : ∃ d, m.out.doc = some d ∧ d.Holds st.out.doc ∧ d.buf ≠ []
  ended : Ended st.settings.wideIndentChar st.out.doc
  nonzero : st.settings.wideIndentChar ≠ 0

/-- The document is the text. -/
structure Shows (m : MainMemory) (st : MainState) : Prop extends Flags m st where
  doc : ∃ d, m.out.doc = some d ∧ d.content = some st.out.doc

/-! ## Calls of the output functions -/

theorem library_config (h : CLibrary (host.config {}) print) (c : Settings) : CLibrary (host.config c) print :=
  ⟨h.expansion, h.noZero, h.blank⟩

/-- Every call that writes first asserts that the indent amount is not negative. -/
theorem runCall_negative (ha : ¬ 0 ≤ cfg.indentAmount) {call : DocCall} (hcall : call ≠ .resetIndent) :
    runCall cfg print s call = .error ⟨.assertFailed "common_assert", s⟩ ∧
      call.onText cfg o = .error (.assertFailed "common_assert") := by
  have hassert : commonAssert cfg = .error (.assertFailed "common_assert") := if_neg ha
  have hkeep : s.keep (commonAssert cfg) = .error ⟨.assertFailed "common_assert", s⟩ := by
    rw [hassert]
    rfl
  cases call with
  | resetIndent => exact absurd rfl hcall
  | masterHeader =>
    rw [runCall, masterHeader, DocCall.onText, Procenv.masterHeader, hkeep, hassert]
    exact ⟨rfl, rfl⟩
  | masterFooter =>
    rw [runCall, masterFooter, DocCall.onText, Procenv.masterFooter, hkeep, hassert]
    exact ⟨rfl, rfl⟩
  | event e =>
    cases e with
    | entry name value =>
      rw [runCall, step, entry, DocCall.onText, Procenv.step, Procenv.entry, hkeep, hassert]
      exact ⟨rfl, rfl⟩
    | sectionOpen name | containerOpen name =>
      simp only [runCall, step, sectionOpen, containerOpen, groupOpen, hkeep, DocCall.onText, Procenv.step,
        Procenv.sectionOpen, Procenv.containerOpen, Procenv.groupOpen]
      rw [hassert]
      exact ⟨rfl, rfl⟩
    | sectionClose | containerClose =>
      simp only [runCall, step, sectionClose, containerClose, groupClose, hkeep, DocCall.onText, Procenv.step,
        Procenv.sectionClose, Procenv.containerClose, Procenv.groupClose]
      rw [hassert]
      exact ⟨rfl, rfl⟩
    | objectOpen retain | objectClose retain =>
      simp only [runCall, step, objectOpen, objectClose, objectEvent, hkeep, DocCall.onText, Procenv.step,
        Procenv.objectOpen, Procenv.objectClose, Procenv.objectEvent]
      rw [hassert]
      exact ⟨rfl, rfl⟩

/-- A call does on the buffer what it does on the text, whatever the indent amount is. -/
theorem call_refines (hlib : CLibrary cfg print) (hc : Coherent cfg.locale cfg.toSettings) (h : Tracks cfg s o)
    {call : DocCall} (hcall : call ≠ .resetIndent)
    (hv : ∀ name value, call = .event (.entry name value) → 0 ∉ value) :
    Refines cfg (runCall cfg print s call) (call.onText cfg o) := by
  by_cases ha : 0 ≤ cfg.indentAmount
  · exact runCall_refines hlib hc ha h hv
  · obtain ⟨hbuf, htext⟩ := @runCall_negative print cfg s o ha call hcall
    rw [hbuf, htext]
    exact ⟨rfl, h.toHolding⟩

theorem call_writes (hlib : CLibrary (host.config {}) print) (h : Writes host m st) {call : DocCall}
    (hcall : call ≠ .resetIndent) (hv : ∀ name value, call = .event (.entry name value) → 0 ∉ value) :
    Lockstep Eq (Writes host) (m.call host print call)
      (do return { st with out := ← call.onText (host.config st.settings) st.out }) := by
  have hrun := call_refines (library_config hlib st.settings) h.coherent h.tracks hcall hv
  rw [MainMemory.call, h.settings]
  cases hm : runCall (host.config st.settings) print m.out call with
  | error stop =>
    cases ht : call.onText (host.config st.settings) st.out with
    | error e =>
      rw [hm, ht] at hrun
      exact hrun.1
    | ok out => rw [hm, ht] at hrun; exact hrun.elim
  | ok mout =>
    cases ht : call.onText (host.config st.settings) st.out with
    | error e => rw [hm, ht] at hrun; exact hrun.elim
    | ok out =>
      rw [hm, ht] at hrun
      exact ⟨⟨rfl, h.done, h.reexec, h.execArgs⟩, h.coherent, hrun⟩

/-- What was appended does not depend on other settings. -/
theorem Tracks.config (h : Tracks cfg s o)
    (hsame : ∀ x ∈ s.emitted, x.emission.text cfg' = x.emission.text cfg) : Tracks cfg' s o := by
  have htext : ∀ {xs : List Emitted}, (∀ x ∈ xs, x ∈ s.emitted) → emittedText cfg' xs = emittedText cfg xs :=
    fun hxs => List.flatMap_congr fun x hx => hsame x (hxs x hx)
  have hall := htext fun x hx => hx
  exact { h with
    doc := hall ▸ h.doc
    text := hall.trans h.text
    sound := fun before x after hsplit => by
      have hx := h.sound before x after hsplit
      have hbefore : emittedText cfg' before = emittedText cfg before :=
        htext fun y hy => hsplit ▸ List.mem_append_left _ hy
      have htx : x.emission.text cfg' = x.emission.text cfg := hsame x (hsplit ▸ by simp)
      exact ⟨hbefore ▸ hx.dest, htx ▸ hbefore ▸ hx.result, hbefore ▸ hx.indent⟩ }

theorem Tracks.resetIndent (h : Tracks cfg s o) : Tracks cfg (resetIndent s) (Procenv.resetIndent o) :=
  { h with indent_eq := rfl, nonneg := Int.le_refl 0, written := fun h => absurd rfl h }

/-! ## The calls of `main` -/

/-- A long option before anything is written. -/
theorem long_writes (h : Writes host m st) (hnew : m.out.emitted = [])
    (hdone : st.done = false) (o : LongOption) :
    Lockstep Eq (fun m' st' => (Writes host m' st' ∧ m'.out.emitted = []) ∧ st'.done = false)
      (act host print m (.long o)) (Procenv.act host st (.long o)) := by
  have hguard : ¬ (st.done = true ∧ o ≠ .exec) := by simp [hdone]
  simp only [act, Procenv.act, h.done, h.settings, h.reexec, if_neg hguard, bind, Except.bind, pure, Except.pure]
  cases ho : o.set host.locale st.settings with
  | error e => exact rfl
  | ok c =>
    have htracks : Tracks (host.config c) m.out st.out := h.tracks.config (by simp [hnew])
    exact ⟨⟨⟨⟨rfl, rfl, rfl, h.execArgs⟩, set_coherent h.coherent ho, htracks.resetIndent⟩, hnew⟩, hdone⟩

/-- The calls that do not shorten the document. -/
def writing : Action → Bool
  | .chomp | .compress => false
  | _ => true

/-- **One call of `main`** that does not shorten the document. -/
theorem act_writes (hlib : CLibrary (host.config {}) print) (h : Writes host m st) {a : Action}
    (ha : writing a = true) (hv : ∀ name value, a = .call (.entry name value) → 0 ∉ value)
    (hlong : ∀ o, a = .long o → st.done = true) :
    Lockstep Eq (Writes host) (act host print m a) (Procenv.act host st a) := by
  have hcall {call : DocCall} (hcall : call ≠ .resetIndent) := @call_writes host print m st hlib h call hcall
  cases a with
  | setDone => exact ⟨⟨h.settings, rfl, h.reexec, h.execArgs⟩, h.coherent, h.tracks⟩
  | masterHeader => exact hcall (by simp) (by simp)
  | masterFooter => exact hcall (by simp) (by simp)
  | call e => exact hcall (by simp) fun name value he => hv name value (by rw [DocCall.event.inj he])
  | halt halt => exact rfl
  | usage =>
    have htracks : Tracks (host.config { st.settings with indentAmount := 0 }) m.out st.out :=
      h.tracks.config fun x _ => by cases hx : x.emission <;> rfl
    exact ⟨⟨by rw [h.settings], h.done, h.reexec, h.execArgs⟩, h.coherent, htracks⟩
  | checkExec =>
    simp only [act, Procenv.act, h.reexec, h.execArgs]
    split
    · exact rfl
    · split
      · exact ⟨⟨h.settings, h.done, rfl, rfl⟩, h.coherent, h.tracks⟩
      · exact h
  | long o =>
    have hdone := hlong o rfl
    simp only [act, Procenv.act, h.done, h.settings, h.reexec, hdone, true_and, ne_eq, ite_not, bind, Except.bind,
      pure, Except.pure]
    by_cases ho : o = .exec
    · subst ho
      exact ⟨⟨rfl, rfl, rfl, h.execArgs⟩, h.coherent, h.tracks.resetIndent⟩
    · rw [if_neg ho, if_neg ho]
      exact rfl
  | chomp | compress => cases ha

/-- **A sequence of calls.** -/
theorem run_writes (hlib : CLibrary (host.config {}) print) {as : List Action} (h : Writes host m st)
    (has : ∀ a ∈ as, writing a = true) (hv : ∀ name value, .call (.entry name value) ∈ as → 0 ∉ value)
    (hlong : (∃ o, .long o ∈ as) → st.done = true) :
    Lockstep Eq (Writes host) (runActions host print as m) (Procenv.runActions host as st) := by
  have hrun : Lockstep Eq (fun m st => Writes host m st ∧ ((∃ o, .long o ∈ as) → st.done = true))
      (runActions host print as m) (Procenv.runActions host as st) := by
    apply Lockstep.foldlM
    · rintro m st a hmem ⟨h, hlong⟩
      apply (act_writes hlib h (has a hmem) (fun name value he => hv name value (he ▸ hmem))
        fun o he => hlong ⟨o, he ▸ hmem⟩).and_result.mono
      rintro m' st' ⟨h', hact⟩
      exact ⟨h', fun ho => by rw [(act_acted hact).done, hlong ho, Bool.true_or]⟩
    · exact ⟨h, hlong⟩
  exact hrun.mono fun _ _ h => h.1

/-! ## The end of a run -/

theorem masterFooter_ne_nil (h : Procenv.masterFooter cfg o = .ok o') : o'.doc ≠ [] := by
  unfold Procenv.masterFooter at h
  obtain ⟨-, -, h⟩ := ok_of_bind h
  split at h
  · obtain rfl := Except.ok.inj h
    simp [OutState.wappend]
  · obtain rfl := Except.ok.inj h
    simp [OutState.wappend]
  · obtain ⟨o₁, -, h⟩ := ok_of_bind h
    obtain rfl := Except.ok.inj h
    simp [OutState.wappend]
  · obtain ⟨o₁, -, h⟩ := ok_of_bind h
    obtain rfl := Except.ok.inj h
    simp [OutState.wappend, lit]

/-- The footer leaves a document that is not empty. -/
theorem footer_writes (hlib : CLibrary (host.config {}) print) (h : Writes host m st) :
    Lockstep Eq (fun m' st' => Writes host m' st' ∧ st'.out.doc ≠ []) (act host print m .masterFooter)
      (Procenv.act host st .masterFooter) := by
  apply (act_writes hlib h (a := .masterFooter) rfl (by simp) (by simp)).and_result.mono
  rintro m' st' ⟨h', hact⟩
  obtain ⟨out, hout, hst'⟩ := ok_of_bind hact
  obtain rfl := Except.ok.inj hst'
  exact ⟨h', masterFooter_ne_nil hout⟩

theorem chomp_writes (hlib : CLibrary (host.config {}) print) (h : Writes host m st) (hdoc : st.out.doc ≠ []) :
    Lockstep Eq Chomped (act host print m .chomp) (Procenv.act host st .chomp) := by
  obtain ⟨d, hd, hisdoc⟩ := h.tracks.doc
  have hholds : d.Holds st.out.doc := h.tracks.text ▸ hisdoc.holds
  have hchomp := chomp_holds st.settings.wideIndentChar hholds
  simp only [act, MainMemory.onDoc, hd, h.settings, Procenv.act, chompAt_eq st.settings.wideIndentChar hholds]
  cases hc : pstringChomp st.settings.wideIndentChar st.out.doc with
  | error e =>
    rw [hc] at hchomp
    rw [hchomp]
    exact rfl
  | ok t =>
    rw [hc] at hchomp
    obtain ⟨d', hd', hholds', hbuf⟩ := hchomp
    rw [hd']
    exact ⟨⟨rfl, h.done, h.reexec, h.execArgs⟩, ⟨d', rfl, hholds', fun hb => hholds.buf_ne_nil hdoc (hbuf.1 hb)⟩,
      chomp_ended hc, fun h0 => hlib.noZero _ _ h.coherent (List.mem_singleton.2 h0.symm)⟩

theorem Chomped.shows (h : Chomped m st) : Shows m st := by
  obtain ⟨d, hd, hholds, -⟩ := h.doc
  exact ⟨h.toFlags, d, hd, hholds.content⟩

theorem compress_chomped (h : Chomped m st) :
    Lockstep Eq Shows (act host print m .compress) (Procenv.act host st .compress) := by
  obtain ⟨d, hd, hholds, hb⟩ := h.doc
  obtain ⟨w, count, blanks, hkept, -⟩ := compressCopy_squeeze h.ended
  obtain ⟨d', hat, hcomp⟩ := compressAt_eq h.nonzero hholds hb hkept
  have hrefines := compress_refines st.settings.wideIndentChar hholds hb
  simp only [act, MainMemory.onDoc, hd, h.settings, Procenv.act, hat]
  cases hc : pstringCompress st.settings.wideIndentChar st.out.doc with
  | error e =>
    rw [hc, hcomp] at hrefines
    cases hrefines
  | ok t =>
    rw [hc, hcomp] at hrefines
    obtain ⟨d₁, hd₁, hcontent⟩ := hrefines
    obtain rfl := Except.ok.inj hd₁
    exact ⟨⟨rfl, h.done, h.reexec, h.execArgs⟩, d', rfl, hcontent⟩

/-- The footer, `pstring_chomp` and what comes then. -/
theorem footer_shows (hlib : CLibrary (host.config {}) print) (h : Writes host m st) {as : List Action}
    (has : ∀ m st, Chomped m st → Lockstep Eq Shows (runActions host print as m)
      (Procenv.runActions host as st)) :
    Lockstep Eq Shows (runActions host print (.masterFooter :: .chomp :: as) m)
      (Procenv.runActions host (.masterFooter :: .chomp :: as) st) := by
  apply (footer_writes hlib h).bind
  rintro m₁ st₁ ⟨h₁, hdoc⟩
  apply (chomp_writes hlib h₁ hdoc).bind
  intro m₂ st₂ h₂
  exact has m₂ st₂ h₂

theorem checkExec_shows (h : Shows m st) :
    Lockstep Eq Shows (act host print m .checkExec) (Procenv.act host st .checkExec) := by
  simp only [act, Procenv.act, h.reexec, h.execArgs]
  split
  · exact rfl
  · split
    · exact ⟨⟨h.settings, h.done, rfl, rfl⟩, h.doc⟩
    · exact h

/-! ## Whole runs -/

/-- What the display routines emit has no terminators in it. -/
def NoZero (display : Display) : Prop :=
  ∀ n r name value, .entry name value ∈ (display n r).1 → 0 ∉ value

theorem NoZero.routine (hz : NoZero display) {n : Nat} {r : Routine} {name : MbStr} {value : WStr}
    (h : .call (.entry name value) ∈ routineActions display n r) : 0 ∉ value := by
  rcases mem_routineActions h with ⟨e, he, hcall⟩ | ⟨fmt, args, hhalt⟩
  · exact hz n r name value (Action.call.inj hcall ▸ he)
  · cases hhalt

theorem NoZero.loop (hz : NoZero display) {opts : List Opt} {name : MbStr} {value : WStr} :
    ∀ {n : Nat}, .call (.entry name value) ∈ loopActions display n opts → 0 ∉ value := by
  induction opts with
  | nil => simp [loopActions]
  | cons o opts ih =>
    intro n h
    cases o with
    | long o => exact ih (by simpa [loopActions] using h)
    | display r =>
      simp only [loopActions, List.cons_append, List.nil_append, List.mem_cons, reduceCtorEq, false_or,
        List.mem_append] at h
      exact h.elim hz.routine ih
    | help => exact ih (by simpa [loopActions] using h)
    | invalid => exact ih (by simpa [loopActions] using h)

theorem NoZero.dump (hz : NoZero display) {rs : List Routine} {name : MbStr} {value : WStr} :
    ∀ {n : Nat}, .call (.entry name value) ∈ dumpCalls display n rs → 0 ∉ value := by
  induction rs with
  | nil => simp [dumpCalls]
  | cons r rs ih =>
    intro n h
    exact (List.mem_append.1 h).elim hz.routine ih

theorem routineActions_writing {n : Nat} {r : Routine} : ∀ a ∈ routineActions display n r, writing a = true := by
  intro a ha
  rcases mem_routineActions ha with ⟨e, -, rfl⟩ | ⟨fmt, args, rfl⟩ <;> rfl

theorem loopActions_writing {opts : List Opt} :
    ∀ {n : Nat}, ∀ a ∈ loopActions display n opts, writing a = true := by
  induction opts with
  | nil => simp [loopActions]
  | cons o opts ih =>
    intro n
    cases o with
    | display r => simpa [loopActions, writing, or_imp, forall_and] using ⟨routineActions_writing, ih⟩
    | long _ | help | invalid => simpa [loopActions, writing] using ih

theorem dumpCalls_writing {rs : List Routine} : ∀ {n : Nat}, ∀ a ∈ dumpCalls display n rs, writing a = true := by
  induction rs with
  | nil => simp [dumpCalls]
  | cons r rs ih =>
    intro n a ha
    exact (List.mem_append.1 ha).elim (routineActions_writing a) (ih a)

section Runs

variable (hlib : CLibrary (host.config {}) print) (hz : NoZero display)

include hlib hz

/-- The option loop. -/
theorem loop_writes (h : Writes host m st) (hnew : m.out.emitted = []) (hdone : st.done = false)
    (opts : List Opt) :
    Lockstep Eq (Writes host) (runActions host print (loopActions display 0 opts) m)
      (Procenv.runActions host (loopActions display 0 opts) st) := by
  obtain ⟨os, rest, rfl, hrest⟩ := opts_split opts
  rw [loopActions_long, runActions, Procenv.runActions, List.foldlM_append, List.foldlM_append]
  have hlongs : Lockstep Eq (fun m' st' => (Writes host m' st' ∧ m'.out.emitted = []) ∧ st'.done = false)
      ((os.map Action.long).foldlM (act host print) m) ((os.map Action.long).foldlM (Procenv.act host) st) := by
    apply Lockstep.foldlM
    · rintro m' st' a ha ⟨⟨h', hnew'⟩, hdone'⟩
      obtain ⟨o, -, rfl⟩ := List.mem_map.1 ha
      exact long_writes h' hnew' hdone' o
    · exact ⟨⟨h, hnew⟩, hdone⟩
  apply hlongs.bind
  rintro m₁ st₁ ⟨⟨h₁, -⟩, -⟩
  rcases hrest with rfl | ⟨o, rest', rfl, ho⟩
  · exact h₁
  · -- a display option sets `done`, so that no long option but `--exec` is accepted any more
    obtain ⟨as, has⟩ : ∃ as, loopActions display 0 (o :: rest') = .setDone :: as := by
      cases o with
      | long o => simp [Opt.isDisplay] at ho
      | display r | help | invalid => exact ⟨_, rfl⟩
    have hvalues : ∀ name value, .call (.entry name value) ∈ loopActions display 0 (o :: rest') → 0 ∉ value :=
      fun name value => hz.loop
    have hwriting : ∀ a ∈ loopActions display 0 (o :: rest'), writing a = true := loopActions_writing
    rw [has] at hvalues hwriting ⊢
    rw [List.foldlM_cons, List.foldlM_cons]
    have hset : Lockstep Eq (fun m' st' => Writes host m' st' ∧ st'.done = true) (act host print m₁ .setDone)
        (Procenv.act host st₁ .setDone) :=
          ⟨⟨⟨h₁.settings, rfl, h₁.reexec, h₁.execArgs⟩, h₁.coherent, h₁.tracks⟩, rfl⟩
    apply hset.bind
    rintro m₂ st₂ ⟨h₂, hdone₂⟩
    exact run_writes hlib h₂ (fun a ha => hwriting a (List.mem_cons_of_mem _ ha))
      (fun name value ha => hvalues name value (List.mem_cons_of_mem _ ha)) fun _ => hdone₂

/-- The calls after the option loop. -/
theorem end_shows (h : Writes host m st) (fmt : OutputFormat) :
    Lockstep Eq Shows (runActions host print (endActions display st.done fmt) m)
      (Procenv.runActions host (endActions display st.done fmt) st) := by
  cases st.done with
  | true =>
    apply footer_shows hlib h
    intro m₁ st₁ h₁
    cases fmt with
    | xml | json => exact (checkExec_shows h₁.shows).bind fun _ _ h₂ => h₂
    | text | crumb =>
      apply (compress_chomped h₁).bind
      intro m₂ st₂ h₂
      exact (checkExec_shows h₂).bind fun _ _ h₃ => h₃
  | false =>
    have hshape : endActions display false fmt =
        (.checkExec :: .masterHeader :: dumpCalls display 0 dumpRoutines) ++
          [.masterFooter, .chomp, .compress] := by
      simp [endActions, dumpActions]
    have hplain : ∀ a ∈ dumpCalls display 0 dumpRoutines, a.plain = true := dumpCalls_plain 0 dumpRoutines
    rw [hshape, runActions, Procenv.runActions, List.foldlM_append, List.foldlM_append]
    have hdump : Lockstep Eq (Writes host)
        (runActions host print (.checkExec :: .masterHeader :: dumpCalls display 0 dumpRoutines) m)
        (Procenv.runActions host (.checkExec :: .masterHeader :: dumpCalls display 0 dumpRoutines) st) := by
      apply run_writes hlib h
      · intro a ha
        simp only [List.mem_cons] at ha
        rcases ha with rfl | rfl | ha
        · rfl
        · rfl
        · exact dumpCalls_writing a ha
      · intro name value ha
        exact hz.dump (by simpa using ha)
      · rintro ⟨o, ho⟩
        have := hplain (.long o) (by simpa using ho)
        cases this
    apply hdump.bind
    intro m₁ st₁ h₁
    apply footer_shows hlib h₁
    intro m₂ st₂ h₂
    exact (compress_chomped h₂).bind fun _ _ h₃ => h₃

/-- `main` after `init`. -/
theorem runMain_shows (h : Writes host m st) (hnew : m.out.emitted = []) (hdone : st.done = false)
    (opts : List Opt) :
    Lockstep Eq Shows (runMain host print display opts m) (Procenv.runMain host display opts st) := by
  apply (loop_writes hlib hz h hnew hdone opts).bind
  intro m₁ st₁ h₁
  rw [h₁.done, h₁.settings]
  exact end_shows hlib hz h₁ _

omit hlib hz in
/-- `main` before the option loop. -/
theorem startMain_writes (getenv : String → Option MbStr) :
    Lockstep Eq (fun m st => (Writes host m st ∧ m.out.emitted = []) ∧ st.done = false)
      (startMain host.locale getenv)
      (Procenv.startMain host.locale getenv) := by
  unfold startMain
  cases hstart : Procenv.startMain host.locale getenv with
  | error e => exact rfl
  | ok st =>
    obtain ⟨hcoh, hout, hdone⟩ := startMain_eq hstart
    exact ⟨⟨⟨⟨rfl, rfl, rfl, rfl⟩, hcoh, hout ▸ tracks_init _⟩, rfl⟩, hdone⟩

/-- **Every run of `main`, from the environment on, does on the document's buffer what it does on the text**: it
stops for the same reason, or `doc` is the document of the text. -/
theorem main_memory (getenv : String → Option MbStr) (opts : List Opt) :
    Lockstep Eq Shows (startMain host.locale getenv >>= runMain host print display opts)
      (Procenv.startMain host.locale getenv >>= Procenv.runMain host display opts) := by
  apply (startMain_writes getenv).bind
  rintro m st ⟨⟨h, hnew⟩, hdone⟩
  exact runMain_shows hlib hz h hnew hdone opts

end Runs

/-- `--help --shared-memory`: after the help text there is no indent. -/
theorem main_memory_help :
    let host : Host := { locale := posixStrings }
    let display : Display :=
      fun _ _ => ([.sectionOpen (bytes "a"), .entry (bytes "b") (lit "c"), .sectionClose], none)
    let opts : List Opt := [.help, .display .showSharedMem]
    ∃ m, startMain host.locale (fun _ => none) >>= runMain host printText display opts = .ok m ∧
      ∃ d, m.out.doc = some d ∧ d.content = some (lit "a:\nb: c\n") := by
  intro host display opts
  have hz : NoZero display := by
    intro n r name value he
    simp only [display, List.mem_cons, List.not_mem_nil, or_false, reduceCtorEq, false_or,
      Event.entry.injEq] at he
    rw [he.2]
    decide
  have htext : (Procenv.startMain host.locale (fun _ => none) >>= Procenv.runMain host display opts).map
    (·.out.doc) =
      .ok (lit "a:\nb: c\n") := by decide
  obtain ⟨st, hst, hdoc⟩ := map_ok htext
  have hrun := @main_memory { locale := posixStrings } printText display (posixStrings_library rfl) hz
    (fun _ => none) opts
  obtain ⟨m, hm, hshows⟩ := hrun.result' hst
  have hshown := hshows.doc
  rw [hdoc] at hshown
  exact ⟨m, hm, hshown⟩

end Procenv.Document
