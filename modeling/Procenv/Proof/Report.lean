import Procenv.Proof.Lossless
import Procenv.Proof.MainMemory
import Procenv.Proof.Multibyte

/-!
# From the calls to the bytes

A run of `main` that shows one document in JSON or XML, from the environment to the string
that `_show_output` writes. The document has printable characters and white space in it
only, so that it can be encoded; it is chomped and compressed to itself; and decoded again
it says the outline of the calls.

* `printed_calls`: what a document is made of.
* `runMain_document`: the run of `main` on the text.
* `mainOutput_says`: **the bytes that are written say what the routines were called with**.
-/

namespace Procenv

open Text

variable {cfg : Config} {host : Host} {s t : WStr}

/-! ## The characters of a document -/

/-- A text of printable characters and white space. -/
def Printed (loc : Locale) (t : WStr) : Prop := ∀ x ∈ t, loc.iswprint x = true ∨ Json.isWs x = true

theorem Printed.append {loc : Locale} (hs : Printed loc s) (ht : Printed loc t) : Printed loc (s ++ t) := by
  intro x hx
  exact (List.mem_append.1 hx).elim (hs x) (ht x)

theorem Printed.nil {loc : Locale} : Printed loc [] := by simp [Printed]

section Characters

variable (hf : cfg.outputFormat = .json ∨ cfg.outputFormat = .xml) (hloc : cfg.locale.Standard)
  (hu : Json.isWs cfg.indentUnit = true)

include hloc

theorem printed_lit {t : WStr} (h : (t.all fun x => decide (0x20 ≤ x.val ∧ x.val ≤ 0x7E) || Json.isWs x) = true) :
    Printed cfg.locale t := by
  intro x hx
  have hx := List.all_eq_true.1 h x hx
  simp only [Bool.or_eq_true, decide_eq_true_eq] at hx
  exact hx.imp_left fun hx => hloc.print x hx.1 hx.2

theorem printed_hex (p v : Nat) : Printed cfg.locale (fmtHex p v) := by
  intro x hx
  obtain ⟨d, hd, rfl⟩ := hexFixed_digit hx
  have hval := hexDigit_val hd
  refine Or.inl (hloc.print _ ?_ ?_) <;> rw [hval] <;> split <;> omega

theorem printed_escapeText (fmt : OutputFormat) (c : WChar) : Printed cfg.locale (escapeText fmt c) := by
  unfold escapeText
  split
  · exact (printed_lit hloc (by decide)).append (printed_hex hloc 4 _)
  · exact ((printed_lit hloc (by decide)).append (printed_hex hloc 2 _)).append (printed_lit hloc (by decide))

include hf

/-- What is not printable is escaped. -/
theorem printed_encode {w r : WStr} (h : cfg.encode w = some r) : Printed cfg.locale r := by
  rw [encode_flatMap hf h]
  intro x hx
  obtain ⟨c, -, hx⟩ := List.mem_flatMap.1 hx
  obtain ⟨d, -, hx⟩ := List.mem_flatMap.1 hx
  unfold escapeChar at hx
  split at hx
  · rename_i hp
    obtain rfl : x = d := by simpa using hx
    exact Or.inl hp
  · exact printed_escapeText hloc _ _ x hx

theorem printed_valueText {value : WStr} (h : (cfg.encode value).isSome) :
    Printed cfg.locale (cfg.valueText value) := by
  obtain ⟨r, hr⟩ := Option.isSome_iff_exists.1 h
  rw [Config.valueText, hr]
  exact printed_encode hf hloc hr

theorem printed_nameText {name : MbStr} (h : (cfg.encodeName name).isSome) :
    Printed cfg.locale (cfg.nameText name) := by
  obtain ⟨r, hr⟩ := Option.isSome_iff_exists.1 h
  obtain ⟨w, -, hw⟩ := encodeName_eq hr
  rw [Config.nameText, hr]
  exact printed_encode hf hloc hw

theorem printed_entry {name : MbStr} {value : WStr} (h : (Event.entry name value).Encodable cfg) :
    Printed cfg.locale (entryText cfg name value) := by
  have hn := printed_nameText hf hloc h.1
  have hv := printed_valueText hf hloc h.2
  have hlit {t : WStr} := @printed_lit cfg hloc t
  rcases hf with hf | hf <;> simp only [entryText, hf]
  · exact ((((hlit (by decide)).append hn).append (hlit (by decide))).append hv).append (hlit (by decide))
  · exact ((((hlit (by decide)).append hn).append (hlit (by decide))).append hv).append (hlit (by decide))

theorem printed_open {g : Group} (h : g.opening.Encodable cfg) : Printed cfg.locale (openText cfg g) := by
  have hlit {t : WStr} := @printed_lit cfg hloc t
  have hnamed : ∀ bracket tag name, Printed cfg.locale bracket → Printed cfg.locale tag →
    (cfg.encodeName name).isSome →
      Printed cfg.locale (namedOpenText cfg bracket tag name) := by
    intro bracket tag name hb ht hn
    have hn := printed_nameText hf hloc hn
    rcases hf with hf | hf <;> simp only [namedOpenText, hf]
    · exact (((hlit (by decide)).append hn).append (hlit (by decide))).append hb
    · exact ((((hlit (by decide)).append ht).append (hlit (by decide))).append hn).append (hlit (by decide))
  cases g with
  | sect name => exact hnamed _ _ _ (hlit (by decide)) (hlit (by decide)) h
  | cont name => exact hnamed _ _ _ (hlit (by decide)) (hlit (by decide)) h
  | object => exact hlit (t := lit "\x7b") (by decide)

theorem printed_end (g : Group) : Printed cfg.locale (endText cfg g) := by
  have hlit {t : WStr} := @printed_lit cfg hloc t
  have hnamed : ∀ bracket tag, Printed cfg.locale bracket → Printed cfg.locale tag →
      Printed cfg.locale (namedCloseText cfg bracket tag) := by
    intro bracket tag hb ht
    rcases hf with hf | hf <;> simp only [namedCloseText, hf]
    · exact hb
    · exact ((hlit (by decide)).append ht).append (hlit (by decide))
  cases g with
  | sect name => exact hnamed _ _ (hlit (by decide)) (hlit (by decide))
  | cont name => exact hnamed _ _ (hlit (by decide)) (hlit (by decide))
  | object => exact hlit (t := lit "\x7d") (by decide)

omit hf hloc in
theorem printed_indent (hu : Json.isWs cfg.indentUnit = true) (k : Int) :
    Printed cfg.locale (indentText cfg k) := by
  intro x hx
  rw [indentText_eq] at hx
  rw [(List.mem_replicate.1 hx).2]
  exact Or.inr hu

include hu

theorem printed_lead (pos : Pos) (k : Int) : Printed cfg.locale (leadText cfg pos k) := by
  have hlit {t : WStr} := @printed_lit cfg hloc t
  refine Printed.append ?_ (printed_indent hu _)
  cases pos with
  | fresh => exact .nil
  | opened => exact hlit (t := [nl]) (by decide)
  | after =>
    rcases hf with hf | hf <;> simp only [sepLine, hf]
    · exact hlit (by decide)
    · exact hlit (by decide)

omit hf in
theorem printed_close (k : Int) (kids : Calls) : Printed cfg.locale (closeLine cfg k kids) := by
  have hline : Printed cfg.locale ([nl] ++ indentText cfg k) :=
    (printed_lit hloc (by decide)).append (printed_indent hu k)
  cases kids with
  | nil =>
    simp only [closeLine, emptyLine]
    split
    · exact hline
    · exact .nil
  | entry _ _ _ => exact hline
  | group _ _ _ => exact hline

/-- **The text of a call tree has printable characters and white space in it only.** -/
theorem printed_calls (c : Calls) (henc : c.Encodable cfg) :
    ∀ pos k, Printed cfg.locale (callsText cfg pos k c) := by
  induction c with
  | nil => exact fun _ _ => .nil
  | entry name value next ih =>
    intro pos k
    obtain ⟨he, hen⟩ := henc.entry
    exact ((printed_lead hf hloc hu pos k).append (printed_entry hf hloc he)).append (ih hen _ _)
  | group g kids next ihk ihn =>
    intro pos k
    obtain ⟨he, hek, hen⟩ := henc.group
    exact (((((printed_lead hf hloc hu pos k).append (printed_open hf hloc he)).append (ihk hek _ _)).append
      (printed_close hloc hu _ kids)).append (printed_end hf hloc g)).append (ihn hen _ _)

end Characters

/-! ## The document of a run -/

theorem erase_ne_nil {c : Calls} (hne : c ≠ .nil) (hfit : c.fits .json false) : c.erase ≠ .nil := by
  cases c with
  | nil => exact absurd rfl hne
  | entry name value next => simp [Calls.erase]
  | group g kids next =>
    obtain ⟨hg, -, -⟩ := fits_group hfit
    cases g with
    | object => simp [Group.isObject] at hg
    | sect name => simp [Calls.erase]
    | cont name => simp [Calls.erase]

/-- **The document of a call tree**: it is shown as it is, can be encoded, and says what the calls say. -/
theorem document_says (hf : cfg.outputFormat = .json ∨ cfg.outputFormat = .xml) (hloc : cfg.locale.Standard)
    (hu : Json.isWs cfg.indentUnit = true) (hun : cfg.indentUnit ≠ nl) (ha : 0 ≤ cfg.indentAmount) {c : Calls}
    (hne : c ≠ .nil) (hfit : c.fits .json false) (henc : c.Encodable cfg)
    (hread : ∀ e ∈ c.events, e.Readable cfg) :
    ∃ s, runDocument cfg c.events = .ok s ∧ pstringChomp cfg.indentUnit s.doc = .ok s.doc ∧
      pstringCompress cfg.indentUnit s.doc = .ok s.doc ∧ s.doc ≠ [] ∧ Printed cfg.locale s.doc ∧
      (cfg.outputFormat = .json → SaysJson s.doc (c.outline cfg)) ∧
      (cfg.outputFormat = .xml → SaysXml s.doc (c.outline cfg).erase) := by
  have hlit {t : WStr} := @printed_lit cfg hloc t
  have hnl := hloc.cntrl nl (by decide)
  rcases hf with hf | hf
  · obtain ⟨s, hs, hdoc, -⟩ := run_jsonDocument hf ha hfit henc
    have hsolid := json_solid (Or.inl hf) hnl hu hun henc 0
    refine ⟨s, hs, ?_, ?_, by simp [hdoc], ?_, fun _ => ?_, fun h => by simp [hf] at h⟩
    · rw [hdoc]
      exact chomp_settled hsolid.ends
    · rw [hdoc]
      exact compress_settled hsolid.newline
    · have hcalls := printed_calls (Or.inl hf) hloc hu c henc .opened 0
      rw [hdoc]
      exact (((hlit (by decide)).append (hcalls.append (printed_close hloc hu 0 c))).append
        (hlit (by decide))).append
        (hlit (by decide))
    · rw [hdoc]
      exact saysJson_members hf hloc hu hfit henc hread
  · have h1 : cfg.indentUnit ≠ 0x3C := fun h => absurd (h ▸ hu) (by decide)
    have h2 : cfg.indentUnit ≠ 0x26 := fun h => absurd (h ▸ hu) (by decide)
    have hfit' : c.erase.fits .xml false := Calls.fits_erase (by decide) c false hfit
    obtain ⟨s, hs, -, hdoc⟩ := run_xmlDocument hf ha hfit' henc.erase c.events_erase
    have hes : if cfg.outputFormat = .json then c.events = c.erase.events
      else eraseObjects c.events = c.erase.events := by
      rw [if_neg (by simp [hf])]
      exact c.events_erase
    obtain ⟨s', t, hs', ht, hsolid⟩ := run_solid (Or.inr hf) hnl hu hun ha (erase_ne_nil hne hfit) (hf ▸ hfit')
      henc.erase hes
    obtain rfl := Except.ok.inj (hs.symm.trans hs')
    refine ⟨s, hs, ?_, ?_, by simp [ht], ?_, fun h => by simp [hf] at h, fun _ => ?_⟩
    · rw [ht]
      exact chomp_settled hsolid.ends
    · rw [ht]
      exact compress_settled hsolid.newline
    · have hcalls := printed_calls (Or.inr hf) hloc hu c.erase henc.erase .fresh cfg.indentAmount
      have hroot : Printed cfg.locale (xmlRootOpen cfg) := by
        have hmode : Printed cfg.locale (xmlMode cfg) := by
          unfold xmlMode
          split <;> exact hlit (by decide)
        have hstart := hlit (t := lit "<" ++ packageName ++ lit " version=\"" ++ packageVersion ++
          lit "\" package_string=\"" ++ packageString ++ lit "\" mode=\"") (by decide)
        have hend := hlit (t := lit "\" format_version=\"" ++ procenvFormatVersion ++ lit "\">\n") (by decide)
        simpa [xmlRootOpen] using (hstart.append hmode).append hend
      rw [hdoc]
      exact ((((hlit (by decide)).append hroot).append hcalls).append (hlit (by decide))).append
        (hlit (by decide))
    · rw [hdoc, ← Calls.outline_erase]
      exact saysXml_root hf hloc.print h1 h2 hfit' henc.erase

/-! ## The run of `main` -/

/-- The routines that a run calls, with their numbers: that of the display option, or those of `dump`. -/
def called : (shown : Option Routine) → List (Nat × Routine)
  | none => dumpRoutines.zipIdx.map Prod.swap
  | some r => [(0, r)]

/-- The calls of routines that are called one after the other. -/
def sequenceCalls (calls : Nat → Routine → Calls) : List (Nat × Routine) → Calls
  | [] => .nil
  | (n, r) :: ps => (calls n r).append (sequenceCalls calls ps)

/-- The options of a run with at most one display option. -/
def reportOptions (os : List LongOption) (shown : Option Routine) : List Opt :=
  os.map .long ++ (shown.map Opt.display).toList

/-- What a display routine is called with: a call tree whose names and values are encoded and read back. -/
structure Reportable (cfg : Config) (c : Calls) : Prop where
  fits : c.fits .json false
  encodable : c.Encodable cfg
  readable : ∀ e ∈ c.events, e.Readable cfg

theorem Reportable.append {c d : Calls} (hc : Reportable cfg c) (hd : Reportable cfg d) :
    Reportable cfg (c.append d) where
  fits := Calls.fits_append hc.fits hd.fits
  encodable e he := by
    rw [Calls.events_append, List.mem_append] at he
    exact he.elim (hc.encodable e) (hd.encodable e)
  readable e he := by
    rw [Calls.events_append, List.mem_append] at he
    exact he.elim (hc.readable e) (hd.readable e)

/-- What holds of the calls of each routine holds of those of a sequence. -/
theorem sequenceCalls_induction {P : Calls → Prop} (hnil : P .nil) (happend : ∀ {c d}, P c → P d → P (c.append d))
    {calls : Nat → Routine → Calls} (h : ∀ n r, P (calls n r)) (ps : List (Nat × Routine)) :
    P (sequenceCalls calls ps) := by
  induction ps with
  | nil => exact hnil
  | cons p ps ih => exact happend (h p.1 p.2) ih

theorem Reportable.sequence {calls : Nat → Routine → Calls} (h : ∀ n r, Reportable cfg (calls n r))
    (ps : List (Nat × Routine)) : Reportable cfg (sequenceCalls calls ps) :=
  sequenceCalls_induction ⟨rfl, by simp [Calls.Encodable, Calls.events], by simp [Calls.events]⟩
    Reportable.append h ps

/-- What is read off the calls of routines, in their order. -/
theorem sequenceCalls_flatMap {β : Type} (f : Calls → List β) (hnil : f .nil = [])
    (happend : ∀ c d : Calls, f (c.append d) = f c ++ f d) (calls : Nat → Routine → Calls)
    (ps : List (Nat × Routine)) : f (sequenceCalls calls ps) = ps.flatMap fun p => f (calls p.1 p.2) := by
  induction ps with
  | nil => exact hnil
  | cons p ps ih =>
    rw [sequenceCalls, happend, ih]
    rfl

/-- An encoded value has no terminator in it. -/
theorem Event.Encodable.noZero {name : MbStr} {value : WStr} (h : (Event.entry name value).Encodable cfg) :
    0 ∉ value := by
  obtain ⟨r, hr⟩ := Option.isSome_iff_exists.1 h.2
  obtain ⟨-, -, -, h0⟩ := encode_eq hr
  exact h0

/-- The calls of `dump` are those of its routines, one after the other. -/
theorem dumpCalls_flatMap (display : Display) (rs : List Routine) :
    ∀ n, dumpCalls display n rs = ((rs.zipIdx n).map Prod.swap).flatMap fun p =>
      routineActions display p.1 p.2 := by
  induction rs with
  | nil => exact fun n => rfl
  | cons r rs ih =>
    intro n
    rw [dumpCalls, ih (n + 1)]
    rfl

/-- The calls of the routines of a run. -/
theorem routineActions_events (calls : Nat → Routine → Calls) (shown : Option Routine) :
    (called shown).flatMap (fun p => routineActions (fun n r => ((calls n r).events, none)) p.1 p.2) =
      (sequenceCalls calls (called shown)).events.map .call := by
  rw [sequenceCalls_flatMap Calls.events rfl Calls.events_append, List.map_flatMap]
  exact List.flatMap_congr fun p _ => routineActions_returns rfl

theorem dumpActions_called (display : Display) : dumpActions display =
    .masterHeader :: (called none).flatMap (fun p => routineActions display p.1 p.2) ++ [.masterFooter] := by
  rw [dumpActions, dumpCalls_flatMap]
  rfl

/-- The option loop runs the routine of the display option, if there is one. -/
theorem loopActions_report (display : Display) (os : List LongOption) (shown : Option Routine) :
    loopActions display 0 (reportOptions os shown) = os.map .long ++ shown.elim [] fun r =>
      .setDone :: .masterHeader :: routineActions display 0 r := by
  rw [reportOptions, loopActions_long]
  cases shown with
  | none => rfl
  | some r => simp [loopActions]

/-- Long options that are accepted. -/
theorem long_run {os : List LongOption} {st : MainState} {c : Settings} (hout : st.out.indent = 0)
    (hdone : st.done = false) (h : os.foldlM (LongOption.set host.locale) st.settings = .ok c) :
    runActions host (os.map .long) st =
      .ok { st with settings := c, reexec := st.reexec || decide (.exec ∈ os) } := by
  induction os generalizing st with
  | nil =>
    obtain rfl : st.settings = c := Except.ok.inj h
    simp [runActions, pure, Except.pure]
  | cons o os ih =>
    rw [List.foldlM_cons] at h
    obtain ⟨c₁, ho, h⟩ := Outcome.ok_of_bind h
    have hact : act host st (.long o) = .ok { st with settings := c₁, reexec := st.reexec || o = .exec } := by
      simp [act, hdone, ho, bind, Except.bind, pure, Except.pure, resetIndent_eq hout]
    rw [List.map_cons, runActions_cons, hact]
    have hrest := @ih { st with settings := c₁, reexec := st.reexec || o = .exec } hout hdone h
    simp only [Except.bind, hrest, List.mem_cons, eq_comm, Bool.or_assoc, Bool.decide_or]

theorem act_chomp {m : MainState} {d : WStr} (h : pstringChomp m.settings.wideIndentChar m.out.doc = .ok d) :
    act host m .chomp = .ok { m with out := { m.out with doc := d } } := by
  simp only [act, h, bind, Except.bind, pure, Except.pure]

theorem act_compress {m : MainState} (h : pstringCompress m.settings.wideIndentChar m.out.doc = .ok t) :
    act host m .compress = .ok { m with out := { m.out with doc := t } } := by
  simp only [act, h, bind, Except.bind, pure, Except.pure]

section End

variable {display : Display} {st : MainState} {o : OutState} {d : WStr}
  (hexec : st.reexec = true → st.execArgs = none → host.operands ≠ [])
  (hchomp : pstringChomp st.settings.wideIndentChar o.doc = .ok d)
  (hcompress : pstringCompress st.settings.wideIndentChar d = .ok t)

include hexec hchomp hcompress

/-- Without a display option `dump` makes the document, which is chomped and compressed. -/
theorem end_dumped {es : List Event} (hout : st.out = {})
    (hcalls : (called none).flatMap (fun p => routineActions display p.1 p.2) = es.map .call)
    (hdoc : runDocument (host.config st.settings) es = .ok o) (fmt : OutputFormat) :
    ∃ st', runActions host (endActions display false fmt) st = .ok st' ∧ st'.out.doc = t := by
  obtain ⟨args, hargs⟩ := checkExec_eq st hexec
  have hrun := runActions_document host { st with execArgs := args } hout es
  rw [show ({ st with execArgs := args } : MainState).settings = st.settings from rfl, hdoc] at hrun
  have hshape : endActions display false fmt =
      .checkExec :: ((.masterHeader :: (es.map .call ++ [.masterFooter])) ++ [.chomp, .compress]) := by
    rw [endActions, if_neg (by simp), dumpActions_called, hcalls]
    rfl
  let st₁ : MainState := { st with execArgs := args, out := o }
  have hchomped : act host st₁ .chomp = .ok { st₁ with out := { o with doc := d } } := act_chomp hchomp
  have hcompressed : act host { st₁ with out := { o with doc := d } } .compress =
      .ok { st₁ with out := { o with doc := t } } := act_compress hcompress
  refine ⟨{ st₁ with out := { o with doc := t } }, ?_, rfl⟩
  rw [hshape, runActions_cons, hargs]
  simp only [Except.bind]
  rw [runActions_append, hrun]
  simp only [Except.map, Except.bind, runActions_cons]
  rw [hchomped]
  simp only
  rw [hcompressed]
  rfl

/-- After a display option the footer ends the document, which is chomped and, but for JSON and XML,
compressed. -/
theorem end_shown (hfoot : act host st .masterFooter = .ok { st with out := o })
    (hsame : st.settings.outputFormat = .json ∨ st.settings.outputFormat = .xml → t = d) :
    ∃ st', runActions host (endActions display true st.settings.outputFormat) st = .ok st' ∧ st'.out.doc = t := by
  let st₁ : MainState := { st with out := { o with doc := d } }
  let st₂ : MainState := { st with out := { o with doc := t } }
  have hchomped : act host { st with out := o } .chomp = .ok st₁ := act_chomp (m := { st with out := o }) hchomp
  have hcompressed : act host st₁ .compress = .ok st₂ := act_compress (m := st₁) hcompress
  obtain ⟨args, hargs⟩ := checkExec_eq st₂ hexec
  refine ⟨{ st₂ with execArgs := args }, ?_, rfl⟩
  rw [endActions, if_pos rfl]
  simp only [List.cons_append, List.nil_append, runActions_cons, hfoot, Except.bind]
  rw [hchomped]
  have hplain (h : st.settings.outputFormat = .json ∨ st.settings.outputFormat = .xml) : st₁ = st₂ := by
    simp only [st₁, st₂, hsame h]
  cases hf : st.settings.outputFormat with
  | json =>
    simp only [compressActions, List.nil_append, runActions_cons, Except.bind]
    rw [hplain (Or.inl hf), hargs]
    rfl
  | xml =>
    simp only [compressActions, List.nil_append, runActions_cons, Except.bind]
    rw [hplain (Or.inr hf), hargs]
    rfl
  | text | crumb =>
    simp only [compressActions, List.cons_append, List.nil_append, runActions_cons, Except.bind]
    rw [hcompressed]
    simp only
    rw [hargs]
    rfl

end End

/-- **The run of `main` shows the document of its calls**, chomped and, but for JSON and XML, compressed. -/
theorem runMain_document {os : List LongOption} {shown : Option Routine} {display : Display} {es : List Event}
    {st : MainState} {c : Settings} {o : OutState} {d : WStr} (hout : st.out = {}) (hdone : st.done = false)
    (hlong : os.foldlM (LongOption.set host.locale) st.settings = .ok c)
    (hexec : st.reexec = true ∨ .exec ∈ os → st.execArgs = none → host.operands ≠ [])
    (hcalls : (called shown).flatMap (fun p => routineActions display p.1 p.2) = es.map .call)
    (hdoc : runDocument (host.config c) es = .ok o) (hchomp : pstringChomp c.wideIndentChar o.doc = .ok d)
    (hcompress : pstringCompress c.wideIndentChar d = .ok t)
    (hsame : c.outputFormat = .json ∨ c.outputFormat = .xml → t = d) :
    ∃ st', runMain host display (reportOptions os shown) st = .ok st' ∧ st'.out.doc = t := by
  let st₁ : MainState := { st with settings := c, reexec := st.reexec || decide (.exec ∈ os) }
  have hlongs : runActions host (os.map .long) st = .ok st₁ := long_run (by rw [hout]) hdone hlong
  have hexec' : st₁.reexec = true → st₁.execArgs = none → host.operands ≠ [] :=
    fun h => hexec (by simpa [st₁] using h)
  cases shown with
  | none =>
    have hloop : runActions host (loopActions display 0 (reportOptions os none)) st = .ok st₁ := by
      rw [loopActions_report, runActions_append, hlongs]
      rfl
    obtain ⟨st', hend, ht⟩ := end_dumped hexec' hchomp hcompress hout hcalls hdoc c.outputFormat
    refine ⟨st', ?_, ht⟩
    rw [runMain, hloop]
    simp only [bind, Except.bind, show st₁.done = false from hdone]
    exact hend
  | some r =>
    -- the header and the routine run in the option loop, the footer after it
    have hrun := runActions_document host { st₁ with done := true } hout es
    rw [show ({ st₁ with done := true } : MainState).settings = c from rfl, hdoc, ← List.cons_append,
      runActions_append] at hrun
    obtain ⟨st₂, hloop₂, hfoot⟩ := Outcome.ok_of_bind hrun
    have hroutine : routineActions display 0 r = es.map .call := by
      simpa [called] using hcalls
    have hloop : runActions host (loopActions display 0 (reportOptions os (some r))) st = .ok st₂ := by
      rw [loopActions_report, runActions_append, hlongs, Option.elim_some, hroutine]
      exact hloop₂
    have hact : act host st₂ .masterFooter = .ok { st₁ with done := true, out := o } := by
      rw [← hfoot, runActions_cons]
      cases act host st₂ .masterFooter <;> rfl
    obtain ⟨o₂, -, ho₂⟩ := Outcome.ok_of_bind hact
    -- the footer leaves what it does not write
    have hst : { st₂ with out := o₂ } = { st₁ with done := true, out := o } := Except.ok.inj ho₂
    obtain rfl : o₂ = o := congrArg MainState.out hst
    have hset : st₂.settings = c := congrArg MainState.settings hst
    have hdone₂ : st₂.done = true := congrArg MainState.done hst
    have hreexec := congrArg MainState.reexec hst
    have hargs := congrArg MainState.execArgs hst
    have hexec₂ : st₂.reexec = true → st₂.execArgs = none → host.operands ≠ [] := fun hr ha =>
      hexec' (hreexec.symm.trans hr) (hargs.symm.trans ha)
    have hend : ∃ st', runActions host (endActions display true st₂.settings.outputFormat) st₂ = .ok st' ∧
        st'.out.doc = t :=
      end_shown hexec₂ (by rw [hset]; exact hchomp) (by rw [hset]; exact hcompress)
        (hact.trans (congrArg Except.ok hst.symm)) (by rw [hset]; exact hsame)
    obtain ⟨st', hend, ht⟩ := hend
    refine ⟨st', ?_, ht⟩
    rw [runMain, hloop]
    simp only [bind, Except.bind, hdone₂]
    exact hend

/-! ## The bytes -/

/-- Printable characters and white space have an encoding, which is decoded again. -/
structure PrintedCodec (loc : Locale) (encode : WStr → Option MbStr) : Prop where
  encodes : ∀ w, Printed loc w → ∃ t, encode w = some t ∧ loc.mbsrtowcs t = some w
  nil : loc.mbsrtowcs [] = some []

/-- The buffer of a text that is not empty is written as the encoding of the text. -/
theorem showOutputPstring_eq {encode : WStr → Option MbStr} {calloc : Nat → Bool} {d : Pstring} {bytes : MbStr}
    (hcontent : d.content = some t) (ht : t ≠ []) (hbytes : encode t = some bytes) (hne : bytes ≠ [])
    (hsize : bytes.length + 1 < 2 ^ 64) (hmem : calloc (bytes.length + 1) = true) :
    Document.showOutputPstring encode calloc (some d) = .ok bytes := by
  have hbuf : d.buf ≠ [] := by
    intro hb
    rw [Pstring.content, if_pos hb] at hcontent
    exact ht (Option.some.inj hcontent).symm
  rw [Pstring.content, if_neg hbuf] at hcontent
  have hsizeT : sizeT (bytes.length + 1) = bytes.length + 1 := Nat.mod_eq_of_lt hsize
  have hroom : ¬ bytes.length + 1 < bytes.length := by omega
  have hgo : ¬ (bytes.length = 0 ∨ calloc (bytes.length + 1) = false) := by simp [hne, hmem]
  simp only [Document.showOutputPstring, Document.pstringToChar, if_neg hbuf, hcontent, access,
    wcharToChar_some hbytes, hsizeT, if_neg hgo, if_neg hroom, bind, Except.bind, pure, Except.pure]

/-- The run on the buffer ends with the buffer of the text, which is written. -/
theorem mainOutput_of_run {print : WStr → Vswprintf} {encode : WStr → Option MbStr} {calloc : Nat → Bool}
    {getenv : String → Option MbStr} {opts : List Opt} {display : Display} {st st' : MainState} {bytes : MbStr}
    (hlib : Document.CLibrary (host.config {}) print) (hz : Document.NoZero display)
    (hstart : startMain host.locale getenv = .ok st) (hrun : runMain host display opts st = .ok st')
    (hdoc : st'.out.doc = t) (ht : t ≠ []) (hbytes : encode t = some bytes) (hne : bytes ≠ [])
    (hsize : bytes.length + 1 < 2 ^ 64) (hmem : calloc (bytes.length + 1) = true) :
    Document.mainOutput host print encode calloc getenv display opts = .ok bytes := by
  obtain ⟨m, hm, hstate⟩ := (Document.startMain_writes getenv).result' hstart
  obtain ⟨m', hm', hshows⟩ :=
    (Document.runMain_shows hlib hz hstate.1.1 hstate.1.2 hstate.2 opts).result' hrun
  obtain ⟨d, hd, hcontent⟩ := hshows.doc
  rw [hdoc] at hcontent
  simp only [Document.mainOutput, hm, hm', hd, bind, Except.bind]
  exact showOutputPstring_eq hcontent ht hbytes hne hsize hmem

/-- Calls that are encoded have no terminator in their values. -/
theorem noZero_encodable {calls : Nat → Routine → Calls} (hcalls : ∀ n r, (calls n r).Encodable cfg) :
    Document.NoZero fun n r => ((calls n r).events, none) := by
  intro n r name value he
  exact (hcalls n r _ he).noZero

/-- The indent character of the document is that of the settings. -/
theorem indentUnit_long {getenv : String → Option MbStr} {os : List LongOption} {st : MainState} {c : Settings}
    (hblank : host.locale.mbsrtowcs (bytes " ") = some [32]) (hstart : startMain host.locale getenv = .ok st)
    (hlong : os.foldlM (LongOption.set host.locale) st.settings = .ok c) :
    (host.config c).indentUnit = c.wideIndentChar := by
  obtain ⟨hcoh, hout, hdone⟩ := startMain_eq hstart
  obtain ⟨b, c', hc', -, hcoh'⟩ := run_long (by rw [hout]) hdone (long_run (by rw [hout]) hdone hlong)
  obtain rfl := Except.ok.inj (hlong.symm.trans hc')
  exact (hcoh' hcoh).indentUnit hblank

/-- **The bytes that a run of `main` writes say what its routines were called with.** The environment and the long
options are any that are accepted and leave JSON or XML as the format and white space as indent character; at
most one display option is given. The bytes are the encoding of a text that says the outline of the calls,
and they are written if there is memory for them. -/
theorem mainOutput_says {print : WStr → Vswprintf} {encode : WStr → Option MbStr} (calloc : Nat → Bool)
    {getenv : String → Option MbStr} {os : List LongOption} (shown : Option Routine)
    {calls : Nat → Routine → Calls} {st : MainState} {c : Settings}
    (hlib : Document.CLibrary (host.config {}) print) (hcodec : PrintedCodec host.locale encode)
    (hloc : host.locale.Standard) (hstart : startMain host.locale getenv = .ok st)
    (hlong : os.foldlM (LongOption.set host.locale) st.settings = .ok c)
    (hexec : st.reexec = true ∨ .exec ∈ os → st.execArgs = none → host.operands ≠ [])
    (hf : c.outputFormat = .json ∨ c.outputFormat = .xml) (ha : 0 ≤ c.indentAmount)
    (hu : Json.isWs c.wideIndentChar = true) (hun : c.wideIndentChar ≠ nl)
    (hcalls : ∀ n r, Reportable (host.config c) (calls n r)) (hne : sequenceCalls calls (called shown) ≠ .nil) :
    ∃ text bytes, encode text = some bytes ∧ host.locale.mbsrtowcs bytes = some text ∧
      (c.outputFormat = .json → SaysJson text ((sequenceCalls calls (called shown)).outline (host.config c))) ∧
      (c.outputFormat = .xml →
        SaysXml text ((sequenceCalls calls (called shown)).outline (host.config c)).erase) ∧
      (bytes.length + 1 < 2 ^ 64 → calloc (bytes.length + 1) = true →
        Document.mainOutput host print encode calloc getenv (fun n r => ((calls n r).events, none))
          (reportOptions os shown) = .ok bytes) := by
  obtain ⟨-, hout, hdone⟩ := startMain_eq hstart
  have hunit : (host.config c).indentUnit = c.wideIndentChar := indentUnit_long hlib.blank hstart hlong
  have hreport := Reportable.sequence hcalls (called shown)
  obtain ⟨o, hdoc, hchomp, hcompress, hodoc, hprinted, hjson, hxml⟩ := document_says
    (show (host.config c).outputFormat = .json ∨ (host.config c).outputFormat = .xml from hf) hloc (hunit ▸ hu)
    (hunit ▸ hun) ha hne hreport.fits hreport.encodable hreport.readable
  rw [hunit] at hchomp hcompress
  obtain ⟨st', hrun, hst'⟩ :=
    runMain_document hout hdone hlong hexec (routineActions_events calls shown) hdoc hchomp
    hcompress fun _ => rfl
  obtain ⟨bytes, hbytes, hback⟩ := hcodec.encodes o.doc hprinted
  have hbne : bytes ≠ [] := by
    rintro rfl
    rw [hcodec.nil] at hback
    exact hodoc (Option.some.inj hback).symm
  refine ⟨o.doc, bytes, hbytes, hback, hjson, hxml, fun hsize hmem => ?_⟩
  exact mainOutput_of_run hlib (noZero_encodable fun n r => (hcalls n r).encodable) hstart hrun hst' hodoc
    hbytes hbne hsize hmem

theorem posixStrings_codec : PrintedCodec Document.posixStrings posixWcstombs where
  nil := rfl
  encodes w hw := by
    have hascii : ∀ c ∈ w, 0 < c.val ∧ c.val < 0x80 := by
      intro c hc
      rcases hw c hc with h | h
      · simp [Document.posixStrings, posixLocale] at h
        omega
      · simp only [Json.isWs, Bool.or_eq_true, decide_eq_true_eq] at h
        rcases h with ((h | h) | h) | h <;> subst h <;> decide
    have hencode : posixWcstombs w = some (w.map fun c => UInt8.ofNat c.val) := by
      rw [posixWcstombs, if_pos (List.all_eq_true.2 fun c hc => decide_eq_true (hascii c hc).2)]
    have hnz : ∀ b ∈ w.map fun c => UInt8.ofNat c.val, decide (b ≠ 0) = true := by
      refine List.forall_mem_map.2 fun c hc => decide_eq_true fun h0 => ?_
      have hval : c.val % 2 ^ 8 = 0 := congrArg UInt8.toNat h0
      have := hascii c hc
      omega
    refine ⟨_, hencode, ?_⟩
    show posixLocale.mbsrtowcs ((w.map fun c => UInt8.ofNat c.val).takeWhile fun b => decide (b ≠ 0)) = some w
    rw [List.takeWhile_eq_self_iff.2 hnz]
    exact (posixLocale_codec.inverse _ w).2 hencode

end Procenv
