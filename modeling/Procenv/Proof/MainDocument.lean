import Procenv.Proof.Finish
import Procenv.Proof.MainIndent
import Procenv.Text.Depth

/-!
# The document of a run of `main`

Every display option writes the header of the document, and there is one footer. The
nesting depth of the text is the number of headers until the footer takes one back:
with a second display option the document is not closed.

* `callsText_nets`: the calls of a routine do not change the depth.
* `loop_opened`: the depth at the end of the option loop is the number of display
  options.
* `main_document`: **the document shown is one JSON text or one XML element exactly if
  there is at most one display option**, and no `--exec` after it that makes the footer
  fail.
-/

namespace Procenv

open Text Text.Depth

variable {host : Host} {display : Display} {st st' : MainState} {c : Settings} {cfg : Config} {s s' : OutState}

/-! ## Documents and their depth -/

/-- One JSON text, or an XML declaration and one element. -/
def OneDocument : OutputFormat → WStr → Prop
  | .json, t => ∃ v, Json.JsonText t v
  | .xml, t => ∃ body e rest, t = xmlDeclaration ++ body ++ rest ∧ Xml.Element body e ∧ Json.Ws rest
  | .text, _ | .crumb, _ => True

/-- The scanner of a format. -/
def scanner : OutputFormat → Mode × Int → CodePoint → Mode × Int
  | .json => Depth.json
  | _ => Depth.xml

theorem declaration_nets : Nets Depth.xml 0 xmlDeclaration := by
  have heq : xmlDeclaration = 0x3C :: 0x3F :: lit "xml version=\"1.0\" encoding=\"UTF-8\"?>\n" := by decide
  rw [heq]
  exact xml_declaration (xml_lit (by decide))

/-- **One document is nested as deep at its end as at its start.** -/
theorem OneDocument.nets {fmt : OutputFormat} (hf : fmt = .json ∨ fmt = .xml) {t : WStr}
    (h : OneDocument fmt t) : Nets (scanner fmt) 0 t := by
  rcases hf with rfl | rfl
  · obtain ⟨v, hv⟩ := h
    exact json_derives hv
  · obtain ⟨body, e, rest, rfl, he, hrest⟩ := h
    have hws : Nets Depth.xml 0 rest := xml_flat fun x hx => by
      rintro rfl
      exact absurd (hrest _ hx) (by decide)
    exact (declaration_nets.append (xml_derives he)).append hws

/-- A comma and what the layout writes. -/
theorem scanner_flat (fmt : OutputFormat) {t : WStr} (h : ∀ x ∈ t, x = 0x2C ∨ Json.isWs x = true) :
    Nets (scanner fmt) 0 t := by
  have hj : Nets Depth.json 0 t := by
    refine json_flat fun x hx => ?_
    refine ⟨?_, ?_, ?_, ?_, ?_⟩ <;> rintro rfl <;> exact absurd (h _ hx) (by decide)
  have hx : Nets Depth.xml 0 t := by
    refine xml_flat fun x hx => ?_
    rintro rfl
    exact absurd (h _ hx) (by decide)
  cases fmt <;> first | exact hj | exact hx

theorem indentText_ws (hu : Json.isWs cfg.indentUnit = true) (k : Int) :
    ∀ x ∈ indentText cfg k, x = 0x2C ∨ Json.isWs x = true := fun x hx =>
  Or.inr (ws_indent hu k x hx)

/-- **The calls of a routine do not change the depth.** -/
theorem callsText_nets (hf : cfg.outputFormat = .json ∨ cfg.outputFormat = .xml) (hloc : cfg.locale.Standard)
    (hu : Json.isWs cfg.indentUnit = true) {calls : Calls} (hfit : calls.fits cfg.outputFormat false)
    (henc : calls.Encodable cfg) (pos : Pos) (k : Int) :
    Nets (scanner cfg.outputFormat) 0 (callsText cfg pos k calls) := by
  by_cases hnil : calls = .nil
  · subst hnil
    exact .nil
  rcases hf with hf | hf
  · rw [hf] at hfit
    obtain ⟨body, hbody, hder⟩ := (calls_derive hf hu hloc calls henc hnil).1 hfit pos k
    have h := json_derives (hder [] [] (by simp [Json.Ws]) (by simp [Json.Ws]))
    rw [List.nil_append, List.append_nil] at h
    have hlead : Nets Depth.json 0 (leadText cfg pos k) := by
      refine scanner_flat .json fun x hx => ?_
      rcases List.mem_append.1 hx with hx | hx
      · cases pos with
        | fresh => simp at hx
        | opened =>
          obtain rfl : x = nl := by simpa using hx
          exact Or.inr rfl
        | after =>
          have : x = 0x2C ∨ x = nl := by simpa [sepLine, hf, lit, CodePoint.ofChar, nl] using hx
          rcases this with rfl | rfl
          · exact Or.inl rfl
          · exact Or.inr rfl
      · exact indentText_ws hu _ x hx
    rw [hf, hbody]
    exact hlead.append h
  · rw [hf] at hfit
    have h1 : cfg.indentUnit ≠ 0x3C := by
      intro h
      rw [h] at hu
      exact absurd hu (by decide)
    have h2 : cfg.indentUnit ≠ 0x26 := by
      intro h
      rw [h] at hu
      exact absurd hu (by decide)
    obtain ⟨lead, ks, -, -, hder⟩ := calls_shown hf hloc.print h1 h2 calls hfit henc pos k
      (show Layout cfg [] by simp [Layout])
    have h := xml_derives hder
    rw [List.append_nil] at h
    rw [hf]
    exact h

/-! ## Header and footer -/

/-- The text of the header that an XML document starts with. -/
theorem xmlHeader_nets : Nets Depth.xml 1 (xmlDeclaration ++ xmlRootOpen cfg) := by
  have hmode : Nets Depth.xml 0 (xmlMode cfg) := by
    unfold xmlMode
    split <;> exact xml_lit (by decide)
  have hstart := xml_start packageName_isName
  have h := declaration_nets.append (hstart.append ((xml_lit (s := lit " version=\"" ++ packageVersion ++
    lit "\" package_string=\"" ++ packageString ++ lit "\" mode=\"") (by decide)).append (hmode.append
      (xml_lit (s := lit "\" format_version=\"" ++ procenvFormatVersion ++ lit "\">\n") (by decide)))))
  simpa [xmlRootOpen, lit, CodePoint.ofChar] using h

/-- A call of a table cell that writes a comma and white space only. -/
def Op.isFlat : Op → Bool
  | .wappend t => t.all fun x => x = 0x2C || Json.isWs x
  | _ => true

/-- A call of a table cell that does not move the indent. -/
def Op.isStill : Op → Bool
  | .incIndent | .decIndent => false
  | _ => true

/-- What one call of such a cell writes. -/
theorem Op.run_flat (ha : 0 ≤ cfg.indentAmount) (hu : Json.isWs cfg.indentUnit = true) {op : Op}
    (hop : op.isFlat = true) (h : Op.run cfg s op = .ok s') :
    (∃ t, (∀ x ∈ t, x = 0x2C ∨ Json.isWs x = true) ∧ s'.doc = s.doc ++ t) ∧
      s'.currentElement = s.currentElement ∧ (op.isStill = true → s'.indent = s.indent) := by
  cases op with
  | wappend t =>
    obtain rfl : s.wappend t = s' := by simpa [Op.run] using h
    exact ⟨⟨t, by simpa [Op.isFlat] using hop, rfl⟩, rfl, fun _ => rfl⟩
  | addIndent =>
    obtain rfl : s.wappend (indentText cfg s.indent) = s' := by simpa [Op.run, addIndent_eq ha] using h
    exact ⟨⟨_, indentText_ws hu _, rfl⟩, rfl, fun _ => rfl⟩
  | incIndent =>
    simp only [Op.run, Procenv.incIndent] at h
    split at h <;> simp only [Except.ok.injEq, reduceCtorEq] at h
    subst h
    exact ⟨⟨[], by simp, by simp⟩, rfl, by simp [Op.isStill]⟩
  | decIndent =>
    simp only [Op.run, Procenv.decIndent] at h
    split at h
    · split at h <;> simp only [Except.ok.injEq, reduceCtorEq] at h
      subst h
      exact ⟨⟨[], by simp, by simp⟩, rfl, by simp [Op.isStill]⟩
    · simp at h
  | notReached fn => simp [Op.run] at h

/-- What a cell writes between two elements. -/
theorem runOps_flat (ha : 0 ≤ cfg.indentAmount) (hu : Json.isWs cfg.indentUnit = true) {ops : List Op}
    (hops : ops.all Op.isFlat = true) (h : runOps cfg ops s = .ok s') :
    (∃ t, (∀ x ∈ t, x = 0x2C ∨ Json.isWs x = true) ∧ s'.doc = s.doc ++ t) ∧
      s'.currentElement = s.currentElement ∧ (ops.all Op.isStill = true → s'.indent = s.indent) := by
  induction ops generalizing s with
  | nil =>
    obtain rfl : s = s' := by simpa [runOps, pure, Except.pure] using h
    exact ⟨⟨[], by simp, by simp⟩, rfl, fun _ => rfl⟩
  | cons op ops ih =>
    rw [List.all_cons, Bool.and_eq_true] at hops
    rw [runOps, List.foldlM_cons] at h
    obtain ⟨s₁, hs₁, h⟩ := Outcome.ok_of_bind h
    obtain ⟨⟨t₁, ht₁, hd₁⟩, he₁, hi₁⟩ := Op.run_flat ha hu hops.1 hs₁
    obtain ⟨⟨t₂, ht₂, hd₂⟩, he₂, hi₂⟩ := ih hops.2 h
    have hdoc : s'.doc = s.doc ++ (t₁ ++ t₂) := by rw [hd₂, hd₁, List.append_assoc]
    refine ⟨⟨t₁ ++ t₂, fun x hx => (List.mem_append.1 hx).elim (ht₁ x) (ht₂ x), hdoc⟩,
      he₂.trans he₁, fun hst => ?_⟩
    rw [List.all_cons, Bool.and_eq_true] at hst
    rw [hi₂ hst.2, hi₁ hst.1]

/-- What the object calls of the header and the footer write. -/
theorem objectEvent_doc (hf : cfg.outputFormat = .json) (ha : 0 ≤ cfg.indentAmount)
    (hu : Json.isWs cfg.indentUnit = true) {element : ElementType} {text : WStr}
    (hel : element = .objectOpen ∨ element = .objectClose) (h : objectEvent cfg element text false s = .ok s') :
    (∃ t, (∀ x ∈ t, x = 0x2C ∨ Json.isWs x = true) ∧ s'.doc = s.doc ++ t ++ text) ∧
      s'.currentElement = element ∧
      (element = .objectOpen → s.currentElement ≠ .containerOpen → s'.indent = s.indent) := by
  simp only [objectEvent, commonAssert_ok ha, hf, bind, Except.bind, Bool.false_eq_true, if_false,
    changeElement_eq ha] at h
  split at h
  · simp at h
  · rename_i s₁ hs₁
    simp only [pure, Except.pure, Except.ok.injEq] at h
    subst h
    have hflat : (elementCell .json s.currentElement element).all Op.isFlat = true := by
      rcases hel with rfl | rfl <;> cases s.currentElement <;> decide
    obtain ⟨⟨t, ht, hd⟩, he, hi⟩ := runOps_flat ha hu hflat hs₁
    refine ⟨⟨t, ht, by simp [OutState.wappend, hd]⟩, he, ?_⟩
    rintro rfl hne
    refine hi ?_
    cases hc : s.currentElement <;> first | decide | exact absurd hc hne

theorem amount_nonneg (h : masterHeader cfg s = .ok s') : 0 ≤ cfg.indentAmount := by
  by_contra hlt
  simp [masterHeader, commonAssert, hlt, bind, Except.bind] at h

/-- The current element is one of the top level. -/
def TopElement (fmt : OutputFormat) (e : ElementType) : Prop := e = .none ∨ ∃ pos, Stands fmt false e pos

theorem TopElement.ne_containerOpen {e : ElementType} (h : TopElement .json e) : e ≠ .containerOpen := by
  rintro rfl
  rcases h with h | ⟨pos, h⟩
  · simp at h
  · cases pos with
    | fresh => simp [Stands] at h
    | opened =>
      obtain ⟨p, hp, hA, -⟩ := h
      cases p <;> simp [Group.openElement, Group.isArray] at hp hA
    | after =>
      rcases h with ⟨h, -⟩ | ⟨g, hg, -⟩
      · simp at h
      · cases g <;> simp [Group.closeElement] at hg

theorem incIndent_eq (cfg : Config) (h : 0 ≤ s.indent) :
    incIndent cfg s = .ok { s with indent := s.indent + cfg.indentAmount } := by
  simp [incIndent, h]

theorem decIndent_doc (h : decIndent cfg s = .ok s') : s'.doc = s.doc := by
  unfold decIndent at h
  split at h
  · split at h
    · simp only [Except.ok.injEq] at h
      rw [← h]
    · simp at h
  · simp at h

section Ends

variable (hf : cfg.outputFormat = .json ∨ cfg.outputFormat = .xml) (hu : Json.isWs cfg.indentUnit = true)

include hf hu

/-- **A header adds one to the depth.** -/
theorem masterHeader_doc (hs : TopElement cfg.outputFormat s.currentElement) (hi : 0 ≤ s.indent)
    (h : masterHeader cfg s = .ok s') :
    (∃ t, Nets (scanner cfg.outputFormat) 1 t ∧ s'.doc = s.doc ++ t) ∧
      (∃ pos, Stands cfg.outputFormat false s'.currentElement pos) ∧ 0 ≤ s'.indent := by
  have ha := amount_nonneg h
  rcases hf with hf | hf
  · rw [hf] at hs
    simp only [masterHeader, commonAssert_ok ha, hf, objectOpen, bind, Except.bind] at h
    obtain ⟨⟨t, ht, hd⟩, he, hind⟩ := objectEvent_doc hf ha hu (Or.inl rfl) h
    have hbrace : Nets Depth.json 1 (lit "\x7b") := fun d => rfl
    refine ⟨⟨t ++ lit "\x7b", ?_, by rw [hd]; simp⟩,
      ⟨.opened, ?_⟩, by rw [hind rfl hs.ne_containerOpen]; exact hi⟩
    · rw [hf]
      exact (scanner_flat .json ht).append hbrace
    · rw [he, hf]
      exact ⟨.object, rfl, rfl, by simp⟩
  · -- the element stays what it was, since the header is no call of the tables
    have hinc := incIndent_eq cfg (s := (s.wappend xmlDeclaration).wappend (xmlRootOpen cfg)) hi
    simp only [masterHeader, commonAssert_ok ha, hf, hinc, bind, Except.bind, Except.ok.injEq] at h
    subst h
    refine ⟨⟨xmlDeclaration ++ xmlRootOpen cfg, by rw [hf]; exact xmlHeader_nets, by simp [OutState.wappend]⟩,
      ?_, ?_⟩
    rotate_left
    · show 0 ≤ s.indent + cfg.indentAmount
      omega
    rcases hs with hs | hs
    · exact ⟨.fresh, hs, by rw [hf]; decide, rfl⟩
    · exact hs

/-- **The footer takes one from the depth**, and ends the document with a newline. -/
theorem masterFooter_doc (ha : 0 ≤ cfg.indentAmount) (h : masterFooter cfg s = .ok s') :
    ∃ t, Nets (scanner cfg.outputFormat) (-1) t ∧ EndsSolid cfg.indentUnit t ∧ s'.doc = s.doc ++ t ++ [nl] := by
  rcases hf with hf | hf
  · simp only [masterFooter, commonAssert_ok ha, hf, objectClose, bind, Except.bind] at h
    split at h
    · simp at h
    · rename_i s₁ hs₁
      simp only [pure, Except.pure, Except.ok.injEq] at h
      subst h
      obtain ⟨⟨t, ht, hd⟩, -, -⟩ := objectEvent_doc hf ha hu (Or.inr rfl) hs₁
      have hbrace : Nets Depth.json (-1) (lit "\x7d") := fun d => rfl
      refine ⟨t ++ lit "\x7d", ?_, endsSolid_of hu (x := 0x7D) (by decide) t, by simp [OutState.wappend, hd]⟩
      rw [hf]
      exact (scanner_flat .json ht).append hbrace
  · simp only [masterFooter, commonAssert_ok ha, hf, bind, Except.bind] at h
    split at h
    · simp at h
    · rename_i s₁ hs₁
      have hdoc : s₁.doc = s.doc ++ [nl] := decIndent_doc hs₁
      simp only [pure, Except.pure, Except.ok.injEq] at h
      subst h
      refine ⟨nl :: xmlRootClose, ?_, (xmlRootClose_ends hu).append [nl], ?_⟩
      · have hclose : Nets Depth.xml (-1) (lit "</") := fun d => rfl
        have h := (xml_lit (s := [nl]) (by decide)).append (hclose.append
          (xml_lit (s := packageName ++ lit ">") (by decide)))
        rw [hf]
        simpa [xmlRootClose, scanner] using h
      · simp [OutState.wappend, hdoc, xmlRootClose, lit, CodePoint.ofChar, nl]

end Ends

/-! ## The option loop -/

/-- What a display routine emits: a call tree of the format's grammar, with names and values that
encode. -/
def Emits (cfg : Config) (es : List Event) : Prop :=
  ∃ calls : Calls, calls.fits cfg.outputFormat false ∧ calls.Encodable cfg ∧
    (if cfg.outputFormat = .json then es else eraseObjects es) = calls.events

theorem Emits.wellNested {es : List Event} (h : Emits cfg es) : WellNested cfg.outputFormat es := by
  obtain ⟨calls, hfit, -, hev⟩ := h
  exact ⟨calls, hfit, hev⟩

/-- The events of a routine run as its call tree. -/
theorem runEvents_emitted (ha : 0 ≤ cfg.indentAmount) {es : List Event} {calls : Calls}
    (hev : (if cfg.outputFormat = .json then es else eraseObjects es) = calls.events) (s : OutState) :
    runEvents cfg es s = runEvents cfg calls.events s := by
  rw [← hev]
  split
  · rfl
  · exact runEvents_eraseObjects ‹_› ha es s

theorem runActions_calls (es : List Event) :
    runActions host (es.map .call) st =
      (runEvents (host.config st.settings) es st.out).map fun out => { st with out } := by
  induction es generalizing st with
  | nil => rfl
  | cons e es ih =>
    rw [List.map_cons, runActions_cons, runEvents_cons]
    cases hs : step (host.config st.settings) st.out e with
    | error x => simp [act, hs, bind, Except.bind, Except.map]
    | ok s₁ =>
      have hact : act host st (.call e) = .ok { st with out := s₁ } := by
        simp [act, hs, bind, Except.bind, pure, Except.pure]
      rw [hact]
      exact ih

/-- The document after `n` headers. The settings are `c` but for the indent amount, which the help text
sets. -/
structure Opened (c : Settings) (n : Nat) (st : MainState) : Prop where
  settings : st.settings.noIndent = c.noIndent
  amount : 0 ≤ st.settings.indentAmount
  done : st.done = true
  nets : Nets (scanner c.outputFormat) n st.out.doc
  stands : ∃ pos, Stands c.outputFormat false st.out.currentElement pos
  indent : 0 ≤ st.out.indent

/-- The number of display options. -/
def displayCount (opts : List Opt) : Nat := opts.countP Opt.isDisplay

theorem displayCount_cons {o : Opt} (h : o.isDisplay = true) (n : Nat) (opts : List Opt) :
    n + displayCount (o :: opts) = n + 1 + displayCount opts := by
  rw [displayCount, List.countP_cons_of_pos h, displayCount]
  omega

section Loop

/-- Settings that differ in the indent amount only have the same format. -/
theorem noIndent_format {c c' : Settings} (h : c'.noIndent = c.noIndent) : c'.outputFormat = c.outputFormat := by
  change c'.noIndent.outputFormat = c.noIndent.outputFormat
  rw [h]

theorem noIndent_unit {c c' : Settings} (h : c'.noIndent = c.noIndent) :
    (host.config c').indentUnit = (host.config c).indentUnit := by
  change (host.config c'.noIndent).indentUnit = (host.config c.noIndent).indentUnit
  rw [h]

theorem noIndent_wide {c c' : Settings} (h : c'.noIndent = c.noIndent)
    (hwide : (host.config c).indentUnit = c.wideIndentChar) :
    (host.config c').indentUnit = c'.wideIndentChar := by
  change (host.config c'.noIndent).indentUnit = c'.noIndent.wideIndentChar
  rw [h]
  exact hwide

theorem noIndent_emits {c c' : Settings} (h : c'.noIndent = c.noIndent) {es : List Event}
    (hes : Emits (host.config c) es) : Emits (host.config c') es := by
  change Emits (host.config c'.noIndent) es
  rw [h]
  exact hes

variable (hf : c.outputFormat = .json ∨ c.outputFormat = .xml) (hloc : host.locale.Standard)
  (hu : Json.isWs (host.config c).indentUnit = true)
  (hdisp : ∀ n r es, display n r = (es, none) → Emits (host.config c) es)

include hf hu

theorem Opened.header {n : Nat} (hset : st.settings.noIndent = c.noIndent) (hdone : st.done = true)
    (hnets : Nets (scanner c.outputFormat) n st.out.doc) (htop : TopElement c.outputFormat st.out.currentElement)
    (hi : 0 ≤ st.out.indent) (h : act host st .masterHeader = .ok st') : Opened c (n + 1) st' := by
  simp only [act, bind, Except.bind, pure, Except.pure] at h
  split at h
  · simp at h
  · rename_i s₁ hs₁
    simp only [Except.ok.injEq] at h
    subst h
    rw [← noIndent_format hset] at hf hnets htop
    rw [← noIndent_unit hset] at hu
    obtain ⟨⟨t, ht, hd⟩, hst, hi'⟩ := masterHeader_doc hf hu htop hi hs₁
    refine ⟨hset, amount_nonneg hs₁, hdone, ?_, noIndent_format hset ▸ hst, hi'⟩
    rw [hd, ← noIndent_format hset]
    exact hnets.append ht

include hloc hdisp

/-- The calls of a routine keep the document open. -/
theorem Opened.routine {n m : Nat} {r : Routine} (hst : Opened c n st)
    (h : runActions host (routineActions display m r) st = .ok st') : Opened c n st' := by
  rcases hd : display m r with ⟨es, _ | ⟨fmt, args⟩⟩
  · obtain ⟨hset, ha, hdone, hnets, ⟨pos, hstands⟩, hi⟩ := hst
    obtain ⟨calls, hfit, henc, hev⟩ := noIndent_emits hset (hdisp m r es hd)
    rw [← noIndent_format hset] at hf hnets hstands
    rw [← noIndent_unit hset] at hu
    obtain ⟨s₁, hrun, hAt⟩ := run_calls ha
      (by rcases hf with hf | hf <;> simp [Host.config, hf])
      (by rcases hf with hf | hf <;> simp [Host.config, hf])
      calls false pos (by simp) hfit henc hstands hi ⟨rfl, rfl, rfl⟩
    rw [routineActions_returns hd, runActions_calls, runEvents_emitted ha hev, hrun] at h
    simp only [Except.map, Except.ok.injEq] at h
    subst h
    refine ⟨hset, ha, hdone, ?_, ?_, ?_⟩
    · show Nets _ _ s₁.doc
      rw [hAt.doc, ← noIndent_format hset]
      have h := callsText_nets hf hloc hu hfit henc pos st.out.indent
      simpa using hnets.append h
    · show ∃ pos, Stands _ _ s₁.currentElement pos
      rw [hAt.current, ← noIndent_format hset]
      by_cases hnil : calls = .nil
      · subst hnil
        exact ⟨pos, hstands⟩
      · exact ⟨.after, stands_after (fun _ => rfl) calls _ hfit (Or.inl hnil)⟩
    · show 0 ≤ s₁.indent
      rw [hAt.indent]
      cases calls with
      | nil => exact hi
      | entry _ _ _ => exact kidIndent_nonneg ha hi pos
      | group _ _ _ => exact kidIndent_nonneg ha hi pos
  · rw [routineActions_dies hd] at h
    obtain ⟨st₁, -, h⟩ := run_of_append h
    simp [runActions, act] at h

/-- **A display option writes one header**, and the other options follow. -/
theorem shown_opened {n m : Nat} {o : Opt} {opts : List Opt} (ho : o.isDisplay = true)
    (hset : st.settings.noIndent = c.noIndent)
    (hnets : Nets (scanner c.outputFormat) n st.out.doc) (htop : TopElement c.outputFormat st.out.currentElement)
    (hi : 0 ≤ st.out.indent) (h : runActions host (loopActions display m (o :: opts)) st = .ok st') :
    ∃ st₁ m', Opened c (n + 1) st₁ ∧ runActions host (loopActions display m' opts) st₁ = .ok st' := by
  -- the header, and the calls of the option, which stay on its depth
  have key : ∀ (as : List Action) (m' : Nat),
      (∀ st₁ st₂, Opened c (n + 1) st₁ → runActions host as st₁ = .ok st₂ → Opened c (n + 1) st₂) →
      loopActions display m (o :: opts) = .setDone :: .masterHeader :: (as ++ loopActions display m' opts) →
      ∃ st₁ m', Opened c (n + 1) st₁ ∧ runActions host (loopActions display m' opts) st₁ = .ok st' := by
    intro as m' has heq
    rw [heq, runActions_cons, show act host st .setDone = .ok { st with done := true } from rfl] at h
    obtain ⟨st₁, -, h₁, h⟩ := run_of_cons h
    have ho₁ := Opened.header hf hu
      (show ({ st with done := true } : MainState).settings.noIndent = c.noIndent from hset) rfl hnets htop hi h₁
    obtain ⟨st₂, h₂, h⟩ := run_of_append h
    exact ⟨st₂, m', has st₁ st₂ ho₁ h₂, h⟩
  cases o with
  | long o => simp [Opt.isDisplay] at ho
  | display r =>
    exact key (routineActions display m r) (m + 1)
      (fun st₁ st₂ ho hr => Opened.routine hf hloc hu hdisp ho hr) (by simp [loopActions])
  | help =>
    refine key [.usage] m (fun st₁ st₂ ho hr => ?_) (by simp [loopActions])
    obtain rfl : { st₁ with settings := st₁.settings.noIndent } = st₂ := Except.ok.inj hr
    exact ⟨ho.settings, Int.le_refl 0, ho.done, ho.nets, ho.stands, ho.indent⟩
  | invalid =>
    refine key [.halt (.die "invalid option '%c' specified" [bytes "?"])] m (fun st₁ st₂ _ hr => ?_)
      (by simp [loopActions])
    simp [runActions, act] at hr

/-- **The depth is the number of headers.** After the first display option the loop accepts only
`--exec` and display options. -/
theorem loop_opened {n m : Nat} {opts : List Opt} (hst : Opened c n st)
    (h : runActions host (loopActions display m opts) st = .ok st') :
    Opened c (n + displayCount opts) st' ∧ ∀ o ∈ opts, o.isDisplay = false → o = .long .exec := by
  induction opts generalizing st n m with
  | nil =>
    obtain rfl : st = st' := by simpa [loopActions, runActions, pure, Except.pure] using h
    exact ⟨hst, by simp⟩
  | cons o opts ih =>
    by_cases ho : o.isDisplay = true
    · obtain ⟨st₁, m', ho₁, h'⟩ := shown_opened hf hloc hu hdisp ho hst.settings hst.nets
        (Or.inr hst.stands) hst.indent h
      obtain ⟨h1, h2⟩ := ih ho₁ h'
      exact ⟨by rw [displayCount_cons ho]; exact h1, by simpa [ho] using h2⟩
    · cases o with
      | display _ | help | invalid => simp [Opt.isDisplay] at ho
      | long o =>
        rw [loopActions, runActions_cons] at h
        -- any other option dies after a display option
        obtain rfl : o = .exec := by
          by_contra hne
          simp [act, hst.done, hne, Except.bind, bind] at h
        have hact : act host st (.long .exec) = .ok { st with reexec := true, out := resetIndent st.out } := by
          simp [act, LongOption.set, bind, Except.bind, pure, Except.pure]
        rw [hact] at h
        have hst₁ : Opened c n { st with reexec := true, out := resetIndent st.out } :=
          ⟨hst.settings, hst.amount, hst.done, hst.nets, hst.stands, Int.le_refl 0⟩
        obtain ⟨h1, h2⟩ := ih hst₁ h
        exact ⟨by simpa [displayCount, Opt.isDisplay] using h1, by simpa [Opt.isDisplay] using h2⟩

end Loop

/-! ## Documents with one header -/

theorem json_shown (hf : cfg.outputFormat = .json) (hloc : cfg.locale.Standard)
    (hu : Json.isWs cfg.indentUnit = true) (hun : cfg.indentUnit ≠ nl) (ha : 0 ≤ cfg.indentAmount) {calls : Calls}
    (hfit : calls.fits .json false) (henc : calls.Encodable cfg) :
    ∃ s, runDocument cfg calls.events = .ok s ∧ pstringChomp cfg.indentUnit s.doc = .ok s.doc ∧
      pstringCompress cfg.indentUnit s.doc = .ok s.doc ∧ OneDocument .json s.doc := by
  obtain ⟨s, hs, hdoc, -⟩ := run_jsonDocument hf ha hfit henc
  have hsolid := json_solid (Or.inl hf) (hloc.cntrl nl (by decide)) hu hun henc 0
  refine ⟨s, hs, ?_, ?_, ?_⟩
  · rw [hdoc]
    exact chomp_settled hsolid.ends
  · rw [hdoc]
    exact compress_settled hsolid.newline
  · have hobj := object_reads hf hu (fun hn => (calls_derive hf hu hloc calls henc hn).1 hfit) 0
    have htext := Json.Derives.element (a := []) (b := [nl]) (by simp [Json.Ws]) hobj (by simp [Json.Ws]; rfl)
    exact ⟨_, by rw [hdoc]; simpa [Json.JsonText] using htext⟩

/-- The root element around its content is a document. -/
theorem xmlRoot_document {lead t rest : WStr} {kids : List (Xml.Elem × List CodePoint)}
    (hder : Xml.Derives (.content lead kids) (nl :: t)) (hrest : Json.Ws rest) :
    OneDocument .xml (xmlDeclaration ++ xmlRootOpen cfg ++ t ++ xmlRootClose ++ rest) := by
  have h := Xml.Derives.elem packageName_isName (rootAttrs_derive cfg) hder
  refine ⟨_, _, rest, ?_, h, hrest⟩
  simp [xmlRootOpen, xmlRootClose, lit, CodePoint.ofChar, nl]

theorem xml_shown (hf : cfg.outputFormat = .xml) (hloc : cfg.locale.Standard)
    (hu : Json.isWs cfg.indentUnit = true) (hun : cfg.indentUnit ≠ nl) (ha : 0 ≤ cfg.indentAmount) {calls : Calls}
    (hfit : calls.fits .xml false) (henc : calls.Encodable cfg) {es : List Event}
    (hev : eraseObjects es = calls.events) :
    ∃ s d, runDocument cfg es = .ok s ∧ pstringChomp cfg.indentUnit s.doc = .ok s.doc ∧
      OneDocument .xml s.doc ∧ pstringCompress cfg.indentUnit s.doc = .ok d ∧ OneDocument .xml d := by
  have h1 : cfg.indentUnit ≠ 0x3C := fun h => absurd (h ▸ hu) (by decide)
  have h2 : cfg.indentUnit ≠ 0x26 := fun h => absurd (h ▸ hu) (by decide)
  obtain ⟨s, hs, hdoc⟩ := run_xmlText hf ha hfit henc hev
  have hnl : Layout cfg [nl] := layout_cons (by simp [Layout])
  have hone : OneDocument .xml s.doc := by
    rw [hdoc]
    obtain ⟨lead, kids, -, -, hder⟩ := calls_shown hf hloc.print h1 h2 calls hfit henc .fresh
      cfg.indentAmount hnl
    have h := @xmlRoot_document cfg _ _ [nl] _ (content_lead (layout_data h1 h2 hnl) hder)
      (by simp [Json.Ws]; rfl)
    rw [xmlHead_eq] at h
    simpa using h
  have hchomp : pstringChomp cfg.indentUnit s.doc = .ok s.doc := by
    have hends := (xmlRootClose_ends hu).append
      (xmlHead cfg ++ nl :: callsText cfg .fresh cfg.indentAmount calls ++ [nl])
    rw [hdoc]
    exact chomp_settled (by simpa using hends)
  by_cases hnil : calls = .nil
  · -- the empty line of a document without calls is removed
    subst hnil
    refine ⟨s, xmlHead cfg ++ nl :: xmlRootClose, hs, hchomp, hone, ?_, ?_⟩
    · have h := compress_blank hun (xmlHead_solid cfg hu) (w := xmlRootClose) (by decide) (xmlRootClose_ends hu)
      rw [hdoc]
      simpa [callsText] using h
    · have h := @xmlRoot_document cfg _ [] [] _ (.contentNil (layout_data h1 h2 hnl)) (by simp [Json.Ws])
      rw [xmlHead_eq] at h
      simpa using h
  · refine ⟨s, s.doc, hs, hchomp, hone, ?_, hone⟩
    rw [hdoc]
    exact compress_settled (xml_solid hf (hloc.cntrl nl (by decide)) hu hun henc hnil _).newline

/-- **The calls of a document are shown as one document**, whether they are compressed or not. -/
theorem document_shown (hf : cfg.outputFormat = .json ∨ cfg.outputFormat = .xml) (hloc : cfg.locale.Standard)
    (hu : Json.isWs cfg.indentUnit = true) (hun : cfg.indentUnit ≠ nl) (ha : 0 ≤ cfg.indentAmount)
    {es : List Event} (hes : Emits cfg es) :
    ∃ s d, runDocument cfg es = .ok s ∧ pstringChomp cfg.indentUnit s.doc = .ok s.doc ∧
      OneDocument cfg.outputFormat s.doc ∧ pstringCompress cfg.indentUnit s.doc = .ok d ∧
      OneDocument cfg.outputFormat d := by
  obtain ⟨calls, hfit, henc, hev⟩ := hes
  rcases hf with hf | hf
  · rw [if_pos hf] at hev
    obtain rfl : calls.events = es := hev.symm
    rw [hf] at hfit ⊢
    obtain ⟨s, hs, hchomp, hcompress, hone⟩ := json_shown hf hloc hu hun ha hfit henc
    exact ⟨s, s.doc, hs, hchomp, hone, hcompress, hone⟩
  · rw [if_neg (by simp [hf])] at hev
    rw [hf] at hfit ⊢
    exact xml_shown hf hloc hu hun ha hfit henc hev

/-! ## Settings -/

/-- `wide_indent_char` is the indent character. -/
def Coherent (loc : Locale) (c : Settings) : Prop := loc.mbsrtowcs c.indentChar = some [c.wideIndentChar]

theorem handleIndentChar_coherent {loc : Locale} {c c' : Settings} (h : handleIndentChar loc c = .ok c') :
    Coherent loc c' := by
  unfold handleIndentChar at h
  split at h
  · rename_i w hw
    simp only [Except.ok.injEq] at h
    rw [← h]
    exact hw
  · simp at h

theorem set_coherent {loc : Locale} {c c' : Settings} {o : LongOption} (hc : Coherent loc c)
    (h : o.set loc c = .ok c') : Coherent loc c' := by
  cases o with
  | indentChar optarg => exact handleIndentChar_coherent h
  | output optarg =>
    simp only [LongOption.set, setOutputValue] at h
    split at h <;> simp only [Except.ok.injEq, reduceCtorEq] at h
    exact h ▸ hc
  | format optarg =>
    simp only [LongOption.set, setOutputFormat] at h
    split at h <;> simp only [Except.ok.injEq, reduceCtorEq] at h
    exact h ▸ hc
  | indent optarg =>
    simp only [LongOption.set] at h
    split at h <;> simp only [Except.ok.injEq, reduceCtorEq] at h
    exact h ▸ hc
  | file _ | fileAppend | exec | separator _ | crumbSeparator _ =>
    simp only [LongOption.set, Except.ok.injEq] at h
    exact h ▸ hc

/-- The state before the option loop. -/
theorem startMain_eq {getenv : String → Option MbStr} (h : startMain host.locale getenv = .ok st) :
    Coherent host.locale st.settings ∧ st.out = {} ∧ st.done = false := by
  obtain ⟨c, hc, rfl⟩ := start_of_startMain h
  obtain ⟨c₀, -, hc₀⟩ := Outcome.ok_of_bind hc
  exact ⟨handleIndentChar_coherent hc₀, rfl, rfl⟩

/-- The settings that a sequence of non-display options leaves. -/
theorem run_long {os : List LongOption} (hout : st.out.indent = 0) (hdone : st.done = false)
    (h : runActions host (os.map .long) st = .ok st') :
    ∃ b c, os.foldlM (LongOption.set host.locale) st.settings = .ok c ∧
      st' = { st with settings := c, reexec := b } ∧
      (Coherent host.locale st.settings → Coherent host.locale c) := by
  induction os generalizing st with
  | nil =>
    obtain rfl : st = st' := by simpa [runActions, pure, Except.pure] using h
    exact ⟨st.reexec, st.settings, rfl, rfl, id⟩
  | cons o os ih =>
    rw [List.map_cons, runActions_cons] at h
    cases ho : o.set host.locale st.settings with
    | error e => simp [act, hdone, ho, bind, Except.bind] at h
    | ok c₁ =>
      have hact : act host st (.long o) =
          .ok { st with settings := c₁, reexec := st.reexec || o = .exec } := by
        simp [act, hdone, ho, bind, Except.bind, pure, Except.pure, resetIndent_eq hout]
      rw [hact] at h
      obtain ⟨b, c, hc, hst', hcoh⟩ := @ih { st with settings := c₁, reexec := st.reexec || o = .exec }
        hout hdone h
      refine ⟨b, c, ?_, hst', fun h0 => hcoh (set_coherent h0 ho)⟩
      rw [List.foldlM_cons, ho]
      exact hc

/-- The loop after the non-display options at its start. -/
theorem loop_long {os : List LongOption} {rest : List Opt} {st₁ : MainState} (hout : st.out = {})
    (hdone : st.done = false)
    (h : runActions host (loopActions display 0 (os.map .long ++ rest)) st = .ok st₁) :
    ∃ t : MainState, t.out = {} ∧ t.done = false ∧
      (Coherent host.locale st.settings → Coherent host.locale t.settings) ∧
      runActions host (loopActions display 0 rest) t = .ok st₁ := by
  rw [loopActions_long] at h
  obtain ⟨st₀, h₀, h⟩ := run_of_append h
  obtain ⟨b, c, -, rfl, hcoh⟩ := run_long (by rw [hout]) hdone h₀
  exact ⟨{ st with settings := c, reexec := b }, hout, hdone, hcoh, h⟩

/-- After a display option the settings stay, but for the indent amount. -/
theorem act_settings {a : Action} (hdone : st.done = true) (h : Acted host a st st') :
    st'.settings.noIndent = st.settings.noIndent := by
  have hset := h.settings
  cases a with
  | long o =>
    obtain rfl := h.late hdone o rfl
    simp only [Action.set, LongOption.set, Except.ok.injEq] at hset
    rw [hset]
  | usage =>
    simp only [Action.set, Except.ok.injEq] at hset
    rw [← hset]
    rfl
  | setDone | masterHeader | call _ | halt _ | masterFooter | checkExec | chomp | compress =>
    simp only [Action.set, Except.ok.injEq] at hset
    rw [hset]

theorem runActions_settings {as : List Action} (hdone : st.done = true) (h : runActions host as st = .ok st') :
    st'.settings.noIndent = st.settings.noIndent := by
  induction as generalizing st with
  | nil => rw [run_of_nil h]
  | cons a as ih =>
    obtain ⟨t, ht, -, h'⟩ := run_of_cons h
    rw [ih (by rw [ht.done, hdone]; rfl) h', act_settings hdone ht]

/-- What a display option shows about the settings: they stay but for the indent amount, which is not
negative before. -/
theorem loop_settings {o : Opt} {rest : List Opt} {m : Nat} (ho : o.isDisplay = true)
    (h : runActions host (loopActions display m (o :: rest)) st = .ok st') :
    st'.settings.noIndent = st.settings.noIndent ∧ 0 ≤ st.settings.indentAmount := by
  obtain ⟨as, has⟩ : ∃ as, loopActions display m (o :: rest) = .setDone :: .masterHeader :: as := by
    cases o with
    | long o => simp [Opt.isDisplay] at ho
    | display r => exact ⟨_, rfl⟩
    | help => exact ⟨_, rfl⟩
    | invalid => exact ⟨_, rfl⟩
  rw [has, runActions_cons, show act host st .setDone = .ok { st with done := true } from rfl] at h
  simp only [Except.bind] at h
  have hset := runActions_settings (show ({ st with done := true } : MainState).done = true from rfl) h
  refine ⟨hset, ?_⟩
  -- the header asserts that the amount is not negative
  obtain ⟨st₁, -, h₁, -⟩ := run_of_cons h
  obtain ⟨s₁, hs₁, -⟩ := Outcome.ok_of_bind h₁
  exact amount_nonneg hs₁

/-! ## The end of a run -/

theorem checkExec_eq (st : MainState) (h : st.reexec = true → st.execArgs = none → host.operands ≠ []) :
    ∃ args, act host st .checkExec = .ok { st with execArgs := args } := by
  by_cases hr : st.reexec = true ∧ st.execArgs = none
  · exact ⟨some host.operands, by simp [act, hr.1, hr.2, h hr.1 hr.2]⟩
  · refine ⟨st.execArgs, ?_⟩
    have h1 : ¬ (st.reexec = true ∧ st.execArgs = none ∧ host.operands = []) := fun h => hr ⟨h.1, h.2.1⟩
    simp only [act, if_neg h1, if_neg hr]

/-- The indent character of the document is `wide_indent_char`. -/
theorem Coherent.indentUnit (h : Coherent host.locale c)
    (hblank : host.locale.mbsrtowcs (bytes " ") = some [32]) :
    (host.config c).indentUnit = c.wideIndentChar := by
  unfold Config.indentUnit Host.config
  dsimp only
  split
  · rename_i heq
    unfold Coherent at h
    rw [heq, hblank] at h
    simpa using h
  · rfl

/-- The header, the calls of a routine and the footer are a document. -/
theorem runActions_document (host : Host) (st : MainState) (hout : st.out = {}) (es : List Event) :
    runActions host (.masterHeader :: (es.map .call ++ [.masterFooter])) st =
      (runDocument (host.config st.settings) es).map fun out => { st with out } := by
  rw [runActions_cons]
  cases h₁ : masterHeader (host.config st.settings) {} with
  | error e => simp [act, hout, h₁, runDocument, bind, Except.bind, Except.map]
  | ok s₁ =>
    have hact : act host st .masterHeader = .ok { st with out := s₁ } := by
      simp [act, hout, h₁, bind, Except.bind, pure, Except.pure]
    rw [hact]
    simp only [Except.bind]
    rw [runActions_append, runActions_calls]
    simp only [runDocument, h₁, bind, Except.bind]
    cases runEvents (host.config st.settings) es s₁ with
    | error e => rfl
    | ok s₂ =>
      simp only [Except.map, runActions, List.foldlM_cons, List.foldlM_nil, act, bind,
        Except.bind, pure, Except.pure]
      cases masterFooter (host.config st.settings) s₂ <;> rfl

theorem Emits.append {es es' : List Event} (h : Emits cfg es) (h' : Emits cfg es') : Emits cfg (es ++ es') := by
  obtain ⟨calls, hfit, henc, hev⟩ := h
  obtain ⟨calls', hfit', henc', hev'⟩ := h'
  refine ⟨calls.append calls', Calls.fits_append hfit hfit', fun e he => ?_, ?_⟩
  · rw [Calls.events_append, List.mem_append] at he
    exact he.elim (henc e) (henc' e)
  · rw [Calls.events_append, ← hev, ← hev']
    split
    · rfl
    · simp [eraseObjects]

theorem Emits.nil : Emits cfg [] :=
  ⟨.nil, rfl, by simp [Calls.Encodable, Calls.events], by simp [eraseObjects, Calls.events]⟩

theorem dump_emits (hdisp : ∀ n r, ∃ es, display n r = (es, none) ∧ Emits cfg es) (rs : List Routine) (n : Nat) :
    ∃ es, dumpCalls display n rs = es.map .call ∧ Emits cfg es := by
  induction rs generalizing n with
  | nil => exact ⟨[], rfl, .nil⟩
  | cons r rs ih =>
    obtain ⟨es, hes, hem⟩ := hdisp n r
    obtain ⟨es', hes', hem'⟩ := ih (n + 1)
    exact ⟨es ++ es', by simp [dumpCalls, routineActions_returns hes, hes'], hem.append hem'⟩

theorem shown_emits (hdisp : ∀ n r, ∃ es, display n r = (es, none) ∧ Emits cfg es) (r : Routine) :
    routineActions display 0 r = (shownEvents display (.display r)).map .call ∧
      Emits cfg (shownEvents display (.display r)) := by
  obtain ⟨es, hes, hem⟩ := hdisp 0 r
  simp [shownEvents, routineActions_returns hes, hes, hem]

/-! ## Whole runs -/

/-- At most one display option is given, and `--exec` after it resets no indent that the footer takes
back. The indent amount, which the environment may set to anything, is not negative. -/
def OneHeader (display : Display) (c : Settings) (opts : List Opt) : Prop :=
  0 ≤ c.indentAmount ∧ ∃ os shown n, opts = optionSequence os shown n ∧ (∀ o ∈ shown, o.isDisplay = true) ∧
    (c.indentAmount = 0 ∨ ExecHarmless display c.outputFormat shown n)

/-- The end of a run whose footer ends one document. -/
theorem end_document (display : Display) (hf : st.settings.outputFormat = .json ∨ st.settings.outputFormat = .xml)
    (hfoot : masterFooter (host.config st.settings) st.out = .ok s)
    (hchomp : pstringChomp st.settings.wideIndentChar s.doc = .ok s.doc)
    (hone : OneDocument st.settings.outputFormat s.doc)
    (hexec : st.reexec = true → st.execArgs = none → host.operands ≠ []) :
    ∃ st₂, runActions host (endActions display true st.settings.outputFormat) st = .ok st₂ ∧
      OneDocument st.settings.outputFormat st₂.out.doc := by
  obtain ⟨args, hargs⟩ := checkExec_eq { st with out := s } hexec
  have hshape : endActions display true st.settings.outputFormat = [.masterFooter, .chomp, .checkExec] := by
    rcases hf with hf | hf <;> simp [endActions, compressActions, hf]
  have h₁ : act host st .masterFooter = .ok { st with out := s } := by
    simp [act, hfoot, bind, Except.bind, pure, Except.pure]
  have h₂ : act host { st with out := s } .chomp = .ok { st with out := s } := by
    simp [act, hchomp, bind, Except.bind, pure, Except.pure]
  refine ⟨{ st with out := s, execArgs := args }, ?_, hone⟩
  rw [hshape, runActions_cons, h₁]
  simp only [Except.bind]
  rw [runActions_cons, h₂]
  simp only [Except.bind]
  rw [runActions_cons, hargs]
  rfl

/-- The header with another indent amount differs in the indent only. -/
theorem masterHeader_noIndent (hf : c.outputFormat = .json ∨ c.outputFormat = .xml)
    (h : masterHeader (host.config c) {} = .ok s) :
    masterHeader (host.config c.noIndent) {} = .ok (resetIndent s) ∧ (c.outputFormat = .json → s.indent = 0) ∧
      0 ≤ s.indent := by
  have ha := amount_nonneg h
  have ha' : 0 ≤ c.indentAmount := ha
  rcases hf with hf | hf
  · simp only [masterHeader, commonAssert_ok ha, objectOpen, objectEvent, changeElement_eq ha] at h
    simp [Host.config, hf, elementCell, jsonCell, runOps, Op.run, addIndent, commonAssert, ha',
      bind, Except.bind, pure, Except.pure, OutState.wappend] at h
    rw [← h]
    simp [masterHeader, commonAssert, objectOpen, objectEvent, changeElement, formatElement, Host.config,
      Settings.noIndent, hf, elementCell, jsonCell, runOps, Op.run, addIndent, resetIndent,
      bind, Except.bind, pure, Except.pure, OutState.wappend]
  · simp [masterHeader, commonAssert, Host.config, hf, incIndent, OutState.wappend, ha', bind, Except.bind] at h
    rw [← h]
    simp [masterHeader, commonAssert, Host.config, Settings.noIndent, hf, incIndent,
      OutState.wappend, resetIndent, xmlRootOpen, xmlMode, ha', bind, Except.bind]

/-- So does the footer, where it takes nothing back. -/
theorem masterFooter_noIndent (hf : c.outputFormat = .json ∨ c.outputFormat = .xml)
    (hj : c.outputFormat = .json → s.indent = 0) (hi : 0 ≤ s.indent)
    (h : masterFooter (host.config c.noIndent) (resetIndent s) = .ok s') :
    ∃ s₂, masterFooter (host.config c.noIndent) s = .ok s₂ ∧ s₂.doc = s'.doc := by
  rcases hf with hf | hf
  · rw [resetIndent_eq (hj hf)] at h
    exact ⟨s', h, rfl⟩
  · simp [masterFooter, commonAssert, Host.config, Settings.noIndent, hf, decIndent,
      OutState.wappend, resetIndent, bind, Except.bind, pure, Except.pure] at h
    rw [← h]
    simp [masterFooter, commonAssert, Host.config, Settings.noIndent, hf, decIndent, OutState.wappend, hi, bind,
      Except.bind, pure, Except.pure]

theorem emits_of_ok (hdisp : ∀ n r, ∃ es, display n r = (es, none) ∧ Emits cfg es) {n : Nat} {r : Routine}
    {es : List Event} (hes : display n r = (es, none)) : Emits cfg es := by
  obtain ⟨es', hes', hem⟩ := hdisp n r
  rwa [(Prod.mk.inj (hes.symm.trans hes')).1]

theorem nested_of_emits (hdisp : ∀ n r, ∃ es, display n r = (es, none) ∧ Emits cfg es) (n : Nat) (r : Routine) :
    NestedRoutine cfg.outputFormat (display n r) := by
  obtain ⟨es, hes, hem⟩ := hdisp n r
  rw [hes]
  exact hem.wellNested

section Runs

variable (hf : c.outputFormat = .json ∨ c.outputFormat = .xml)
  (hu : Json.isWs (host.config c).indentUnit = true) (hwide : (host.config c).indentUnit = c.wideIndentChar)

include hf hu hwide

/-- The end of a run with display options takes one from the depth. -/
theorem end_nets {n : Nat} (hst : Opened c n st) (hset : st.settings = c)
    (h : runActions host (endActions display true c.outputFormat) st = .ok st') :
    Nets (scanner c.outputFormat) (n + -1) st'.out.doc := by
  subst hset
  obtain ⟨-, ha, -, hnets, -, -⟩ := hst
  have hshape : endActions display true st.settings.outputFormat = [.masterFooter, .chomp, .checkExec] := by
    rcases hf with hf | hf <;> simp [endActions, compressActions, hf]
  rw [hshape, runActions_cons] at h
  simp only [act, bind, Except.bind, pure, Except.pure] at h
  cases hfoot : masterFooter (host.config st.settings) st.out with
  | error e => simp [hfoot] at h
  | ok s₁ =>
    obtain ⟨t, ht, hends, hdoc⟩ := masterFooter_doc hf hu ha hfoot
    have hchomp : pstringChomp st.settings.wideIndentChar s₁.doc = .ok s₁.doc := by
      rw [← hwide, hdoc]
      exact chomp_settled (hends.append _)
    simp only [hfoot] at h
    rw [runActions_cons, act] at h
    simp only [hchomp, bind, Except.bind, pure, Except.pure] at h
    -- chomping leaves the document as it is, and `--exec` does not touch it
    have hnl : Nets (scanner st.settings.outputFormat) 0 [nl] := scanner_flat _ (by simp; decide)
    have hout : st'.out = s₁ := by
      simp only [runActions, List.foldlM_cons, List.foldlM_nil, act, bind, Except.bind, pure, Except.pure] at h
      split at h
      · simp at h
      · rename_i st₁ hst₁
        simp only [Except.ok.injEq] at h
        subst h
        split at hst₁
        · simp at hst₁
        · split at hst₁ <;> simp only [Except.ok.injEq] at hst₁ <;> rw [← hst₁]
    rw [hout, hdoc]
    simpa using (hnets.append ht).append hnl

variable (hloc : host.locale.Standard) (hun : (host.config c).indentUnit ≠ nl) (ha : 0 ≤ c.indentAmount)
  (hdisp : ∀ n r, ∃ es, display n r = (es, none) ∧ Emits (host.config c) es)

include hloc hun ha hdisp

/-- **Without display option everything is shown, as one document.** -/
theorem dump_document (hset : st.settings = c) (hout : st.out = {})
    (hexec : st.reexec = true → st.execArgs = none → host.operands ≠ []) :
    ∃ st₂, runActions host (endActions display false c.outputFormat) st = .ok st₂ ∧
      OneDocument c.outputFormat st₂.out.doc := by
  subst hset
  obtain ⟨es, hes, hem⟩ := dump_emits hdisp dumpRoutines 0
  obtain ⟨args, hargs⟩ := checkExec_eq st hexec
  obtain ⟨s, d, hrun, hchomp, -, hcomp, hone⟩ := document_shown hf hloc hu hun ha hem
  have hshape : endActions display false st.settings.outputFormat =
      .checkExec :: ((.masterHeader :: (es.map .call ++ [.masterFooter])) ++ [.chomp, .compress]) := by
    simp [endActions, dumpActions, hes]
  have hdoc := runActions_document host { st with execArgs := args } hout es
  rw [hrun] at hdoc
  rw [hwide] at hchomp hcomp
  refine ⟨{ st with execArgs := args, out := { s with doc := d } }, ?_, hone⟩
  rw [hshape, runActions_cons, hargs]
  simp only [Except.bind]
  rw [runActions_append, hdoc]
  simp [Except.map, Except.bind, runActions, act, hchomp, hcomp, bind, pure, Except.pure]

/-- **A display option without harm from `--exec` shows one document.** -/
theorem shown_document {r : Routine} (hset : st.settings = c) (hout : st.out = {}) {n : Nat}
    (hharm : c.indentAmount = 0 ∨ ExecHarmless display c.outputFormat (some (.display r)) n)
    (h : runActions host (loopActions display 0 (.display r :: List.replicate n (.long .exec))) st = .ok st')
    (hexec : st'.reexec = true → st'.execArgs = none → host.operands ≠ []) :
    ∃ st₂, runActions host (endActions display true c.outputFormat) st' = .ok st₂ ∧
      OneDocument c.outputFormat st₂.out.doc := by
  have hnest : ∀ n r, NestedRoutine c.outputFormat (display n r) := nested_of_emits hdisp
  obtain ⟨hacts, hem⟩ := shown_emits hdisp r
  obtain ⟨st₁, hrun₁, ⟨hbet, hnil, -⟩, rfl⟩ := (loop_shown ha hnest hset (by rw [hout]; rfl) r n).2 st' h
  -- the indent that `--exec` resets is zero
  have hreset : n ≠ 0 → resetIndent st₁.out = st₁.out := by
    intro hn
    refine resetIndent_eq ?_
    have hstart : c.outputFormat = .json → (startCursor (host.config c)).indent = 0 := by
      intro hj
      simp [startCursor, Host.config, hj]
    rcases hharm with h0 | hharm | hharm | hharm | hharm
    · rcases hf with hf | hf
      · rcases hbet.top.json hf with h | h
        · exact congrArg Cursor.indent h
        · exact h.2.trans h0
      · exact (hbet.top.xml hf).trans h0
    · exact absurd hharm hn
    · rcases hf with hf | hf <;> simp [hf] at hharm
    · rcases hf with hf | hf <;> simp [hf] at hharm
    · rw [← hstart (hharm _ rfl).1, ← hnil (hharm _ rfl).2]
      rfl
  obtain ⟨s, -, hrun, hchomp, hone, -, -⟩ := document_shown hf hloc hu hun ha hem
  -- the footer ends the document that the header and the calls have begun
  have hfoot : masterFooter (host.config c) st₁.out = .ok s := by
    have hdoc := runActions_document host { st with done := true } hout
      (shownEvents display (.display r))
    rw [← hacts, ← List.cons_append, show Action.masterHeader :: routineActions display 0 r =
      [.masterHeader] ++ routineActions display 0 r from rfl, runActions_append, hrun₁] at hdoc
    subst hset
    rw [hrun] at hdoc
    simp only [Except.bind, runActions, List.foldlM_cons, List.foldlM_nil, act, hbet.settings, bind, pure,
      Except.pure, Except.map] at hdoc
    cases hm : masterFooter (host.config st.settings) st₁.out with
    | error e => simp [hm] at hdoc
    | ok s' =>
      simp only [hm, Except.ok.injEq] at hdoc
      have := congrArg MainState.out hdoc
      exact congrArg Except.ok this
  rw [hwide] at hchomp
  have hout' : (if n = 0 then st₁ else { st₁ with reexec := true, out := resetIndent st₁.out }).out =
    st₁.out := by
    split
    · rfl
    · exact hreset ‹_›
  have hset' : (if n = 0 then st₁ else { st₁ with reexec := true, out := resetIndent st₁.out }).settings = c := by
    split <;> exact hbet.settings
  generalize (if n = 0 then st₁ else { st₁ with reexec := true, out := resetIndent st₁.out }) = t
    at hexec hout' hset' ⊢
  subst hset'
  exact end_document display hf (hout' ▸ hfoot) hchomp hone hexec

omit hdisp in
/-- **The help text shows an empty document.** -/
theorem help_document (hset : st.settings = c) (hout : st.out = {}) {n : Nat}
    (h : runActions host (loopActions display 0 (.help :: List.replicate n (.long .exec))) st = .ok st')
    (hexec : st'.reexec = true → st'.execArgs = none → host.operands ≠ []) :
    st'.settings = c.noIndent ∧ ∃ st₂, runActions host (endActions display true c.outputFormat) st' = .ok st₂ ∧
      OneDocument c.outputFormat st₂.out.doc := by
  obtain ⟨st₁, hrun₁, ⟨hset₁, -⟩, rfl⟩ := (loop_help ha hset (by rw [hout]; rfl) n).2 st' h
  -- the header that the footer ends, and the one that it would end with the amount 0
  obtain ⟨s₁, hhead, hs₁⟩ : ∃ s₁, masterHeader (host.config c) {} = .ok s₁ ∧ st₁.out = s₁ := by
    simp only [List.cons_append, List.nil_append, runActions_cons, act, hset, hout, bind, Except.bind, pure,
      Except.pure] at hrun₁
    cases hm : masterHeader (host.config c) {} with
    | error e => simp [hm] at hrun₁
    | ok s₁ =>
      rw [hm] at hrun₁
      exact ⟨s₁, rfl, (congrArg MainState.out (Except.ok.inj hrun₁)).symm⟩
  obtain ⟨hhead₀, hj, hi⟩ := masterHeader_noIndent hf hhead
  obtain ⟨s, -, hrun, hchomp, hone, -, -⟩ := document_shown
    (show (host.config c.noIndent).outputFormat = .json ∨
      (host.config c.noIndent).outputFormat = .xml from hf) hloc hu hun
    (Int.le_refl 0) .nil
  have hfoot : masterFooter (host.config c.noIndent) (resetIndent s₁) = .ok s := by
    simpa [runDocument, hhead₀, runEvents, bind, Except.bind, pure, Except.pure] using hrun
  have hunit : (host.config c.noIndent).indentUnit = c.noIndent.wideIndentChar := hwide
  rw [hunit] at hchomp
  obtain ⟨s₂, hfoot₂, hdoc⟩ : ∃ s₂, masterFooter (host.config c.noIndent)
      (if n = 0 then st₁ else { st₁ with reexec := true, out := resetIndent st₁.out }).out = .ok s₂ ∧
      s₂.doc = s.doc := by
    split
    · rw [hs₁]
      exact masterFooter_noIndent hf hj hi hfoot
    · rw [hs₁]
      exact ⟨s, hfoot, rfl⟩
  have hset₂ : (if n = 0 then st₁ else { st₁ with reexec := true, out := resetIndent st₁.out }).settings =
      c.noIndent := by
    split <;> exact hset₁
  generalize (if n = 0 then st₁ else { st₁ with reexec := true, out := resetIndent st₁.out }) = t
    at hexec hfoot₂ hset₂ ⊢
  refine ⟨hset₂, ?_⟩
  have hend := end_document display (by rw [hset₂]; exact hf)
    (by rw [hset₂]; exact hfoot₂) (by rw [hset₂, hdoc]; exact hchomp) (by rw [hset₂, hdoc]; exact hone) hexec
  rw [hset₂] at hend
  exact hend

end Runs

theorem loop_valid {o : Opt} {rest : List Opt} {m : Nat}
    (h : runActions host (loopActions display m (o :: rest)) st = .ok st') : o ≠ .invalid := by
  rintro rfl
  rw [loopActions, runActions_append] at h
  simp only [runActions, List.foldlM_cons, act, bind, Except.bind, pure, Except.pure] at h
  cases hm : masterHeader (host.config st.settings) st.out <;> simp [hm] at h

/-- A display routine and `--exec` leave the settings. -/
theorem display_settings {r : Routine} {n : Nat} (ha : 0 ≤ st.settings.indentAmount)
    (hnest : ∀ n r, NestedRoutine st.settings.outputFormat (display n r)) (hout : st.out = {})
    (h : runActions host (loopActions display 0 (.display r :: List.replicate n (.long .exec))) st = .ok st') :
    st'.settings = st.settings := by
  obtain ⟨st₁, -, ⟨hb, -, -⟩, rfl⟩ := (loop_shown ha hnest rfl (by rw [hout]; rfl) r n).2 st' h
  rw [← hb.settings]
  split <;> rfl

/-- A run that shows a document after a display option has not been harmed by `--exec`. -/
theorem harmless_of_shown {r : Routine} {n : Nat} {st₂ : MainState} (ha : 0 ≤ c.indentAmount)
    (hnest : ∀ n r, NestedRoutine c.outputFormat (display n r))
    (hf : c.outputFormat = .json ∨ c.outputFormat = .xml) (hset : st.settings = c) (hout : st.out = {})
    (h : runActions host (loopActions display 0 (.display r :: List.replicate n (.long .exec))) st = .ok st')
    (hrun : runActions host (endActions display true c.outputFormat) st' = .ok st₂) :
    c.indentAmount = 0 ∨ ExecHarmless display c.outputFormat (some (.display r)) n := by
  by_contra hcon
  simp only [ExecHarmless, not_or, not_forall] at hcon
  obtain ⟨ha0, hn, -, -, o', ho', hne⟩ := hcon
  obtain rfl : .display r = o' := by simpa using ho'
  obtain ⟨st₁, -, ⟨hbet, -, hafter⟩, rfl⟩ :=
    (loop_shown ha hnest hset (by rw [hout]; rfl) r n).2 st' h
  rw [if_neg hn] at hrun
  have hform : c.outputFormat = .xml ∨
      c.outputFormat = .json ∧ Stands .json false st₁.out.currentElement .after := by
    rcases hf with hf | hf
    · exact Or.inr ⟨hf, hafter hf fun he => hne ⟨hf, he⟩⟩
    · exact Or.inl hf
  have hpos : 0 < (host.config c).indentAmount := by
    show 0 < c.indentAmount
    omega
  have hfail := masterFooter_fails (s := resetIndent st₁.out) hpos rfl hform
  rw [endActions, if_pos rfl, List.append_assoc, List.cons_append, runActions_cons] at hrun
  simp [act, hbet.settings, hfail, bind, Except.bind] at hrun

/-- After a display option a document is shown only if `--exec` alone follows, and does no harm. -/
theorem header_of_document {st₂ : MainState} {o : Opt} {rest : List Opt}
    (hf : st'.settings.outputFormat = .json ∨ st'.settings.outputFormat = .xml) (hloc : host.locale.Standard)
    (hu : Json.isWs (host.config st'.settings).indentUnit = true)
    (hwide : (host.config st'.settings).indentUnit = st'.settings.wideIndentChar)
    (hdisp : ∀ n r, ∃ es, display n r = (es, none) ∧ Emits (host.config st'.settings) es)
    (ho : o.isDisplay = true) (hout : st.out = {})
    (h : runActions host (loopActions display 0 (o :: rest)) st = .ok st')
    (hrun : runActions host (endActions display st'.done st'.settings.outputFormat) st' = .ok st₂)
    (hone : OneDocument st'.settings.outputFormat st₂.out.doc) :
    0 ≤ st'.settings.indentAmount ∧ ∃ n, rest = List.replicate n (.long .exec) ∧
      (st'.settings.indentAmount = 0 ∨ ExecHarmless display st'.settings.outputFormat (some o) n) := by
  obtain ⟨hset, ha⟩ := loop_settings ho h
  -- the depth at the end is the number of the other display options
  have hemits : ∀ n r es, display n r = (es, none) → Emits (host.config st'.settings) es :=
    fun n r es hes => emits_of_ok hdisp hes
  obtain ⟨st₀, m, hop, hrest⟩ := shown_opened (n := 0) hf hloc hu hemits ho hset.symm
    (by rw [hout]; exact .nil) (Or.inl (by rw [hout])) (Int.le_of_eq (by rw [hout])) h
  obtain ⟨hop₁, hexecs⟩ := loop_opened hf hloc hu hemits hop hrest
  rw [hop₁.done] at hrun
  have hcount := (end_nets hf hu hwide hop₁ rfl hrun).unique (hone.nets hf)
  have hzero : ∀ o' ∈ rest, o'.isDisplay ≠ true := by
    refine List.countP_eq_zero.1 (?_ : displayCount rest = 0)
    omega
  obtain ⟨n, rfl⟩ : ∃ n, rest = List.replicate n (.long .exec) :=
    ⟨rest.length, List.eq_replicate_iff.2 ⟨rfl, fun o' ho' => hexecs o' ho' (by simpa using hzero o' ho')⟩⟩
  refine ⟨hop₁.amount, n, rfl, ?_⟩
  match o with
  | .help =>
    obtain ⟨st₁, -, ⟨hset', -⟩, rfl⟩ := (loop_help ha rfl (by rw [hout]; rfl) n).2 st' h
    refine Or.inl ?_
    split <;> simp [hset', Settings.noIndent]
  | .display r =>
    have hnest : ∀ n r, NestedRoutine st.settings.outputFormat (display n r) := fun n r =>
      noIndent_format hset ▸ nested_of_emits hdisp n r
    rw [display_settings ha hnest hout h] at hf hrun ⊢
    exact harmless_of_shown ha hnest hf rfl hout h hrun
  | .long o => simp [Opt.isDisplay] at ho
  | .invalid => exact absurd rfl (loop_valid h)

/-- With one display option, and `--exec` after it that does no harm, a document is shown. -/
theorem document_of_header {o : Opt} {n : Nat}
    (hf : st'.settings.outputFormat = .json ∨ st'.settings.outputFormat = .xml) (hloc : host.locale.Standard)
    (hu : Json.isWs st'.settings.wideIndentChar = true) (hun : st'.settings.wideIndentChar ≠ nl)
    (hwide : (host.config st.settings).indentUnit = st.settings.wideIndentChar)
    (hdisp : ∀ n r, ∃ es, display n r = (es, none) ∧ Emits (host.config st'.settings) es)
    (ho : o.isDisplay = true) (hout : st.out = {})
    (h : runActions host (loopActions display 0 (o :: List.replicate n (.long .exec))) st = .ok st')
    (hharm : st'.settings.indentAmount = 0 ∨ ExecHarmless display st'.settings.outputFormat (some o) n)
    (hexec : st'.reexec = true → st'.execArgs = none → host.operands ≠ []) :
    ∃ st₂, runActions host (endActions display true st'.settings.outputFormat) st' = .ok st₂ ∧
      OneDocument st'.settings.outputFormat st₂.out.doc := by
  obtain ⟨hset, ha⟩ := loop_settings ho h
  rw [← noIndent_wide hset hwide, noIndent_unit hset] at hu hun
  rw [noIndent_format hset] at hf
  have hdisp' : ∀ n r, ∃ es, display n r = (es, none) ∧ Emits (host.config st.settings) es := by
    intro n r
    obtain ⟨es, hes, hem⟩ := hdisp n r
    exact ⟨es, hes, noIndent_emits hset.symm hem⟩
  rw [noIndent_format hset]
  match o with
  | .help => exact (help_document hf hu hwide hloc hun ha rfl hout h hexec).2
  | .display r =>
    have hnest : ∀ n r, NestedRoutine st.settings.outputFormat (display n r) := nested_of_emits hdisp'
    rw [display_settings ha hnest hout h] at hharm
    exact shown_document hf hu hwide hloc hun ha hdisp' rfl hout hharm h hexec
  | .long o => simp [Opt.isDisplay] at ho
  | .invalid => exact absurd rfl (loop_valid h)

/-- **The document shown is one JSON text, or one XML declaration and element, exactly if there is at most
one display option** and no `--exec` after it that makes the footer fail. -/
theorem main_document {getenv : String → Option MbStr} {opts : List Opt} {st₁ : MainState}
    (hstart : startMain host.locale getenv = .ok st)
    (hloop : runActions host (loopActions display 0 opts) st = .ok st₁)
    (hf : st₁.settings.outputFormat = .json ∨ st₁.settings.outputFormat = .xml)
    (hblank : host.locale.mbsrtowcs (bytes " ") = some [32]) (hloc : host.locale.Standard)
    (hu : Json.isWs st₁.settings.wideIndentChar = true) (hun : st₁.settings.wideIndentChar ≠ nl)
    (hdisp : ∀ n r, ∃ es, display n r = (es, none) ∧ Emits (host.config st₁.settings) es)
    (hexec : st₁.reexec = true → st₁.execArgs = none → host.operands ≠ []) :
    (∃ st₂, runMain host display opts st = .ok st₂ ∧ OneDocument st₁.settings.outputFormat st₂.out.doc) ↔
      OneHeader display st₁.settings opts := by
  obtain ⟨hcoh, hout, hdone⟩ := startMain_eq hstart
  have hmain : runMain host display opts st =
      runActions host (endActions display st₁.done st₁.settings.outputFormat) st₁ := by
    simp only [runMain, hloop, bind, Except.bind]
  have hdone₁ : st₁.done = opts.any Opt.isDisplay := by
    rw [runActions_done hloop, hdone, Bool.false_or, Bool.eq_iff_iff, decide_eq_true_iff, setDone_loopActions]
  rw [hmain]
  constructor
  · rintro ⟨st₂, hrun, hone⟩
    obtain ⟨os, rest, rfl, hrest⟩ := opts_split opts
    obtain ⟨t, htout, htdone, hcoh', hloop'⟩ := loop_long hout hdone hloop
    rcases hrest with rfl | ⟨o, rest, rfl, ho⟩
    · -- no display option
      obtain rfl : t = st₁ := by simpa [loopActions, runActions, pure, Except.pure] using hloop'
      refine ⟨?_, os, none, 0, rfl, by simp, Or.inr (Or.inl rfl)⟩
      rw [htdone] at hrun
      exact end_amount hrun
    · have hwide := noIndent_wide (loop_settings ho hloop').1 ((hcoh' hcoh).indentUnit hblank)
      rw [← hwide] at hu
      obtain ⟨hamount, n, rfl, hharm⟩ := header_of_document hf hloc hu hwide hdisp ho
        htout hloop' hrun hone
      exact ⟨hamount, os, some o, n, rfl, by simpa using ho, hharm⟩
  · rintro ⟨ha, os, shown, n, rfl, hshown, hharm⟩
    unfold optionSequence at hloop
    obtain ⟨t, htout, htdone, hcoh', hloop'⟩ := loop_long hout hdone hloop
    have hwide := (hcoh' hcoh).indentUnit hblank
    cases shown with
    | none =>
      obtain rfl : t = st₁ := by simpa [loopActions, runActions, pure, Except.pure] using hloop'
      rw [← hwide] at hu hun
      rw [htdone]
      exact dump_document hf hu hwide hloc hun ha hdisp rfl htout hexec
    | some o =>
      have ho := hshown o rfl
      have htrue : st₁.done = true := by
        rw [hdone₁]
        simp [optionSequence, ho]
      rw [htrue]
      exact document_of_header hf hloc hu hun hwide hdisp ho htout hloop' hharm hexec

theorem map_ok {ε α β : Type} {f : α → β} {x : Except ε α} {b : β} (h : x.map f = .ok b) :
    ∃ a, x = .ok a ∧ f a = b := by
  cases x with
  | error e => simp [Except.map] at h
  | ok a => exact ⟨a, rfl, by simpa [Except.map] using h⟩

/-- The calls of `show_shared_mem` on a system without shared memory. -/
def noSharedMem : Calls := .group (.sect (bytes "shared memory")) .nil .nil

/-- `--format=json --shared-memory`: one document. -/
theorem main_document_once :
    let host : Host := { locale := posixLocale }
    let display : Display := fun _ _ => (noSharedMem.events, none)
    let opts : List Opt := [.long (.format (bytes "json")), .display .showSharedMem]
    ∃ st₂, runMain host display opts {} = .ok st₂ ∧ OneDocument .json st₂.out.doc := by
  intro host display opts
  obtain ⟨st₁, hloop, hst₁⟩ := map_ok (f := fun st : MainState => (st.settings, st.reexec))
    (x := runActions host (loopActions display 0 opts) {}) (b := ({ outputFormat := .json }, false)) (by decide)
  obtain ⟨hset, hreexec⟩ := Prod.mk.inj hst₁
  have hcalls : Emits (host.config st₁.settings) noSharedMem.events := by
    rw [hset]
    exact ⟨noSharedMem, by decide, by decide, rfl⟩
  have h := (main_document (show startMain host.locale (fun _ => none) = .ok {} from rfl) hloop
    (by simp [hset]) (by decide)
    posixLocale_standard (by rw [hset]; decide) (by rw [hset]; decide) (fun _ _ => ⟨_, rfl, hcalls⟩)
    (by simp [hreexec])).2
    ⟨by rw [hset]; decide, [.format (bytes "json")], some (.display .showSharedMem), 0,
      rfl, by simp [Opt.isDisplay], Or.inr (Or.inl rfl)⟩
  rwa [hset] at h

/-- `--format=json --shared-memory --shared-memory`: both options are accepted, and the document has two
headers and one footer. -/
theorem main_document_twice :
    let host : Host := { locale := posixLocale }
    let display : Display := fun _ _ => (noSharedMem.events, none)
    let opts : List Opt := [.long (.format (bytes "json")), .display .showSharedMem, .display .showSharedMem]
    ∃ st₂, runMain host display opts {} = .ok st₂ ∧
      st₂.out.doc = lit "\x7b\n  \"shared memory\" : \x7b\x7d\x7b\n    \"shared memory\" : \x7b\x7d\n  \x7d\n" ∧
      ¬ OneDocument .json st₂.out.doc := by
  intro host display opts
  obtain ⟨st₂, hrun, hdoc⟩ := map_ok (f := fun st : MainState => st.out.doc) (x := runMain host display opts {})
    (b := lit "\x7b\n  \"shared memory\" : \x7b\x7d\x7b\n    \"shared memory\" : \x7b\x7d\n  \x7d\n") (by decide)
  refine ⟨st₂, hrun, hdoc, fun h => ?_⟩
  have hdepth := h.nets (Or.inl rfl) 0
  rw [hdoc] at hdepth
  exact absurd hdepth (by decide)

end Procenv
