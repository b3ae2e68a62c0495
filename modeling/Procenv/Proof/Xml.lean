import Procenv.Proof.Layout
import Procenv.Text.Xml

/-!
# XML documents

Every opening writes a start tag and every closing its end tag, so the text of a
call tree is element content, and what the layout adds between the tags is
character data (`Layout`). Object calls write nothing in this format.

* `encodeChar_data`: the encoding of a character is fit for attribute values.
* `calls_shown`: the text of a sequence of calls is element content that shows it.
* `xml_document`: **after the declaration an XML document is one root element, whose
  elements are the call tree**, and the indent is back at zero.
-/

namespace Procenv

open Text Text.Xml

variable {cfg : Config} {loc : Locale}

/-! ## Attribute values and character data -/

theorem xmlHex_hexDigit {d : Nat} (hd : d < 16) : isHex (hexDigit d) = true := by
  have := hexDigit_val hd
  simp only [isHex, Xml.isDigit, Bool.or_eq_true, Bool.and_eq_true, decide_eq_true_eq]
  split at this <;> omega

theorem escapeText_ref (c : WChar) : Ref (escapeText .xml c) := by
  have hlen : fmtHex 2 c.val ≠ [] := by
    have h := hexFixed_length (max 2 (hexWidth c.val)) c.val
    intro h0
    rw [fmtHex] at h0
    simp [h0] at h
    omega
  have h := Ref.hex hlen fun d hd => by
    obtain ⟨x, hx, rfl⟩ := hexFixed_digit hd
    exact xmlHex_hexDigit hx
  simpa [escapeText, lit, CodePoint.ofChar] using h

/-- The entities of the table. -/
theorem translateTable_xml {c : WChar} (h0 : c ≠ 0) :
    (∃ n, isName n = true ∧ translateChar .xml c = 0x26 :: (n ++ [0x3B])) ∨
      (translateChar .xml c = [c] ∧ c ≠ 0x3C ∧ c ≠ 0x26 ∧ c ≠ 0x22) := by
  by_cases h1 : c = 39
  · subst h1; exact Or.inl ⟨lit "apos", by decide, rfl⟩
  by_cases h2 : c = 34
  · subst h2; exact Or.inl ⟨lit "quot", by decide, rfl⟩
  by_cases h3 : c = 38
  · subst h3; exact Or.inl ⟨lit "amp", by decide, rfl⟩
  by_cases h4 : c = 60
  · subst h4; exact Or.inl ⟨lit "lt", by decide, rfl⟩
  by_cases h5 : c = 62
  · subst h5; exact Or.inl ⟨lit "gt", by decide, rfl⟩
  refine Or.inr ⟨?_, h4, h3, h2⟩
  simp [translateChar, translateTable, h0, h1, h2, h3, h4, h5]

theorem nameChar_range {c : CodePoint} (h : isNameChar c = true) : 0x20 ≤ c.val ∧ c.val ≤ 0x7E := by
  simp only [isNameChar, isNameStart, Bool.or_eq_true, Bool.and_eq_true, decide_eq_true_eq] at h
  rcases h with (((((h | h) | rfl) | rfl) | h) | rfl) | rfl <;> omega

theorem escapeChar_print (hprint : ∀ c : WChar, 0x20 ≤ c.val → c.val ≤ 0x7E → loc.iswprint c = true)
    {fmt : OutputFormat} {s : WStr} (h : ∀ c ∈ s, 0x20 ≤ c.val ∧ c.val ≤ 0x7E) :
    s.flatMap (escapeChar loc fmt) = s := by
  rw [List.flatMap_congr (g := fun c => [c])]
  · simp
  · intro c hc
    simp [escapeChar, hprint c (h c hc).1 (h c hc).2]

/-- **The encoding of a character is fit for attribute values.** -/
theorem encodeChar_data (hprint : ∀ c : WChar, 0x20 ≤ c.val → c.val ≤ 0x7E → loc.iswprint c = true)
    {c : WChar} (h0 : c ≠ 0) : Data true (encodeChar loc .xml c) := by
  rw [encodeChar]
  rcases translateTable_xml h0 with ⟨n, hn, h⟩ | ⟨h, h1, h2, h3⟩
  · rw [h, escapeChar_print hprint]
    · exact .of_ref (.entity hn)
    · intro d hd
      simp only [List.mem_cons, List.mem_append, List.not_mem_nil, or_false] at hd
      rcases hd with rfl | hd | rfl
      · decide
      · exact nameChar_range (isName_chars hn d hd)
      · decide
  · rw [h]
    simp only [List.flatMap_cons, List.flatMap_nil, List.append_nil, escapeChar]
    split
    · exact .char h1 h2 (fun _ => h3) .nil
    · exact .of_ref (escapeText_ref c)

section Document

variable (hf : cfg.outputFormat = .xml)
  (hprint : ∀ c : WChar, 0x20 ≤ c.val → c.val ≤ 0x7E → cfg.locale.iswprint c = true)

include hf hprint

theorem encode_data {w r : WStr} (h : cfg.encode w = some r) : Data true r := by
  rw [encode_flatMap (Or.inr hf) h, hf]
  obtain ⟨-, -, -, h0⟩ := encode_eq h
  exact Data.flatMap fun c hc => encodeChar_data hprint fun h => h0 (h ▸ hc)

theorem valueText_data {value : WStr} (h : (cfg.encode value).isSome) : Data false (cfg.valueText value) := by
  obtain ⟨r, hr⟩ := Option.isSome_iff_exists.1 h
  rw [Config.valueText, hr]
  exact (encode_data hf hprint hr).text

theorem nameText_data {name : MbStr} (h : (cfg.encodeName name).isSome) : Data true (cfg.nameText name) := by
  obtain ⟨r, hr⟩ := Option.isSome_iff_exists.1 h
  obtain ⟨w, -, hw⟩ := encodeName_eq hr
  rw [Config.nameText, hr]
  exact encode_data hf hprint hw

end Document

/-! ## The elements of a call tree -/

/-- The tag of a group. -/
def Group.tag : Group → WStr
  | .sect _ => lit "section"
  | .cont _ => lit "container"
  | .object => []

/-- What the layout writes: newlines and indent characters. -/
def Layout (cfg : Config) (t : WStr) : Prop := ∀ c ∈ t, c = nl ∨ c = cfg.indentUnit

/-- The start tag's attributes of a call. -/
def nameAttr (cfg : Config) (name : MbStr) : List (WStr × WStr) := [(lit "name", cfg.nameText name)]

/-- **Elements show a sequence of calls**: an entry is an `entry` element around its value, a group
is an element of its tag around its calls, in call order, with layout in between. -/
inductive Shown (cfg : Config) : Calls → List (Elem × WStr) → Prop
  | nil : Shown cfg .nil []
  | entry {name value next t ks} : Layout cfg t → Shown cfg next ks →
      Shown cfg (.entry name value next)
        ((.mk (lit "entry") (nameAttr cfg name) (cfg.valueText value) [], t) :: ks)
  | group {g kids next lead t ks ks'} : g.isObject = false → Layout cfg lead → Shown cfg kids ks →
      Layout cfg t → Shown cfg next ks' →
      Shown cfg (.group g kids next) ((.mk g.tag (nameAttr cfg g.name) lead ks, t) :: ks')

theorem layout_indent (k : Int) : Layout cfg (indentText cfg k) := by
  intro c hc
  rw [indentText_eq] at hc
  exact Or.inr (List.mem_replicate.1 hc).2

theorem layout_cons {t : WStr} (h : Layout cfg t) : Layout cfg (nl :: t) := by
  intro c hc
  rcases List.mem_cons.1 hc with rfl | hc
  · exact Or.inl rfl
  · exact h c hc

theorem layout_lead (hf : cfg.outputFormat = .xml) (pos : Pos) (k : Int) : Layout cfg (leadText cfg pos k) := by
  cases pos with
  | fresh => exact layout_indent _
  | opened => exact layout_cons (layout_indent _)
  | after => simpa [leadText, sepLine, hf] using layout_cons (layout_indent _)

theorem layout_close (hf : cfg.outputFormat = .xml) (k : Int) (c : Calls) : Layout cfg (closeLine cfg k c) := by
  have h : Layout cfg (nl :: indentText cfg k) := layout_cons (layout_indent k)
  cases c with
  | nil => simpa [closeLine, emptyLine, hf] using h
  | entry _ _ _ => exact h
  | group _ _ _ => exact h

theorem layout_data (h1 : cfg.indentUnit ≠ 0x3C) (h2 : cfg.indentUnit ≠ 0x26) {t : WStr} (h : Layout cfg t) :
    Data false t := by
  refine Data.plain fun c hc => ?_
  rcases h c hc with rfl | rfl
  · decide
  · exact ⟨h1, h2, by simp⟩

/-- An element of one name attribute. -/
theorem element_derive {tag : WStr} {name : MbStr} {lead s : WStr} {ks : List (Elem × WStr)}
    (htag : isName tag = true) (hn : Data true (cfg.nameText name)) (hs : Derives (.content lead ks) s) :
    Derives (.elem (.mk tag (nameAttr cfg name) lead ks))
      (lit "<" ++ tag ++ lit " name=\"" ++ cfg.nameText name ++ lit "\">" ++ s ++ lit "</" ++
        tag ++ lit ">") := by
  have h := Derives.elem htag (.cons (n := lit "name") (by decide) hn .nil) hs
  simpa [nameAttr, lit, CodePoint.ofChar] using h

/-- **The text of a sequence of calls is element content that shows it.** -/
theorem calls_shown (hf : cfg.outputFormat = .xml)
    (hprint : ∀ c : WChar, 0x20 ≤ c.val → c.val ≤ 0x7E → cfg.locale.iswprint c = true)
    (h1 : cfg.indentUnit ≠ 0x3C) (h2 : cfg.indentUnit ≠ 0x26) (c : Calls) :
    c.fits .xml false → c.Encodable cfg → ∀ pos k {close}, Layout cfg close →
      ∃ lead ks, Layout cfg lead ∧ Shown cfg c ks ∧
        Derives (.content lead ks) (callsText cfg pos k c ++ close) := by
  induction c with
  | nil =>
    intro _ _ pos k close hclose
    exact ⟨close, [], hclose, .nil, .contentNil (layout_data h1 h2 hclose)⟩
  | entry name value next ih =>
    intro hfit henc pos k close hclose
    have he : (Event.entry name value).Encodable cfg := henc.entry.1
    obtain ⟨t, ks, ht, hks, hder⟩ := ih (fits_entry hfit).2 henc.entry.2
      .after (kidIndent cfg pos k) hclose
    refine ⟨leadText cfg pos k, _, layout_lead hf pos k, .entry ht hks, ?_⟩
    have helem := element_derive (show isName (lit "entry") = true by decide) (nameText_data hf hprint he.1)
      (.contentNil (valueText_data hf hprint he.2))
    have h := Derives.contentCons (layout_data h1 h2 (layout_lead hf pos k)) helem hder
    simpa [callsText, entryText, hf, lit, CodePoint.ofChar] using h
  | group g kids next ihk ihn =>
    intro hfit henc pos k close hclose
    obtain ⟨hg, hfk, hfn⟩ := fits_group hfit
    rw [isArray_false (by decide)] at hfk
    have he : g.opening.Encodable cfg := henc.group.1
    -- the text before the end tag belongs to the content of the group
    obtain ⟨lead, ks, hlead, hks, hderk⟩ := ihk hfk henc.group.2.1
      .opened (kidIndent cfg pos k) (layout_close hf (kidIndent cfg pos k) kids)
    obtain ⟨t, ks', ht, hks', hder⟩ := ihn hfn henc.group.2.2
      .after (kidIndent cfg pos k) hclose
    refine ⟨leadText cfg pos k, _, layout_lead hf pos k, .group hg hlead hks ht hks', ?_⟩
    have hname : isName g.tag = true ∧ (cfg.encodeName g.name).isSome := by
      cases g with
      | sect name => exact ⟨rfl, he⟩
      | cont name => exact ⟨rfl, he⟩
      | object => simp [Group.isObject] at hg
    have helem := element_derive hname.1 (nameText_data hf hprint hname.2) hderk
    have h := Derives.contentCons (layout_data h1 h2 (layout_lead hf pos k)) helem hder
    cases g with
    | sect name =>
      simpa [callsText, openText, endText, namedOpenText, namedCloseText, hf, Group.tag, Group.name] using h
    | cont name =>
      simpa [callsText, openText, endText, namedOpenText, namedCloseText, hf, Group.tag, Group.name] using h
    | object => simp [Group.isObject] at hg

/-! ## Documents -/

/-- The attributes of the root element. -/
def rootAttrs (cfg : Config) : List (WStr × WStr) :=
  [(lit "version", packageVersion), (lit "package_string", packageString), (lit "mode", xmlMode cfg),
   (lit "format_version", procenvFormatVersion)]

/-- The run of an XML document. -/
theorem run_xmlDocument (hf : cfg.outputFormat = .xml) (ha : 0 ≤ cfg.indentAmount) {c : Calls}
    (hfit : c.fits .xml false) (henc : c.Encodable cfg) {es : List Event} (hes : eraseObjects es = c.events) :
    ∃ s, runDocument cfg es = .ok s ∧ s.indent = 0 ∧
      s.doc = xmlDeclaration ++ xmlRootOpen cfg ++ callsText cfg .fresh cfg.indentAmount c ++ [nl] ++
        (lit "</" ++ packageName ++ lit ">\n") := by
  have hfj : cfg.outputFormat ≠ .json := by simp [hf]
  let s₁ : OutState := { doc := xmlDeclaration ++ xmlRootOpen cfg, indent := cfg.indentAmount }
  have h₁ : masterHeader cfg {} = .ok s₁ := by
    simp [masterHeader, hf, commonAssert_ok ha, incIndent, bind, Except.bind, OutState.wappend, s₁]
  obtain ⟨s₂, h₂, hAt⟩ := run_calls ha (by simp [hf]) (by simp [hf]) c false .fresh
    (k := cfg.indentAmount) (s := s₁) (e := .none) (by simp) (hf ▸ hfit) henc ⟨rfl, hfj, rfl⟩ ha
    ⟨rfl, rfl, rfl⟩
  -- the footer takes back the indent of the header
  have hind : s₂.indent = cfg.indentAmount := by
    rw [hAt.indent]
    cases c <;> simp [endIndent, kidIndent]
  let s₃ : OutState := { s₂.wappend [nl] with indent := 0 }
  have h₃ : masterFooter cfg s₂ = .ok (s₃.wappend (lit "</" ++ packageName ++ lit ">\n")) := by
    simp [masterFooter, hf, commonAssert_ok ha, decIndent, hind, ha, bind, Except.bind, pure, Except.pure,
      OutState.wappend, s₃]
  refine ⟨s₃.wappend (lit "</" ++ packageName ++ lit ">\n"), ?_, rfl, ?_⟩
  · rw [runDocument, h₁]
    simp only [bind, Except.bind]
    rw [runEvents_eraseObjects hfj ha, hes, h₂]
    exact h₃
  · simp [OutState.wappend, s₃, hAt.doc, s₁]

theorem content_lead {l lead s : List CodePoint} {ks : List (Elem × List CodePoint)} (hl : Data false l)
    (h : Derives (.content lead ks) s) : Derives (.content (l ++ lead) ks) (l ++ s) := by
  cases h with
  | contentNil h => exact .contentNil (hl.append h)
  | contentCons h he hc =>
    rw [← List.append_assoc]
    exact .contentCons (hl.append h) he hc

theorem packageName_isName : isName packageName = true := by decide

theorem rootAttrs_derive (cfg : Config) : Attrs (rootAttrs cfg)
    (lit " version=\"" ++ packageVersion ++ lit "\" package_string=\"" ++ packageString ++ lit "\" mode=\"" ++
      xmlMode cfg ++ lit "\" format_version=\"" ++ procenvFormatVersion ++ lit "\"") := by
  have hmode : Data true (xmlMode cfg) := by
    refine Data.of_isPlain ?_
    unfold xmlMode
    split <;> decide
  have h := Attrs.cons (n := lit "version") (v := packageVersion) (by decide) (.of_isPlain (by decide))
    (.cons (n := lit "package_string") (v := packageString) (by decide) (.of_isPlain (by decide))
      (.cons (n := lit "mode") (by decide) hmode
        (.cons (n := lit "format_version") (v := procenvFormatVersion) (by decide)
          (.of_isPlain (by decide)) .nil)))
  simpa [rootAttrs, lit, CodePoint.ofChar] using h

/-- **After the declaration an XML document is one root element whose elements are the call tree.**
No call of the run stops it, and the indent is back at zero. The indent character must be plain
character data, as `indent_char` is initially, for the document to be XML. -/
theorem xml_document (hf : cfg.outputFormat = .xml) (ha : 0 ≤ cfg.indentAmount)
    (hprint : ∀ c : WChar, 0x20 ≤ c.val → c.val ≤ 0x7E → cfg.locale.iswprint c = true) (c : Calls)
    (hfit : c.fits .xml false) (henc : c.Encodable cfg) (es : List Event) (hes : eraseObjects es = c.events) :
    ∃ s, runDocument cfg es = .ok s ∧ s.indent = 0 ∧
      (cfg.indentUnit ≠ 0x3C → cfg.indentUnit ≠ 0x26 →
        ∃ body lead kids, s.doc = xmlDeclaration ++ body ++ [nl] ∧
          (∀ e, Element body e ↔ e = .mk packageName (rootAttrs cfg) lead kids) ∧
          Layout cfg lead ∧ Shown cfg c kids) := by
  obtain ⟨s, hs, hind, hdoc⟩ := run_xmlDocument hf ha hfit henc hes
  refine ⟨s, hs, hind, fun h1 h2 => ?_⟩
  have hnl : Layout cfg [nl] := layout_cons (by simp [Layout])
  obtain ⟨lead, kids, hlead, hshown, hder⟩ := calls_shown hf hprint h1 h2 c hfit henc .fresh
    cfg.indentAmount hnl
  have hroot := Derives.elem packageName_isName (rootAttrs_derive cfg)
    (content_lead (layout_data h1 h2 hnl) hder)
  refine ⟨_, [nl] ++ lead, kids, ?_, fun e => ⟨fun h => Element.unique h hroot, fun h => h ▸ hroot⟩, ?_, hshown⟩
  · simp [hdoc, xmlRootOpen, lit, CodePoint.ofChar, nl]
  · exact layout_cons hlead

/-- A document with markup characters in a name and a value, object calls and an empty container. -/
theorem xml_document_limits :
    let cfg : Config := { outputFormat := .xml, locale := posixLocale, euid := 1000 }
    let c : Calls := .group (.sect (bytes "limits"))
      (.entry (bytes "a<b") (lit "x & y") (.group (.cont (bytes "none")) .nil .nil)) .nil
    let es : List Event := [.sectionOpen (bytes "limits"), .objectOpen false,
      .entry (bytes "a<b") (lit "x & y"), .containerOpen (bytes "none"), .objectClose false,
      .containerClose, .sectionClose]
    ∃ s, runDocument cfg es = .ok s ∧ s.indent = 0 ∧
      ∃ body lead kids, s.doc = xmlDeclaration ++ body ++ [nl] ∧
        (∀ e, Element body e ↔ e = .mk packageName (rootAttrs cfg) lead kids) ∧ Shown cfg c kids := by
  intro cfg c es
  obtain ⟨s, hs, hind, h⟩ :=
    xml_document (show cfg.outputFormat = .xml from rfl) (by decide) posixLocale_standard.print c (by decide)
    (by decide) es (by decide)
  obtain ⟨body, lead, kids, hdoc, helem, -, hshown⟩ := h (by decide) (by decide)
  exact ⟨s, hs, hind, body, lead, kids, hdoc, helem, hshown⟩

end Procenv
