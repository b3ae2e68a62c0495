import Procenv.Proof.CrumbOutput
import Procenv.Proof.Outline
import Procenv.Proof.Reference
import Procenv.Proof.Xml

/-!
# Documents read back

What a reader of the document gets: the parse tree of a JSON text with its strings
unescaped and the doubled backslashes halved (`readMembers`), and the elements of an XML
document with their references replaced (`readElements`).

* `json_lossless`, `xml_lossless`: **the outline of the call tree is read back from the
  document**.
* `formats_agree`: what is read from a JSON document tells the documents of the other
  formats.
-/

namespace Procenv

open Text

variable {cfg : Config}

/-! ## JSON -/

/-- One backslash for two. -/
def halveBackslashes : WStr → WStr
  | [] => []
  | [c] => [c]
  | c :: d :: s => if c = 92 ∧ d = 92 then 92 :: halveBackslashes s else c :: halveBackslashes (d :: s)

/-- The string that a JSON string of the document stands for. -/
def readString (token : List CodePoint) : Option WStr := (Json.unescape token).map halveBackslashes

mutual

/-- What the members of an object say. -/
def readMembers : List (List CodePoint × Json.Value) → Option Outline
  | [] => some .nil
  | (name, .str value) :: ms => do return .entry (← readString name) (← readString value) (← readMembers ms)
  | (name, .obj kids) :: ms => do return .group .sect (← readString name) (← readMembers kids) (← readMembers ms)
  | (name, .arr kids) :: ms => do return .group .cont (← readString name) (← readObjects kids) (← readMembers ms)
  | (_, .null) :: _ | (_, .bool _) :: _ | (_, .num _) :: _ => none

/-- What the objects of an array say. -/
def readObjects : List Json.Value → Option Outline
  | [] => some .nil
  | .obj kids :: vs => do return .group .object [] (← readMembers kids) (← readObjects vs)
  | .null :: _ | .bool _ :: _ | .num _ :: _ | .str _ :: _ | .arr _ :: _ => none

end

/-- What a JSON document says. -/
def readJson : Json.Value → Option Outline
  | .obj members => readMembers members
  | .null | .bool _ | .num _ | .str _ | .arr _ => none

/-- A string that a JSON reader gets as it is, but for its backslashes: what does not print fits four
hexadecimal digits, and no two characters in a row are escaped as a surrogate pair. -/
def Readable (loc : Locale) (s : WStr) : Prop :=
  (∀ c ∈ s, loc.iswprint c = false → c.val < 0x10000) ∧ s.IsChain fun a b => ¬ EscapedPair loc a b

instance (loc : Locale) (s : WStr) : Decidable (Readable loc s) :=
  -- not the instance that goes through all characters
  have : Decidable (∀ c ∈ s, loc.iswprint c = false → c.val < 0x10000) := List.decidableBAll _ _
  inferInstanceAs (Decidable (_ ∧ _))

/-- The names and the value of a call are readable. -/
def Event.Readable (cfg : Config) : Event → Prop
  | .entry name value => Procenv.Readable cfg.locale (cfg.wideName name) ∧ Procenv.Readable cfg.locale value
  | .sectionOpen name | .containerOpen name => Procenv.Readable cfg.locale (cfg.wideName name)
  | .sectionClose | .containerClose | .objectOpen _ | .objectClose _ => True

instance (cfg : Config) : DecidablePred (Event.Readable cfg) := fun e =>
  match e with
  | .entry _ _ => inferInstanceAs (Decidable (_ ∧ _))
  | .sectionOpen _ | .containerOpen _ => inferInstanceAs (Decidable (Procenv.Readable _ _))
  | .sectionClose | .containerClose | .objectOpen _ | .objectClose _ => inferInstanceAs (Decidable True)

theorem halve_double (s : WStr) : halveBackslashes (doubleBackslashes s) = s := by
  have hstep : ∀ (c : WChar) (s : WStr), halveBackslashes (doubleBackslashes (c :: s)) =
      c :: halveBackslashes (doubleBackslashes s) := by
    intro c s
    by_cases hc : c = 92
    · subst hc
      simp [doubleBackslashes, halveBackslashes]
    · have hdouble : doubleBackslashes (c :: s) = c :: doubleBackslashes s := by simp [doubleBackslashes, hc]
      rw [hdouble]
      cases doubleBackslashes s with
      | nil => rfl
      | cons d t => simp [halveBackslashes, hc]
  induction s with
  | nil => rfl
  | cons c s ih => rw [hstep, ih]

section Json

variable (hf : cfg.outputFormat = .json) (hloc : cfg.locale.Standard)

include hf hloc

/-- **A string of the document is read back.** -/
theorem readString_encode {w r : WStr} (h : cfg.encode w = some r) (hw : Readable cfg.locale w) :
    readString r = some w := by
  obtain ⟨ret, he, hret, h0⟩ := encode_eq h
  rw [hf] at he
  rw [readString, encodeString_eq (Or.inl rfl) h0 he hret, Json.unescape, pieces_encode hloc h0 hw.1,
    Option.map_some, Json.joinPairs_eq (pieces_chain hw.2), map_code_charPieces, Option.map_some, halve_double]

theorem readString_value {value : WStr} (h : (cfg.encode value).isSome) (hw : Readable cfg.locale value) :
    readString (cfg.valueText value) = some value := by
  obtain ⟨r, hr⟩ := Option.isSome_iff_exists.1 h
  rw [Config.valueText, hr]
  exact readString_encode hf hloc hr hw

theorem readString_name {name : MbStr} (h : (cfg.encodeName name).isSome)
    (hw : Readable cfg.locale (cfg.wideName name)) :
    readString (cfg.nameText name) = some (cfg.wideName name) := by
  obtain ⟨r, hr⟩ := Option.isSome_iff_exists.1 h
  obtain ⟨w, hdec, hwr⟩ := encodeName_eq hr
  rw [Config.wideName, hdec, Option.getD_some] at hw ⊢
  rw [Config.nameText, hr]
  exact readString_encode hf hloc hwr hw

/-- **The outline of a call tree is read back** from its members, or its elements inside an array. -/
theorem read_members (c : Calls) (henc : c.Encodable cfg) (hread : ∀ e ∈ c.events, e.Readable cfg) :
    (c.fits .json false → readMembers (c.members cfg) = some (c.outline cfg)) ∧
    (c.fits .json true → readObjects (c.elements cfg) = some (c.outline cfg)) := by
  induction c with
  | nil =>
    simp [Calls.members, Calls.elements, readMembers, readObjects, Calls.outline]
  | entry name value next ih =>
    obtain ⟨⟨hn, hv⟩, henc'⟩ := henc.entry
    obtain ⟨⟨hrn, hrv⟩, hread'⟩ := Calls.all_entry hread
    refine ⟨fun hfit => ?_, fun hfit => by simp [Calls.fits] at hfit⟩
    have hnext := (ih henc' hread').1 (fits_entry hfit).2
    simp only [Calls.members, readMembers, readString_name hf hloc hn hrn, readString_value hf hloc hv hrv, hnext]
    rfl
  | group g kids next ihk ihn =>
    obtain ⟨he, hek, hen⟩ := henc.group
    obtain ⟨hr, hrk, hrn⟩ := Calls.all_group hread
    have hkids := ihk hek hrk
    have hnext := ihn hen hrn
    constructor
    · -- a member: a section is an object, a container an array
      intro hfit
      obtain ⟨hg, hfk, hfn⟩ := fits_group hfit
      cases g with
      | object => simp [Group.isObject] at hg
      | sect name =>
        simp only [Calls.members, readMembers, readString_name hf hloc he hr, hkids.1 hfk, hnext.1 hfn]
        rfl
      | cont name =>
        have hfk' : kids.fits .json true := by simpa [Group.isArray] using hfk
        simp only [Calls.members, readMembers, readString_name hf hloc he hr, hkids.2 hfk', hnext.1 hfn]
        rfl
    · -- an element of an array is an object
      intro hfit
      obtain ⟨hg, hfk, hfn⟩ := fits_group hfit
      cases g with
      | sect name => simp [Group.isObject] at hg
      | cont name => simp [Group.isObject] at hg
      | object =>
        simp only [Calls.elements, readObjects, hkids.1 hfk, hnext.2 hfn]
        rfl

end Json

/-- **A text that says `o` in JSON**, whatever JSON parser reads it: it has a parse tree, and every parse
tree of it says `o`. -/
def SaysJson (doc : WStr) (o : Outline) : Prop :=
  (∃ v, Json.JsonText doc v) ∧ ∀ v, Json.JsonText doc v → readJson v = some o

/-- The text of a JSON document says the outline of its calls. -/
theorem saysJson_members (hf : cfg.outputFormat = .json) (hloc : cfg.locale.Standard)
    (hws : Json.isWs cfg.indentUnit = true) {c : Calls} (hfit : c.fits .json false) (henc : c.Encodable cfg)
    (hread : ∀ e ∈ c.events, e.Readable cfg) :
    SaysJson (lit "\x7b" ++ groupText cfg 0 c ++ lit "\x7d" ++ [nl]) (c.outline cfg) := by
  have hobj := object_reads hf hws (fun hn => (calls_derive hf hws hloc c henc hn).1 hfit) 0
  have htext : Json.JsonText (lit "\x7b" ++ groupText cfg 0 c ++ lit "\x7d" ++ [nl]) (.obj (c.members cfg)) := by
    have := Json.Derives.element (a := []) (b := [nl]) (by simp [Json.Ws]) hobj
      (by intro x hx; simp only [List.mem_singleton] at hx; subst hx; rfl)
    simpa [Json.JsonText] using this
  refine ⟨⟨_, htext⟩, fun v hv => ?_⟩
  rw [hv.unique htext]
  exact (read_members hf hloc c henc hread).1 hfit

/-- **The outline of the call tree is read back from a JSON document.** -/
theorem json_lossless (hf : cfg.outputFormat = .json) (ha : 0 ≤ cfg.indentAmount) (hloc : cfg.locale.Standard)
    (hws : Json.isWs cfg.indentUnit = true) (c : Calls) (hfit : c.fits .json false) (henc : c.Encodable cfg)
    (hread : ∀ e ∈ c.events, e.Readable cfg) :
    ∃ s, runDocument cfg c.events = .ok s ∧ SaysJson s.doc (c.outline cfg) := by
  obtain ⟨s, hs, hdoc, -⟩ := run_jsonDocument hf ha hfit henc
  exact ⟨s, hs, hdoc ▸ saysJson_members hf hloc hws hfit henc hread⟩

/-- Two objects in an array, a quote and a backslash. -/
theorem json_lossless_fds :
    let cfg : Config := { outputFormat := .json, locale := posixLocale }
    let c : Calls := .group (.sect (bytes "fds"))
      (.group (.cont (bytes "0")) (.group .object (.entry (bytes "name") (lit "\"a\\b\"") .nil)
        (.group .object .nil .nil)) .nil) .nil
    ∃ s, runDocument cfg c.events = .ok s ∧ SaysJson s.doc (c.outline cfg) := by
  intro cfg c
  exact json_lossless rfl (by decide) posixLocale_standard (by decide) c (by decide) (by decide) (by decide)

/-! ## XML -/

mutual

/-- What an element says, given what comes after it. -/
def readElement : Xml.Elem → Option (Outline → Outline)
  | .mk tag [(attr, name)] lead kids =>
    if attr ≠ lit "name" then none
    else if tag = lit "entry" ∧ kids.isEmpty then
      some (.entry (Xml.dereference name) (Xml.dereference lead))
    else if tag = lit "section" then do
      return .group .sect (Xml.dereference name) (← readElements kids)
    else if tag = lit "container" then do
      return .group .cont (Xml.dereference name) (← readElements kids)
    else none
  | .mk _ [] _ _ | .mk _ (_ :: _ :: _) _ _ => none
termination_by structural e => e

/-- An element and the text after it. -/
def readTailed : Xml.Elem × List CodePoint → Option (Outline → Outline)
  | (e, _) => readElement e
termination_by structural e => e

/-- What the elements of an element say. -/
def readElements : List (Xml.Elem × List CodePoint) → Option Outline
  | [] => some .nil
  | e :: es => do return (← readTailed e) (← readElements es)
termination_by structural es => es

end

/-- What the root element of an XML document says. -/
def readXml : Xml.Elem → Option Outline
  | .mk tag _ _ kids => if tag = packageName then readElements kids else none

section Xml

variable (hf : cfg.outputFormat = .xml)
  (hprint : ∀ c : WChar, 0x20 ≤ c.val → c.val ≤ 0x7E → cfg.locale.iswprint c = true)

include hf hprint

theorem dereference_text {w r : WStr} (h : cfg.encode w = some r) : Xml.dereference r = w := by
  obtain ⟨-, -, -, h0⟩ := encode_eq h
  rw [encode_flatMap (Or.inr hf) h, hf]
  exact dereference_flatMap hprint h0

theorem dereference_value {value : WStr} (h : (cfg.encode value).isSome) :
    Xml.dereference (cfg.valueText value) = value := by
  obtain ⟨r, hr⟩ := Option.isSome_iff_exists.1 h
  rw [Config.valueText, hr]
  exact dereference_text hf hprint hr

theorem dereference_name {name : MbStr} (h : (cfg.encodeName name).isSome) :
    Xml.dereference (cfg.nameText name) = cfg.wideName name := by
  obtain ⟨r, hr⟩ := Option.isSome_iff_exists.1 h
  obtain ⟨w, hdec, hwr⟩ := encodeName_eq hr
  rw [Config.nameText, hr, Config.wideName, hdec]
  exact dereference_text hf hprint hwr

/-- **The outline of a call tree is read back** from the elements that show it, whatever the layout
between them. -/
theorem read_elements {c : Calls} {ks : List (Xml.Elem × WStr)} (h : Shown cfg c ks) (henc : c.Encodable cfg) :
    readElements ks = some (c.outline cfg) := by
  induction h with
  | nil => simp [readElements, Calls.outline]
  | entry _ _ ih =>
    obtain ⟨⟨hn, hv⟩, henc'⟩ := henc.entry
    simp only [readElements, readTailed, readElement, nameAttr, dereference_name hf hprint hn,
      dereference_value hf hprint hv, ih henc']
    rfl
  | @group g kids next _ _ _ _ hg _ _ _ _ ihk ihn =>
    obtain ⟨he, hek, hen⟩ := henc.group
    cases g with
    | object => simp [Group.isObject] at hg
    | sect name =>
      have htag : lit "section" ≠ lit "entry" := by decide
      simp only [readElements, readTailed, readElement, nameAttr, Group.name, Group.tag, htag, ihk hek, ihn hen,
        dereference_name hf hprint (show (cfg.encodeName name).isSome from he)]
      rfl
    | cont name =>
      have htag : lit "container" ≠ lit "entry" := by decide
      have htag' : lit "container" ≠ lit "section" := by decide
      simp only [readElements, readTailed, readElement, nameAttr, Group.name, Group.tag, htag,
        htag', ihk hek, ihn hen, dereference_name hf hprint (show (cfg.encodeName name).isSome from he)]
      rfl

end Xml

/-- **A text that says `o` in XML**: after the declaration it is one element, and what that says is `o`. -/
def SaysXml (doc : WStr) (o : Outline) : Prop :=
  ∃ body, doc = xmlDeclaration ++ body ++ [nl] ∧ (∃ e, Xml.Element body e) ∧
    ∀ e, Xml.Element body e → readXml e = some o

/-- The text of an XML document says the outline of its calls. -/
theorem saysXml_root (hf : cfg.outputFormat = .xml)
    (hprint : ∀ c : WChar, 0x20 ≤ c.val → c.val ≤ 0x7E → cfg.locale.iswprint c = true)
    (h1 : cfg.indentUnit ≠ 0x3C) (h2 : cfg.indentUnit ≠ 0x26) {c : Calls} (hfit : c.fits .xml false)
    (henc : c.Encodable cfg) :
    SaysXml (xmlDeclaration ++ xmlRootOpen cfg ++ callsText cfg .fresh cfg.indentAmount c ++ [nl] ++
      (lit "</" ++ packageName ++ lit ">\n")) (c.outline cfg) := by
  have hnl : Layout cfg [nl] := layout_cons (by simp [Layout])
  obtain ⟨lead, kids, hlead, hshown, hder⟩ := calls_shown hf hprint h1 h2 c hfit henc .fresh cfg.indentAmount hnl
  have hroot := Xml.Derives.elem packageName_isName (rootAttrs_derive cfg)
    (content_lead (layout_data h1 h2 hnl) hder)
  refine ⟨_, ?_, ⟨_, hroot⟩, fun e he => ?_⟩
  · simp [xmlRootOpen, lit, CodePoint.ofChar, nl]
  · rw [Xml.Element.unique he hroot, readXml, if_pos rfl]
    exact read_elements hf hprint hshown henc

/-- **The outline of the call tree is read back from an XML document.** No character is lost, printable or
not. -/
theorem xml_lossless (hf : cfg.outputFormat = .xml) (ha : 0 ≤ cfg.indentAmount)
    (hprint : ∀ c : WChar, 0x20 ≤ c.val → c.val ≤ 0x7E → cfg.locale.iswprint c = true)
    (h1 : cfg.indentUnit ≠ 0x3C) (h2 : cfg.indentUnit ≠ 0x26) (c : Calls) (hfit : c.fits .xml false)
    (henc : c.Encodable cfg) (es : List Event) (hes : eraseObjects es = c.events) :
    ∃ s, runDocument cfg es = .ok s ∧ SaysXml s.doc (c.outline cfg) := by
  obtain ⟨s, hs, -, hdoc⟩ := run_xmlDocument hf ha hfit henc hes
  exact ⟨s, hs, hdoc ▸ saysXml_root hf hprint h1 h2 hfit henc⟩

/-- Markup characters, a character that does not print, and an object call. -/
theorem xml_lossless_limits :
    let cfg : Config := { outputFormat := .xml, locale := posixLocale }
    let c : Calls := .group (.sect (bytes "limits"))
      (.entry (bytes "a<b") (lit "x & \t") (.group (.cont (bytes "none")) .nil .nil)) .nil
    let es : List Event := [.sectionOpen (bytes "limits"), .objectOpen false, .entry (bytes "a<b") (lit "x & \t"),
      .containerOpen (bytes "none"), .objectClose false, .containerClose, .sectionClose]
    ∃ s, runDocument cfg es = .ok s ∧ SaysXml s.doc (c.outline cfg) := by
  intro cfg c es
  exact xml_lossless rfl (by decide) posixLocale_standard.print (by decide)
    (by decide) c (by decide) (by decide) es (by decide)

/-! ## The formats -/

/-- The settings with another format. -/
def Config.inFormat (cfg : Config) (fmt : OutputFormat) : Config := { cfg with outputFormat := fmt }

/-- **Documents that say the same**: a JSON document says `o`, an XML document what is left of it without
the objects, and the lines of a crumb and of a text document are those of the latter. -/
structure SayTheSame (cfg : Config) (json xml crumb text : WStr) (o : Outline) : Prop where
  json : SaysJson json o
  xml : SaysXml xml o.erase
  crumb : crumb = unlines nl
    (o.erase.crumbLines (cfg.crumbName cfg.crumbSeparator) (cfg.crumbName cfg.textSeparator) []) ++ [nl]
  text : (lines nl text).filter (nonblank cfg.indentUnit) =
    o.erase.render (List.replicate cfg.indentAmount.toNat cfg.indentUnit) cfg.sepText 0

theorem wideName_inFormat (fmt : OutputFormat) (name : MbStr) :
    (cfg.inFormat fmt).wideName name = cfg.wideName name := rfl

/-- Nothing of an outline depends on the format. -/
theorem outline_inFormat (fmt : OutputFormat) (c : Calls) : c.outline (cfg.inFormat fmt) = c.outline cfg := by
  induction c with
  | nil => rfl
  | entry name value next ih => simp [Calls.outline, ih, wideName_inFormat]
  | group g kids next ihk ihn => cases g <;> simp [Calls.outline, ihk, ihn, wideName_inFormat]

/-- The calls of the erased tree are calls of the tree. -/
theorem Calls.Encodable.erase {c : Calls} (h : c.Encodable cfg) : c.erase.Encodable cfg := by
  intro e he
  rw [← c.events_erase] at he
  exact h e (List.mem_of_mem_filter he)

/-- In the formats without a root a document is what the calls write, and a newline. -/
theorem runDocument_plain (hf : cfg.outputFormat = .text ∨ cfg.outputFormat = .crumb) (ha : 0 ≤ cfg.indentAmount)
    {es : List Event} {s : OutState} (hs : runEvents cfg es {} = .ok s) :
    runDocument cfg es = .ok (s.wappend [nl]) := by
  have hhead : masterHeader cfg {} = .ok {} := by
    rcases hf with hf | hf <;> simp [masterHeader, hf, commonAssert_ok ha, bind, Except.bind, pure, Except.pure]
  have hfoot : masterFooter cfg s = .ok (s.wappend [nl]) := by
    rcases hf with hf | hf <;> simp [masterFooter, hf, commonAssert_ok ha, bind, Except.bind, pure, Except.pure]
  simp only [runDocument, hhead, hs, hfoot, bind, Except.bind]

theorem crumb_outline (hf : cfg.outputFormat = .crumb) (ha : 0 ≤ cfg.indentAmount)
    (hsep : (cfg.locale.mbsrtowcs cfg.crumbSeparator).isSome)
    (htsep : (cfg.locale.mbsrtowcs cfg.textSeparator).isSome) {c : Calls} (hfit : c.fits .crumb false)
    (hbare : c.bareEntry = false) (henc : c.Encodable cfg) {es : List Event} (hes : eraseObjects es = c.events) :
    ∃ s, runDocument cfg es = .ok s ∧
      s.doc = unlines nl ((c.outline cfg).crumbLines (cfg.crumbName cfg.crumbSeparator)
        (cfg.crumbName cfg.textSeparator) []) ++ [nl] := by
  obtain ⟨s, hs, hF⟩ := run_crumbs hf ha hsep htsep hes hfit hbare henc
  refine ⟨_, runDocument_plain (Or.inr hf) ha hs, ?_⟩
  rw [OutState.wappend, hF.doc, crumbLines_outline c hfit henc [] (by simp)]
  rfl

theorem text_outline (hf : cfg.outputFormat = .text) (ha : 0 ≤ cfg.indentAmount) (hu : cfg.indentUnit ≠ nl)
    (htsep : (cfg.locale.mbsrtowcs cfg.textSeparator).isSome) (hsep : nl ∉ cfg.sepText) {c : Calls}
    (htree : c.Textual cfg) {es : List Event} (hes : eraseObjects es = c.events) :
    ∃ s, runDocument cfg es = .ok s ∧
      (lines nl s.doc).filter (nonblank cfg.indentUnit) =
        (c.outline cfg).render (List.replicate cfg.indentAmount.toNat cfg.indentUnit) cfg.sepText 0 := by
  obtain ⟨s, hs, -, hdoc⟩ := run_text hf ha htsep htree.fits htree.encodable hes
  refine ⟨_, runDocument_plain (Or.inl hf) ha hs, ?_⟩
  have hkept := calls_kept hf ha hu hsep c htree .fresh (k := 0) 0 (r := [nl]) (by simp [kidIndent])
    (Or.inr ⟨[], rfl⟩)
  have hend : kept cfg.indentUnit [nl] = [] := rfl
  rw [hend, List.append_nil, render_outline c htree.fits] at hkept
  rw [OutState.wappend, hdoc]
  exact hkept

/-- **One report in four formats**: from the same calls every format makes a document, and they say the
same. Only the JSON document tells the objects. -/
theorem formats_agree (ha : 0 ≤ cfg.indentAmount) (hloc : cfg.locale.Standard)
    (hws : Json.isWs cfg.indentUnit = true) (hu : cfg.indentUnit ≠ nl)
    (hsep : (cfg.locale.mbsrtowcs cfg.crumbSeparator).isSome)
    (htsep : (cfg.locale.mbsrtowcs cfg.textSeparator).isSome) (hline : nl ∉ cfg.sepText) (c : Calls)
    (hfit : c.fits .json false) (hbare : c.erase.bareEntry = false)
    (henc : ∀ fmt, c.Encodable (cfg.inFormat fmt)) (hread : ∀ e ∈ c.events, e.Readable cfg)
    (hone : ∀ e ∈ c.events, e.OneLine cfg) :
    ∃ json xml crumb text,
      runDocument (cfg.inFormat .json) c.events = .ok json ∧ runDocument (cfg.inFormat .xml) c.events = .ok xml ∧
      runDocument (cfg.inFormat .crumb) c.events = .ok crumb ∧
      runDocument (cfg.inFormat .text) c.events = .ok text ∧
      SayTheSame cfg json.doc xml.doc crumb.doc text.doc (c.outline cfg) := by
  have hplain (t : WChar) (h : ¬ Json.isWs t = true) : cfg.indentUnit ≠ t := fun heq => h (heq ▸ hws)
  have hfit' {fmt : OutputFormat} (hfmt : fmt ≠ .json) : c.erase.fits fmt false :=
    Calls.fits_erase hfmt c false hfit
  have hes := c.events_erase
  have hf (fmt : OutputFormat) : (cfg.inFormat fmt).outputFormat = fmt := rfl
  obtain ⟨json, hjson, hdoc, -⟩ := run_jsonDocument (hf .json) ha hfit (henc .json)
  obtain ⟨xml, hxml, -, hxdoc⟩ := run_xmlDocument (hf .xml) ha (hfit' (by decide)) (henc .xml).erase hes
  obtain ⟨crumb, hcrumb, hclines⟩ :=
    crumb_outline (hf .crumb) ha hsep htsep (hfit' (by decide)) hbare (henc .crumb).erase hes
  obtain ⟨text, htext, htlines⟩ := text_outline (hf .text) ha hu htsep hline
    ⟨hfit' (by decide), (henc .text).erase, fun e he => hone e (List.mem_of_mem_filter (hes ▸ he))⟩ hes
  have hjsays := saysJson_members (hf .json) hloc hws hfit (henc .json) hread
  have hxsays := saysXml_root (hf .xml) hloc.print (hplain _ (by decide)) (hplain _ (by decide))
    (hfit' (by decide)) (henc .xml).erase
  rw [← hdoc, outline_inFormat] at hjsays
  rw [← hxdoc, outline_inFormat, Calls.outline_erase] at hxsays
  rw [outline_inFormat, Calls.outline_erase] at hclines htlines
  exact ⟨json, xml, crumb, text, hjson, hxml, hcrumb, htext, hjsays, hxsays, hclines, htlines⟩

/-- The report of a terminal, with an object in a container. -/
theorem formats_agree_tty :
    let cfg : Config := { locale := posixLocale }
    let c : Calls := .group (.sect (bytes "tty"))
      (.entry (bytes "speed") (lit "38400")
        (.group (.cont (bytes "flags")) (.group .object (.entry (bytes "ECHO") (lit "0x8") .nil) .nil) .nil)) .nil
    ∃ json xml crumb text,
      runDocument (cfg.inFormat .json) c.events = .ok json ∧ runDocument (cfg.inFormat .xml) c.events = .ok xml ∧
      runDocument (cfg.inFormat .crumb) c.events = .ok crumb ∧
      runDocument (cfg.inFormat .text) c.events = .ok text ∧
      SayTheSame cfg json.doc xml.doc crumb.doc text.doc (c.outline cfg) := by
  intro cfg c
  refine formats_agree (by decide) posixLocale_standard (by decide) (by decide) (by decide)
    (by decide) (by decide) c (by decide) (by decide) (fun fmt => ?_) (by decide) (by decide)
  cases fmt <;> decide

end Procenv
