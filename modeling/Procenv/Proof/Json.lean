import Procenv.Proof.Layout
import Procenv.Text.Json

/-!
# JSON documents

The text of a call tree of the JSON grammar is derived by the grammar of RFC 8259,
member by member: commas stand between members because the lead of a call that is
not the first of its group is one, and nothing else in the layout is visible.

* `encodeChar_str`: the encoding of a character is JSON string content.
* `calls_derive`: the text of a sequence of calls derives its members, or its
  elements inside an array.
* `json_document`: **a JSON document is one JSON text whose parse tree is the call
  tree**, and the indent is back at zero.
-/

namespace Procenv

open Text Text.Json

variable {cfg : Config} {loc : Locale}

/-! ## Strings -/

theorem isHex_hexDigit {d : Nat} (hd : d < 16) : isHex (hexDigit d) = true := by
  have := hexDigit_val hd
  simp only [isHex, Bool.or_eq_true, Bool.and_eq_true, decide_eq_true_eq]
  split at this <;> omega

theorem str_of_hex {s : List CodePoint} (h : ∀ c ∈ s, isHex c = true) : Str s := by
  induction s with
  | nil => exact .nil
  | cons c s ih =>
    have hc := h c List.mem_cons_self
    simp only [isHex, Bool.or_eq_true, Bool.and_eq_true, decide_eq_true_eq] at hc
    refine .unescaped (by omega) ?_ ?_ (ih fun d hd => h d (List.mem_cons_of_mem _ hd))
    · rintro rfl; exact absurd hc (by decide)
    · rintro rfl; exact absurd hc (by decide)

/-- A `\u` escape with at least four digits is string content: the digits after the fourth stand
for themselves. -/
theorem escapeText_str (c : WChar) : Str (escapeText .json c) := by
  have hhex : ∀ d ∈ fmtHex 4 c.val, isHex d = true := by
    intro d hd
    obtain ⟨x, hx, rfl⟩ := hexFixed_digit hd
    exact isHex_hexDigit hx
  have hlen : 4 ≤ (fmtHex 4 c.val).length := by
    rw [fmtHex, hexFixed_length]
    exact Nat.le_max_left _ _
  rw [escapeText, if_pos rfl]
  match h : fmtHex 4 c.val with
  | [] | [_] | [_, _] | [_, _, _] => simp [h] at hlen
  | x :: y :: z :: u :: ds =>
    rw [h] at hhex
    exact .unicode (hhex x (by simp)) (hhex y (by simp)) (hhex z (by simp)) (hhex u (by simp))
      (str_of_hex fun d hd => hhex d (by simp [hd]))

theorem translateChar_json {c : WChar} (h0 : c ≠ 0) (h1 : c ≠ 34) (h2 : c ≠ 92) :
    translateChar .json c = [c] := by
  simp [translateChar, translateTable, h0, h1, h2]

/-- **The encoding of a character is string content.** -/
theorem encodeChar_str (hloc : loc.Standard) {c : WChar} (h0 : c ≠ 0) : Str (encodeChar loc .json c) := by
  have hprint : ∀ d : WChar, 0x20 ≤ d.val → d.val ≤ 0x7E → escapeChar loc .json d = [d] :=
    fun d h1 h2 => by simp [escapeChar, hloc.print d h1 h2]
  -- the two characters of the table, then the printable and the other ones
  by_cases h1 : c = 34
  · subst h1
    have : encodeChar loc .json 34 = [92, 34] := by
      simp [encodeChar, show translateChar .json 34 = [92, 34] from rfl,
        hprint 92 (by decide) (by decide), hprint 34 (by decide) (by decide)]
    rw [this]
    exact .escape (by decide) .nil
  by_cases h2 : c = 92
  · subst h2
    have : encodeChar loc .json 92 = [92, 92, 92, 92] := by
      simp [encodeChar, show translateChar .json 92 = [92, 92, 92, 92] from rfl,
        hprint 92 (by decide) (by decide)]
    rw [this]
    exact .escape (by decide) (.escape (by decide) .nil)
  rw [encodeChar, translateChar_json h0 h1 h2]
  simp only [List.flatMap_cons, List.flatMap_nil, List.append_nil, escapeChar]
  split
  · rename_i hp
    refine .unescaped ?_ h1 h2 .nil
    by_contra hlt
    simp [hloc.cntrl c (by omega)] at hp
  · exact escapeText_str c

theorem encode_str (hf : cfg.outputFormat = .json) (hloc : cfg.locale.Standard) {w r : WStr}
    (h : cfg.encode w = some r) : Str r := by
  rw [encode_flatMap (Or.inl hf) h, hf]
  obtain ⟨-, -, -, h0⟩ := encode_eq h
  exact Str.flatMap fun c hc => encodeChar_str hloc fun h => h0 (h ▸ hc)

theorem valueText_str (hf : cfg.outputFormat = .json) (hloc : cfg.locale.Standard) {value : WStr}
    (h : (cfg.encode value).isSome) : Str (cfg.valueText value) := by
  obtain ⟨r, hr⟩ := Option.isSome_iff_exists.1 h
  rw [Config.valueText, hr]
  exact encode_str hf hloc hr

theorem nameText_str (hf : cfg.outputFormat = .json) (hloc : cfg.locale.Standard) {name : MbStr}
    (h : (cfg.encodeName name).isSome) : Str (cfg.nameText name) := by
  obtain ⟨r, hr⟩ := Option.isSome_iff_exists.1 h
  obtain ⟨w, -, hw⟩ := encodeName_eq hr
  rw [Config.nameText, hr]
  exact encode_str hf hloc hw

/-! ## The parse tree of a call tree -/

mutual

/-- The members that a sequence of calls stands for. -/
def Calls.members (cfg : Config) : Calls → List (List CodePoint × Value)
  | .nil => []
  | .entry name value next => (cfg.nameText name, .str (cfg.valueText value)) :: next.members cfg
  | .group (.sect name) kids next => (cfg.nameText name, .obj (kids.members cfg)) :: next.members cfg
  | .group (.cont name) kids next => (cfg.nameText name, .arr (kids.elements cfg)) :: next.members cfg
  | .group .object _ next => next.members cfg

/-- The elements that a sequence of objects stands for. -/
def Calls.elements (cfg : Config) : Calls → List Value
  | .nil => []
  | .group .object kids next => .obj (kids.members cfg) :: next.elements cfg
  | .entry _ _ next => next.elements cfg
  | .group _ _ next => next.elements cfg

end

/-! ## The text derives the tree -/

theorem ws_indent (hws : isWs cfg.indentUnit = true) (k : Int) : Ws (indentText cfg k) := by
  intro c hc
  rw [indentText_eq] at hc
  rw [(List.mem_replicate.1 hc).2]
  exact hws

theorem ws_line (hws : isWs cfg.indentUnit = true) (k : Int) : Ws (nl :: indentText cfg k) := by
  intro c hc
  rcases List.mem_cons.1 hc with rfl | hc
  · decide
  · exact ws_indent hws k c hc

/-- A sequence of calls at some position is the lead of the position and a text that derives `x`,
with any white space around it. -/
def Reads (cfg : Config) (x : Sym) (c : Calls) : Prop :=
  ∀ pos k, ∃ body, callsText cfg pos k c = leadText cfg pos k ++ body ∧
    ∀ a w, Ws a → Ws w → Derives x (a ++ body ++ w)

/-- What comes after a member of a group: nothing, or a comma and the other members. -/
theorem member_reads (hf : cfg.outputFormat = .json) (hws : isWs cfg.indentUnit = true)
    {name t : List CodePoint} {v : Value} {next : Calls} {k : Int}
    (hn : Str name) (hv : Derives (.value v) t)
    (ih : next ≠ .nil → Reads cfg (.members (next.members cfg)) next) {a w : List CodePoint} (ha : Ws a)
    (hw : Ws w) :
    Derives (.members ((name, v) :: next.members cfg))
      (a ++ (lit "\"" ++ name ++ lit "\" : " ++ t ++ callsText cfg .after k next) ++ w) := by
  have hsp : Ws [0x20] := by intro c hc; simp only [List.mem_singleton] at hc; subst hc; rfl
  by_cases hnil : next = .nil
  · subst hnil
    have h := Derives.memberOne ha hn hsp (.element hsp hv hw)
    simpa [Calls.members, callsText, lit, CodePoint.ofChar] using h
  · obtain ⟨body, hbody, hder⟩ := ih hnil .after k
    have hs := hder (nl :: indentText cfg k) w (ws_line hws k) hw
    have h := Derives.memberCons ha hn hsp (.element hsp hv (b := []) (by simp [Ws])) hs
    have hlead : leadText cfg .after k = 0x2C :: nl :: indentText cfg k := by
      simp [leadText, kidIndent, sepLine, hf, lit, CodePoint.ofChar, nl]
    rw [hbody, hlead]
    simpa [lit, CodePoint.ofChar] using h

/-- What comes after an element of an array: nothing, or a comma and the other elements. -/
theorem element_reads (hf : cfg.outputFormat = .json) (hws : isWs cfg.indentUnit = true)
    {t : List CodePoint} {v : Value} {next : Calls} {k : Int} (hv : Derives (.value v) t)
    (ih : next ≠ .nil → Reads cfg (.elements (next.elements cfg)) next) {a w : List CodePoint}
    (ha : Ws a) (hw : Ws w) :
    Derives (.elements (v :: next.elements cfg)) (a ++ (t ++ callsText cfg .after k next) ++ w) := by
  by_cases hnil : next = .nil
  · subst hnil
    have h := Derives.elementOne (.element ha hv hw)
    simpa [Calls.elements, callsText] using h
  · obtain ⟨body, hbody, hder⟩ := ih hnil .after k
    have hs := hder (nl :: indentText cfg k) w (ws_line hws k) hw
    have h := Derives.elementCons (.element ha hv (b := []) (by simp [Ws])) hs
    have hlead : leadText cfg .after k = 0x2C :: nl :: indentText cfg k := by
      simp [leadText, kidIndent, sepLine, hf, lit, CodePoint.ofChar, nl]
    rw [hbody, hlead]
    simpa using h

/-- The text between the brackets of a group. -/
def groupText (cfg : Config) (k : Int) (kids : Calls) : WStr :=
  callsText cfg .opened k kids ++ closeLine cfg k kids

theorem groupText_nil (hf : cfg.outputFormat = .json) (k : Int) : groupText cfg k .nil = [] := by
  simp [groupText, callsText, closeLine, emptyLine, hf]

theorem groupText_reads (hws : isWs cfg.indentUnit = true) {x : Sym} {kids : Calls} (hnil : kids ≠ .nil)
    (ih : Reads cfg x kids) (k : Int) : Derives x (groupText cfg k kids) := by
  obtain ⟨body, hbody, hder⟩ := ih .opened k
  have hclose : closeLine cfg k kids = nl :: indentText cfg k := by
    cases kids <;> first | contradiction | rfl
  have h := hder (nl :: indentText cfg (k + cfg.indentAmount)) (nl :: indentText cfg k)
    (ws_line hws _) (ws_line hws _)
  simpa [groupText, hbody, hclose, leadText, kidIndent] using h

theorem object_reads (hf : cfg.outputFormat = .json) (hws : isWs cfg.indentUnit = true) {kids : Calls}
    (ih : kids ≠ .nil → Reads cfg (.members (kids.members cfg)) kids) (k : Int) :
    Derives (.value (.obj (kids.members cfg))) (lit "\x7b" ++ groupText cfg k kids ++ lit "\x7d") := by
  by_cases hnil : kids = .nil
  · subst hnil
    rw [groupText_nil hf]
    exact .objNil (w := []) (by simp [Ws])
  · exact .obj (groupText_reads hws hnil (ih hnil) k)

theorem array_reads (hf : cfg.outputFormat = .json) (hws : isWs cfg.indentUnit = true) {kids : Calls}
    (ih : kids ≠ .nil → Reads cfg (.elements (kids.elements cfg)) kids) (k : Int) :
    Derives (.value (.arr (kids.elements cfg))) (lit "[" ++ groupText cfg k kids ++ lit "]") := by
  by_cases hnil : kids = .nil
  · subst hnil
    rw [groupText_nil hf]
    exact .arrNil (w := []) (by simp [Ws])
  · exact .arr (groupText_reads hws hnil (ih hnil) k)

/-- **The text of a call tree derives its members, or its elements inside an array.** -/
theorem calls_derive (hf : cfg.outputFormat = .json) (hws : isWs cfg.indentUnit = true)
    (hloc : cfg.locale.Standard) (c : Calls) (henc : c.Encodable cfg) (hnil : c ≠ .nil) :
    (c.fits .json false → Reads cfg (.members (c.members cfg)) c) ∧
    (c.fits .json true → Reads cfg (.elements (c.elements cfg)) c) := by
  induction c with
  | nil => exact absurd rfl hnil
  | entry name value next ih =>
    have henc' : next.Encodable cfg := henc.entry.2
    have he : (Event.entry name value).Encodable cfg := henc.entry.1
    refine ⟨fun hfit pos k => ?_, fun hfit => by simp [Calls.fits] at hfit⟩
    refine ⟨entryText cfg name value ++ callsText cfg .after (kidIndent cfg pos k) next,
      by simp [callsText], fun a w ha hw => ?_⟩
    have h := member_reads (k := kidIndent cfg pos k) hf hws (nameText_str hf hloc he.1)
      (.str (valueText_str hf hloc he.2)) (fun hn => (ih henc' hn).1 (fits_entry hfit).2) ha hw
    simpa [entryText, hf, lit, CodePoint.ofChar, Calls.members] using h
  | group g kids next ihk ihn =>
    have henck : kids.Encodable cfg := henc.group.2.1
    have hencn : next.Encodable cfg := henc.group.2.2
    have he : g.opening.Encodable cfg := henc.group.1
    constructor
    · -- a member: a section is an object, a container an array
      intro hfit pos k
      obtain ⟨hg, hfk, hfn⟩ := fits_group hfit
      have hnext := fun hn => (ihn hencn hn).1 hfn
      refine ⟨openText cfg g ++ groupText cfg (kidIndent cfg pos k) kids ++ endText cfg g ++
        callsText cfg .after (kidIndent cfg pos k) next, by simp [callsText, groupText], ?_⟩
      intro a w ha hw
      cases g with
      | object => simp [Group.isObject] at hg
      | sect name =>
        have hv := object_reads hf hws (fun hn => (ihk henck hn).1 hfk) (kidIndent cfg pos k)
        have h := member_reads (k := kidIndent cfg pos k) hf hws (nameText_str hf hloc he) hv hnext ha hw
        simpa [openText, endText, namedOpenText, namedCloseText, hf, Calls.members] using h
      | cont name =>
        have hv := array_reads hf hws
          (fun hn => (ihk henck hn).2 (by simpa [Group.isArray] using hfk)) (kidIndent cfg pos k)
        have h := member_reads (k := kidIndent cfg pos k) hf hws (nameText_str hf hloc he) hv hnext ha hw
        simpa [openText, endText, namedOpenText, namedCloseText, hf, Calls.members] using h
    · -- an element of an array is an object call
      intro hfit pos k
      obtain ⟨hg, hfk, hfn⟩ := fits_group hfit
      cases g with
      | sect name => simp [Group.isObject] at hg
      | cont name => simp [Group.isObject] at hg
      | object =>
        refine ⟨openText cfg .object ++ groupText cfg (kidIndent cfg pos k) kids ++ endText cfg .object ++
          callsText cfg .after (kidIndent cfg pos k) next, by simp [callsText, groupText], ?_⟩
        intro a w ha hw
        have hv := object_reads hf hws (fun hn => (ihk henck hn).1 hfk) (kidIndent cfg pos k)
        have h := element_reads (k := kidIndent cfg pos k) hf hws hv
          (fun hn => (ihn hencn hn).2 hfn) ha hw
        simpa [openText, endText, Calls.elements] using h

/-! ## Documents -/

/-- The run of a JSON document is the run of one object group, then a newline. -/
theorem run_jsonDocument (hf : cfg.outputFormat = .json) (ha : 0 ≤ cfg.indentAmount) {c : Calls}
    (hfit : c.fits .json false) (henc : c.Encodable cfg) :
    ∃ s, runDocument cfg c.events = .ok s ∧
      s.doc = lit "\x7b" ++ groupText cfg 0 c ++ lit "\x7d" ++ [nl] ∧ s.indent = 0 := by
  have hfc : cfg.outputFormat ≠ .crumb := by simp [hf]
  have hsep : cfg.outputFormat = .text → (cfg.locale.mbsrtowcs cfg.textSeparator).isSome := by simp [hf]
  -- the header opens an object
  let s₁ : OutState := { doc := lit "\x7b", currentElement := .objectOpen }
  have h₁ : masterHeader cfg {} = .ok s₁ := by
    simp [masterHeader, hf, commonAssert_ok ha, objectOpen, objectEvent, changeElement, formatElement,
      elementCell, jsonCell, runOps, Op.run, addIndent, bind, Except.bind, pure, Except.pure,
      OutState.wappend, s₁]
  obtain ⟨s₂, h₂, hAt₂⟩ := run_calls ha hfc hsep c false .opened (by simp) (hf ▸ hfit) henc
    ⟨.object, rfl, rfl, by simp [hf]⟩ (Int.le_refl _) (show At s₁ (lit "\x7b") 0 .objectOpen from ⟨rfl, rfl, rfl⟩)
  -- the footer closes it
  obtain ⟨s₃, h₃, hAt₃⟩ := change_close ha hfc (g := .object) (by simp [hf]) (hf ▸ hfit)
    (Int.le_refl _) hAt₂ (lit "\x7d")
  have h₄ : masterFooter cfg s₂ = .ok (s₃.wappend [nl]) := by
    have : objectClose cfg false s₂ = .ok s₃ := by
      rw [← h₃]
      simp only [objectClose, objectEvent, commonAssert_ok ha, hf, bind, Except.bind, Group.closeElement]
      cases changeElement cfg .objectClose s₂ <;> rfl
    simp [masterFooter, hf, commonAssert_ok ha, this, bind, Except.bind, pure, Except.pure]
  refine ⟨s₃.wappend [nl], ?_, ?_, hAt₃.indent⟩
  · simp [runDocument, h₁, h₂, h₄, bind, Except.bind]
  · simp [OutState.wappend, hAt₃.doc, groupText]

/-- **A JSON document is one JSON text, and its parse tree is the call tree.** No call of the run
stops it, and the indent is back at zero. The indent character must be JSON white space, as
`indent_char` is initially, for the document to be JSON. -/
theorem json_document (hf : cfg.outputFormat = .json) (ha : 0 ≤ cfg.indentAmount)
    (hloc : cfg.locale.Standard) (c : Calls) (hfit : c.fits .json false) (henc : c.Encodable cfg) :
    ∃ s, runDocument cfg c.events = .ok s ∧ s.indent = 0 ∧
      (isWs cfg.indentUnit = true → ∀ v, JsonText s.doc v ↔ v = .obj (c.members cfg)) := by
  obtain ⟨s, hs, hdoc, hind⟩ := run_jsonDocument hf ha hfit henc
  refine ⟨s, hs, hind, fun hws v => ?_⟩
  have hobj := object_reads hf hws (fun hn => (calls_derive hf hws hloc c henc hn).1 hfit) 0
  have htext : JsonText s.doc (.obj (c.members cfg)) := by
    have := Derives.element (a := []) (b := [nl]) (by simp [Ws]) hobj
      (by intro x hx; simp only [List.mem_singleton] at hx; subst hx; rfl)
    simpa [JsonText, hdoc] using this
  exact ⟨fun h => h.unique htext, fun h => h ▸ htext⟩

/-- A document with a quote in a value, an object, an empty object and an empty section. -/
theorem json_document_fds :
    let cfg : Config := { outputFormat := .json, locale := posixLocale }
    let c : Calls := .group (.sect (bytes "fds"))
      (.entry (bytes "tty") (lit "\"no\"")
        (.group (.cont (bytes "0")) (.group .object (.entry (bytes "x") (lit "1") .nil)
          (.group .object .nil .nil)) .nil))
      (.group (.sect (bytes "e")) .nil .nil)
    ∃ s, runDocument cfg c.events = .ok s ∧ JsonText s.doc (.obj
      [(lit "fds", .obj [(lit "tty", .str (lit "\\\"no\\\"")),
        (lit "0", .arr [.obj [(lit "x", .str (lit "1"))], .obj []])]),
       (lit "e", .obj [])]) := by
  intro cfg c
  obtain ⟨s, hs, -, h⟩ := json_document (show cfg.outputFormat = .json from rfl)
    (by decide) posixLocale_standard c (by decide) (by decide)
  exact ⟨s, hs, (h (by decide) _).2 rfl⟩

end Procenv
