import Procenv.Model.Calls
import Procenv.Proof.Encode

/-!
# The layout of a document

The text, JSON and XML tables follow one discipline: an opening or an entry that
comes first in a group goes on a new line one indent deeper, a later one goes on a
new line at the same depth (after a comma in JSON), and a closing goes on a new line
one indent back. Only the closing of an empty group differs (`closeText`).

* `cell_lead`, `cell_close`, `cell_empty`: the table cells met by a fitting call
  tree are those of the discipline.
* `run_calls`: **a run of a fitting call tree is `callsText`**, from every position
  (`Stands`), and it ends with the indent of its last call.
-/

namespace Procenv

open Text

variable {cfg : Config} {fmt : OutputFormat} {s : OutState}

/-! ## Encoded names and values -/

/-- The encoding of a wide string, when `encode_string` succeeds. The terminator is no character
of a string. -/
def Config.encode (cfg : Config) (w : WStr) : Option WStr :=
  if 0 ∈ w then none else
    match encodeString cfg.locale cfg.outputFormat w with
    | .ok (ret, r) => if ret < 0 then none else some r
    | .error _ => none

/-- The encoding of a name. -/
def Config.encodeName (cfg : Config) (name : MbStr) : Option WStr :=
  (charToWchar cfg.locale name).bind cfg.encode

/-- The encoded name in the document. -/
def Config.nameText (cfg : Config) (name : MbStr) : WStr := (cfg.encodeName name).getD []

/-- The encoded value in the document. -/
def Config.valueText (cfg : Config) (value : WStr) : WStr := (cfg.encode value).getD []

/-- The separator of text entries in the document. -/
def Config.sepText (cfg : Config) : WStr := (cfg.locale.mbsrtowcs cfg.textSeparator).getD []

/-- The names and the value of a call decode and encode. -/
def Event.Encodable (cfg : Config) : Event → Prop
  | .entry name value => (cfg.encodeName name).isSome ∧ (cfg.encode value).isSome
  | .sectionOpen name | .containerOpen name => (cfg.encodeName name).isSome
  | _ => True

/-- All names and values of a call tree decode and encode. -/
def Calls.Encodable (cfg : Config) (c : Calls) : Prop := ∀ e ∈ c.events, e.Encodable cfg

instance (cfg : Config) : DecidablePred (Event.Encodable cfg) := fun e =>
  match e with
  | .entry _ _ => inferInstanceAs (Decidable (_ ∧ _))
  | .sectionOpen _ | .containerOpen _ => inferInstanceAs (Decidable (_ = true))
  | .sectionClose | .containerClose | .objectOpen _ | .objectClose _ => inferInstanceAs (Decidable True)

instance (cfg : Config) (c : Calls) : Decidable (c.Encodable cfg) :=
  inferInstanceAs (Decidable (∀ e ∈ c.events, e.Encodable cfg))

/-- What holds of every call of a tree that starts with an entry. -/
theorem Calls.all_entry {P : Event → Prop} {name : MbStr} {value : WStr} {next : Calls}
    (h : ∀ e ∈ (Calls.entry name value next).events, P e) : P (.entry name value) ∧ ∀ e ∈ next.events, P e :=
  ⟨h _ (by simp [Calls.events]), fun e he => h e (by simp [Calls.events, he])⟩

/-- What holds of every call of a tree that starts with a group. -/
theorem Calls.all_group {P : Event → Prop} {g : Group} {kids next : Calls}
    (h : ∀ e ∈ (Calls.group g kids next).events, P e) :
    P g.opening ∧ (∀ e ∈ kids.events, P e) ∧ ∀ e ∈ next.events, P e :=
  ⟨h _ (by simp [Calls.events]), fun e he => h e (by simp [Calls.events, he]),
    fun e he => h e (by simp [Calls.events, he])⟩

theorem Calls.Encodable.entry {cfg : Config} {name : MbStr} {value : WStr} {next : Calls}
    (h : (Calls.entry name value next).Encodable cfg) :
    (Event.entry name value).Encodable cfg ∧ next.Encodable cfg := Calls.all_entry h

theorem Calls.Encodable.group {cfg : Config} {g : Group} {kids next : Calls}
    (h : (Calls.group g kids next).Encodable cfg) :
    g.opening.Encodable cfg ∧ kids.Encodable cfg ∧ next.Encodable cfg := Calls.all_group h

theorem encode_eq {w r : WStr} (h : cfg.encode w = some r) :
    ∃ ret, encodeString cfg.locale cfg.outputFormat w = .ok (ret, r) ∧ ¬ ret < 0 ∧ 0 ∉ w := by
  unfold Config.encode at h
  split at h
  · simp at h
  · rename_i h0
    split at h
    · rename_i ret r' heq
      split at h
      · simp at h
      · rename_i hret
        simp only [Option.some.injEq] at h
        exact ⟨ret, by rw [heq, h], hret, h0⟩
    · simp at h

/-- In JSON and XML an encoding is character by character. -/
theorem encode_flatMap (hf : cfg.outputFormat = .json ∨ cfg.outputFormat = .xml) {w r : WStr}
    (h : cfg.encode w = some r) : r = w.flatMap (encodeChar cfg.locale cfg.outputFormat) := by
  obtain ⟨ret, he, hret, h0⟩ := encode_eq h
  exact encodeString_eq hf h0 he hret

/-- In the other formats nothing is encoded. -/
theorem encode_plain (hf : cfg.outputFormat = .text ∨ cfg.outputFormat = .crumb) {w r : WStr}
    (h : cfg.encode w = some r) : r = w := by
  obtain ⟨ret, he, -, -⟩ := encode_eq h
  unfold encodeString at he
  split at he
  · simp only [pure, Except.pure, Except.ok.injEq, Prod.mk.injEq] at he
    exact he.2.symm
  · rcases hf with hf | hf <;> simp only [hf, pure, Except.pure, Except.ok.injEq, Prod.mk.injEq] at he <;>
      exact he.2.symm

theorem valueText_plain (hf : cfg.outputFormat = .text ∨ cfg.outputFormat = .crumb) {value : WStr}
    (h : (cfg.encode value).isSome) : cfg.valueText value = value := by
  obtain ⟨r, hr⟩ := Option.isSome_iff_exists.1 h
  rw [Config.valueText, hr]
  exact encode_plain hf hr

theorem encodeName_eq {name : MbStr} {r : WStr} (h : cfg.encodeName name = some r) :
    ∃ w, charToWchar cfg.locale name = some w ∧ cfg.encode w = some r := by
  unfold Config.encodeName at h
  exact Option.bind_eq_some_iff.1 h

/-- The name and the value of an encodable entry are encoded without an error. -/
theorem Event.Encodable.texts {name : MbStr} {value : WStr} (he : (Event.entry name value).Encodable cfg) :
    ∃ w ret ret', charToWchar cfg.locale name = some w ∧
      (encodeString cfg.locale cfg.outputFormat w = .ok (ret, cfg.nameText name) ∧ ¬ ret < 0) ∧
      encodeString cfg.locale cfg.outputFormat value = .ok (ret', cfg.valueText value) ∧ ¬ ret' < 0 := by
  obtain ⟨r, hr⟩ := Option.isSome_iff_exists.1 he.1
  obtain ⟨w, hw, hwr⟩ := encodeName_eq hr
  obtain ⟨ret, hen, hret, -⟩ := encode_eq hwr
  obtain ⟨r', hr'⟩ := Option.isSome_iff_exists.1 he.2
  obtain ⟨ret', hev, hret', -⟩ := encode_eq hr'
  refine ⟨w, ret, ret', hw, ⟨?_, hret⟩, ?_, hret'⟩
  · rw [hen, Config.nameText, hr, Option.getD_some]
  · rw [hev, Config.valueText, hr', Option.getD_some]

theorem nameToWideName_eq {name : MbStr} (h : (cfg.encodeName name).isSome) :
    nameToWideName cfg name = .ok (cfg.nameText name) := by
  obtain ⟨r, hr⟩ := Option.isSome_iff_exists.1 h
  obtain ⟨w, hw, hwr⟩ := encodeName_eq hr
  obtain ⟨ret, he, hret, -⟩ := encode_eq hwr
  simp [nameToWideName, Config.nameText, hw, he, hret, hr, bind, Except.bind, pure, Except.pure]

/-! ## Texts of the calls -/

/-- The text of an entry. -/
def entryText (cfg : Config) (name : MbStr) (value : WStr) : WStr :=
  match cfg.outputFormat with
  | .text => cfg.nameText name ++ cfg.sepText ++ cfg.valueText value
  | .json => lit "\"" ++ cfg.nameText name ++ lit "\" : \"" ++ cfg.valueText value ++ lit "\""
  | .xml => lit "<entry name=\"" ++ cfg.nameText name ++ lit "\">" ++ cfg.valueText value ++ lit "</entry>"
  | .crumb => []

/-- The text of a named opening. -/
def namedOpenText (cfg : Config) (bracket tag : WStr) (name : MbStr) : WStr :=
  match cfg.outputFormat with
  | .text => cfg.nameText name ++ lit ":"
  | .json => lit "\"" ++ cfg.nameText name ++ lit "\" : " ++ bracket
  | .xml => lit "<" ++ tag ++ lit " name=\"" ++ cfg.nameText name ++ lit "\">"
  | .crumb => []

/-- The text of a closing. -/
def namedCloseText (cfg : Config) (bracket tag : WStr) : WStr :=
  match cfg.outputFormat with
  | .json => bracket
  | .xml => lit "</" ++ tag ++ lit ">"
  | .text | .crumb => []

/-- The text of an opening. -/
def openText (cfg : Config) : Group → WStr
  | .sect name => namedOpenText cfg (lit "\x7b") (lit "section") name
  | .cont name => namedOpenText cfg (lit "[") (lit "container") name
  | .object => lit "\x7b"

/-- The text of a closing. -/
def endText (cfg : Config) : Group → WStr
  | .sect _ => namedCloseText cfg (lit "\x7d") (lit "section")
  | .cont _ => namedCloseText cfg (lit "]") (lit "container")
  | .object => lit "\x7d"

/-- What stands between two calls of a group. -/
def sepLine (fmt : OutputFormat) : WStr := if fmt = .json then lit ",\n" else [nl]

/-! ## The calls, element change and text -/

theorem commonAssert_ok (ha : 0 ≤ cfg.indentAmount) : commonAssert cfg = .ok () := by
  simp [commonAssert, ha]

theorem changeElement_eq (ha : 0 ≤ cfg.indentAmount) (e : ElementType) :
    changeElement cfg e s = runOps cfg (elementCell cfg.outputFormat s.currentElement e)
      { s with lastElement := s.currentElement, currentElement := e } := by
  simp [changeElement, formatElement, commonAssert_ok ha, bind, Except.bind]

/-- An opening changes the element and appends its text. -/
theorem step_opening (ha : 0 ≤ cfg.indentAmount) (hf : cfg.outputFormat ≠ .crumb) {g : Group}
    (hg : cfg.outputFormat ≠ .json → g.isObject = false) (he : g.opening.Encodable cfg) :
    step cfg s g.opening =
      (changeElement cfg g.openElement s).map (·.wappend (openText cfg g)) := by
  have key : ∀ element bracket tag name, (cfg.encodeName name).isSome →
      groupOpen cfg element bracket tag name s =
        (changeElement cfg element s).map (·.wappend (namedOpenText cfg bracket tag name)) := by
    intro element bracket tag name hn
    simp only [groupOpen, commonAssert_ok ha, nameToWideName_eq hn, bind, Except.bind, namedOpenText]
    cases changeElement cfg element s with
    | error e => rfl
    | ok s' => cases hfm : cfg.outputFormat <;> simp_all <;> rfl
  cases g with
  | sect name => exact key _ _ _ _ he
  | cont name => exact key _ _ _ _ he
  | object =>
    have hj : cfg.outputFormat = .json := by
      by_contra hj; simpa [Group.isObject] using hg hj
    simp only [Group.opening, step, objectOpen, objectEvent, commonAssert_ok ha, hj, bind, Except.bind,
      Group.openElement, openText]
    cases changeElement cfg .objectOpen s <;> rfl

/-- A closing changes the element and appends its text. -/
theorem step_closing (ha : 0 ≤ cfg.indentAmount) (hf : cfg.outputFormat ≠ .crumb) {g : Group}
    (hg : cfg.outputFormat ≠ .json → g.isObject = false) :
    step cfg s g.closing = (changeElement cfg g.closeElement s).map (·.wappend (endText cfg g)) := by
  have key : ∀ element bracket tag, groupClose cfg element bracket tag s =
      (changeElement cfg element s).map (·.wappend (namedCloseText cfg bracket tag)) := by
    intro element bracket tag
    simp only [groupClose, commonAssert_ok ha, bind, Except.bind, namedCloseText]
    cases changeElement cfg element s with
    | error e => rfl
    | ok s' => cases hfm : cfg.outputFormat <;> simp_all [Except.map, OutState.wappend, pure, Except.pure]
  cases g with
  | sect name => exact key _ _ _
  | cont name => exact key _ _ _
  | object =>
    have hj : cfg.outputFormat = .json := by
      by_contra hj; simpa [Group.isObject] using hg hj
    simp only [Group.closing, step, objectClose, objectEvent, commonAssert_ok ha, hj, bind, Except.bind,
      Group.closeElement, endText]
    cases changeElement cfg .objectClose s <;> rfl

/-- An entry changes the element and appends its text. -/
theorem step_entry (ha : 0 ≤ cfg.indentAmount) (hf : cfg.outputFormat ≠ .crumb)
    (hsep : cfg.outputFormat = .text → (cfg.locale.mbsrtowcs cfg.textSeparator).isSome)
    {name : MbStr} {value : WStr} (he : (Event.entry name value).Encodable cfg) :
    step cfg s (.entry name value) =
      (changeElement cfg .entry s).map (·.wappend (entryText cfg name value)) := by
  obtain ⟨w, ret, ret', hw, ⟨hen, hret⟩, hev, hret'⟩ := he.texts
  simp only [step, entry, commonAssert_ok ha, hw, hen, hev, hret, hret', bind, Except.bind, entryText, if_false]
  -- the text format alone expands its separator
  cases changeElement cfg .entry s with
  | error e => rfl
  | ok s' =>
    cases hfm : cfg.outputFormat with
    | crumb => exact absurd hfm hf
    | json => rfl
    | xml => rfl
    | text =>
      obtain ⟨sep, hs⟩ := Option.isSome_iff_exists.1 (hsep hfm)
      simp only [expandStr, hs, Config.sepText, Option.getD_some]
      rfl

/-! ## Positions and table cells -/

/-- Where a sequence of calls starts: at the start of the document, after the opening of
its group, or after a call of its group. -/
inductive Pos
  | fresh | opened | after
deriving DecidableEq

/-- The current element at a position of a group (`array` if it is a JSON array). -/
def Stands (fmt : OutputFormat) (array : Bool) (e : ElementType) : Pos → Prop
  | .fresh => e = .none ∧ fmt ≠ .json ∧ array = false
  | .opened => ∃ p : Group, e = p.openElement ∧ p.isArray fmt = array ∧ (fmt ≠ .json → p.isObject = false)
  | .after => (e = .entry ∧ array = false) ∨
      ∃ g : Group, e = g.closeElement ∧ g.isObject = array ∧ (fmt ≠ .json → g.isObject = false)

/-- The calls of the cell before a call at a position. -/
def leadOps (fmt : OutputFormat) : Pos → List Op
  | .fresh => [.addIndent]
  | .opened => [.wappend [nl], .incIndent, .addIndent]
  | .after => [.wappend (sepLine fmt), .addIndent]

/-- The calls of the cell that closes an empty group. -/
def emptyOps (fmt : OutputFormat) : List Op :=
  if fmt = .xml then [.wappend [nl], .addIndent] else []

/-- **The cell before an entry or an opening** depends on the position only. -/
theorem cell_lead (hf : fmt ≠ .crumb) {array : Bool} {e : ElementType} {pos : Pos}
    (h : Stands fmt array e pos) :
    (array = false → elementCell fmt e .entry = leadOps fmt pos) ∧
    ∀ g : Group, g.isObject = array → (fmt ≠ .json → g.isObject = false) →
      elementCell fmt e g.openElement = leadOps fmt pos := by
  -- every cell of the three tables that a call can reach there
  cases pos with
  | fresh =>
    obtain ⟨rfl, hj, rfl⟩ := h
    refine ⟨fun _ => ?_, fun g hg _ => ?_⟩
    · cases fmt <;> first | rfl | contradiction
    · cases g <;> cases fmt <;> first | rfl | contradiction
  | opened =>
    obtain ⟨p, rfl, rfl, hp⟩ := h
    refine ⟨fun hA => ?_, fun g hg hgj => ?_⟩
    · cases p <;> cases fmt <;> first | rfl | contradiction
    · cases p <;> cases g <;> cases fmt <;>
        first | rfl | contradiction
  | after =>
    rcases h with ⟨rfl, rfl⟩ | ⟨q, rfl, rfl, hq⟩
    · refine ⟨fun _ => ?_, fun g hg hgj => ?_⟩
      · cases fmt <;> first | rfl | contradiction
      · cases g <;> cases fmt <;> first | rfl | contradiction
    · refine ⟨fun hA => ?_, fun g hg hgj => ?_⟩
      · cases q <;> cases fmt <;> first | rfl | contradiction
      · cases q <;> cases g <;> cases fmt <;>
          first | rfl | contradiction

/-- **The cell that closes a group** after its last call. -/
theorem cell_close (hf : fmt ≠ .crumb) {e : ElementType} {g : Group}
    (hg : fmt ≠ .json → g.isObject = false) (h : Stands fmt (g.isArray fmt) e .after) :
    elementCell fmt e g.closeElement = [.wappend [nl], .decIndent, .addIndent] := by
  rcases h with ⟨rfl, hA⟩ | ⟨q, rfl, hq, hqj⟩
  · cases g <;> cases fmt <;> first | rfl | contradiction
  · cases q <;> cases g <;> cases fmt <;>
      first | rfl | contradiction

/-- **The cell that closes an empty group**. -/
theorem cell_empty (hf : fmt ≠ .crumb) {g : Group} (hg : fmt ≠ .json → g.isObject = false) :
    elementCell fmt g.openElement g.closeElement = emptyOps fmt := by
  cases g <;> cases fmt <;> first | rfl | contradiction

/-! ## What the cells write -/

/-- The character of the indent. -/
def Config.indentUnit (cfg : Config) : WChar :=
  if cfg.indentChar = bytes " " then 32 else cfg.wideIndentChar

theorem indentText_eq (k : Int) : indentText cfg k = List.replicate k.natAbs cfg.indentUnit := by
  unfold indentText Config.indentUnit
  split <;> rfl

theorem indentText_zero : indentText cfg 0 = [] := by simp [indentText]

theorem addIndent_eq (ha : 0 ≤ cfg.indentAmount) :
    addIndent cfg s = .ok (s.wappend (indentText cfg s.indent)) := by
  simp only [addIndent, commonAssert_ok ha, bind, Except.bind, pure, Except.pure]
  split
  · rename_i h0
    rw [h0, indentText_zero, OutState.wappend, List.append_nil]
  · rfl

/-- The indent of the calls at a position, from the indent of the position. -/
def kidIndent (cfg : Config) (pos : Pos) (k : Int) : Int :=
  if pos = .opened then k + cfg.indentAmount else k

/-- The text before a call at a position with indent `k`. -/
def leadText (cfg : Config) (pos : Pos) (k : Int) : WStr :=
  (match pos with
    | .fresh => []
    | .opened => [nl]
    | .after => sepLine cfg.outputFormat) ++ indentText cfg (kidIndent cfg pos k)

/-- The document, the indent and the current element of a state. -/
structure At (s : OutState) (doc : WStr) (k : Int) (e : ElementType) : Prop where
  doc : s.doc = doc
  indent : s.indent = k
  current : s.currentElement = e

theorem runOps_lead (ha : 0 ≤ cfg.indentAmount) {doc : WStr} {k : Int} {e : ElementType} (hk : 0 ≤ k)
    (h : At s doc k e) (pos : Pos) :
    ∃ s', runOps cfg (leadOps cfg.outputFormat pos) s = .ok s' ∧
      At s' (doc ++ leadText cfg pos k) (kidIndent cfg pos k) e := by
  obtain ⟨rfl, rfl, rfl⟩ := h
  cases pos with
  | fresh =>
    refine ⟨s.wappend (indentText cfg s.indent), ?_, ⟨rfl, rfl, rfl⟩⟩
    simp [runOps, leadOps, Op.run, addIndent_eq ha]
  | opened =>
    -- the indent grows before it is written
    have hi : incIndent cfg (s.wappend [nl]) =
        .ok { s.wappend [nl] with indent := s.indent + cfg.indentAmount } := by
      simp [incIndent, OutState.wappend, hk]
    refine ⟨{ s.wappend [nl] with indent := s.indent + cfg.indentAmount }.wappend
      (indentText cfg (s.indent + cfg.indentAmount)), ?_, ⟨?_, rfl, rfl⟩⟩
    · simp only [runOps, leadOps, Op.run, List.foldlM_cons, List.foldlM_nil, bind, Except.bind, hi,
        addIndent_eq ha, pure, Except.pure]
    · simp [leadText, kidIndent, OutState.wappend]
  | after =>
    refine ⟨(s.wappend (sepLine cfg.outputFormat)).wappend (indentText cfg s.indent), ?_, ⟨?_, rfl, rfl⟩⟩
    · simp only [runOps, leadOps, Op.run, List.foldlM_cons, List.foldlM_nil, bind, Except.bind,
        addIndent_eq ha, pure, Except.pure]
      rfl
    · simp [leadText, kidIndent, OutState.wappend]

theorem runOps_close (ha : 0 ≤ cfg.indentAmount) {doc : WStr} {k : Int} {e : ElementType} (hk : 0 ≤ k)
    (h : At s doc (k + cfg.indentAmount) e) :
    ∃ s', runOps cfg [.wappend [nl], .decIndent, .addIndent] s = .ok s' ∧
      At s' (doc ++ ([nl] ++ indentText cfg k)) k e := by
  obtain ⟨rfl, hi, rfl⟩ := h
  have hd : decIndent cfg (s.wappend [nl]) = .ok { s.wappend [nl] with indent := k } := by
    have h0 : 0 ≤ k + cfg.indentAmount := by omega
    simp [decIndent, OutState.wappend, hi, hk, h0]
  refine ⟨{ s.wappend [nl] with indent := k }.wappend (indentText cfg k), ?_, ⟨?_, rfl, rfl⟩⟩
  · simp only [runOps, Op.run, List.foldlM_cons, List.foldlM_nil, bind, Except.bind, hd,
      addIndent_eq ha, pure, Except.pure]
  · simp [OutState.wappend]

/-- The text of the closing line of an empty group. -/
def emptyLine (cfg : Config) (k : Int) : WStr :=
  if cfg.outputFormat = .xml then [nl] ++ indentText cfg k else []

theorem runOps_empty (ha : 0 ≤ cfg.indentAmount) {doc : WStr} {k : Int} {e : ElementType}
    (h : At s doc k e) :
    ∃ s', runOps cfg (emptyOps cfg.outputFormat) s = .ok s' ∧ At s' (doc ++ emptyLine cfg k) k e := by
  obtain ⟨rfl, rfl, rfl⟩ := h
  unfold emptyOps emptyLine
  split
  · refine ⟨(s.wappend [nl]).wappend (indentText cfg s.indent), ?_, ⟨?_, rfl, rfl⟩⟩
    · simp only [runOps, Op.run, List.foldlM_cons, List.foldlM_nil, bind, Except.bind,
        addIndent_eq ha, pure, Except.pure]
      rfl
    · simp [OutState.wappend]
  · exact ⟨s, rfl, ⟨by simp, rfl, rfl⟩⟩

/-! ## The text of a call tree -/

/-- The line that closes a group with indent `k`. -/
def closeLine (cfg : Config) (k : Int) : Calls → WStr
  | .nil => emptyLine cfg k
  | _ => [nl] ++ indentText cfg k

/-- **The text of a call tree** at a position with indent `k`. -/
def callsText (cfg : Config) : Pos → Int → Calls → WStr
  | _, _, .nil => []
  | pos, k, .entry name value next =>
    leadText cfg pos k ++ entryText cfg name value ++ callsText cfg .after (kidIndent cfg pos k) next
  | pos, k, .group g kids next =>
    leadText cfg pos k ++ openText cfg g ++ callsText cfg .opened (kidIndent cfg pos k) kids ++
      closeLine cfg (kidIndent cfg pos k) kids ++ endText cfg g ++
      callsText cfg .after (kidIndent cfg pos k) next

/-- The indent after a call tree. -/
def endIndent (cfg : Config) (pos : Pos) (k : Int) : Calls → Int
  | .nil => k
  | _ => kidIndent cfg pos k

/-- The current element after a call tree. -/
def endElement (e : ElementType) : Calls → ElementType
  | .nil => e
  | .entry _ _ next => endElement .entry next
  | .group g _ next => endElement g.closeElement next

theorem kidIndent_nonneg (ha : 0 ≤ cfg.indentAmount) {k : Int} (hk : 0 ≤ k) (pos : Pos) :
    0 ≤ kidIndent cfg pos k := by
  unfold kidIndent; split <;> omega

theorem endIndent_after (k : Int) (c : Calls) : endIndent cfg .after k c = k := by
  cases c <;> simp [endIndent, kidIndent]

theorem fits_entry {array : Bool} {name : MbStr} {value : WStr} {next : Calls}
    (h : (Calls.entry name value next).fits fmt array) : array = false ∧ next.fits fmt array := by
  simpa [Calls.fits] using h

theorem fits_group {array : Bool} {g : Group} {kids next : Calls}
    (h : (Calls.group g kids next).fits fmt array) :
    g.isObject = array ∧ kids.fits fmt (g.isArray fmt) ∧ next.fits fmt array := by
  simpa [Calls.fits, and_assoc] using h

theorem isArray_false (hj : fmt ≠ .json) (g : Group) : g.isArray fmt = false := by
  cases g <;> simp [Group.isArray, hj]

/-- After a fitting sequence of calls, the next one comes after a call of the group. -/
theorem stands_after {array : Bool} (hA : fmt ≠ .json → array = false) :
    ∀ (c : Calls) (e : ElementType), c.fits fmt array → c ≠ .nil ∨ Stands fmt array e .after →
      Stands fmt array (endElement e c) .after := by
  intro c
  induction c with
  | nil => intro e _ h; simpa [endElement] using h
  | entry name value next ih =>
    intro e hfit _
    obtain ⟨hf, hn⟩ := fits_entry hfit
    exact ih _ hn (Or.inr (Or.inl ⟨rfl, hf⟩))
  | group g kids next _ ih =>
    intro e hfit _
    obtain ⟨hf, -, hn⟩ := fits_group hfit
    exact ih _ hn (Or.inr (Or.inr ⟨g, rfl, hf, fun hj => by rw [hf, hA hj]⟩))

theorem runEvents_cons (e : Event) (es : List Event) :
    runEvents cfg (e :: es) s = (step cfg s e).bind (runEvents cfg es) := rfl

theorem runEvents_append (es es' : List Event) :
    runEvents cfg (es ++ es') s = (runEvents cfg es s).bind (runEvents cfg es') := by
  simp [runEvents, List.foldlM_append, bind, Except.bind]

/-- An entry or an opening at a position: the lead of the position, then its text. -/
theorem change_lead (ha : 0 ≤ cfg.indentAmount) {pos : Pos} {doc : WStr} {k : Int} {e x : ElementType}
    (hk : 0 ≤ k) (h : At s doc k e) (hcell : elementCell cfg.outputFormat e x = leadOps cfg.outputFormat pos)
    (t : WStr) :
    ∃ s', (changeElement cfg x s).map (·.wappend t) = .ok s' ∧
      At s' (doc ++ leadText cfg pos k ++ t) (kidIndent cfg pos k) x := by
  rw [changeElement_eq ha, h.current, hcell]
  obtain ⟨s', hs', hAt⟩ := runOps_lead (s := { s with lastElement := e, currentElement := x }) ha hk
    ⟨h.doc, h.indent, rfl⟩ pos
  rw [hs']
  exact ⟨s'.wappend t, rfl, ⟨by simp [OutState.wappend, hAt.doc], hAt.indent, hAt.current⟩⟩

/-- The closing of a group: the line of the closing, then its text. -/
theorem change_close (ha : 0 ≤ cfg.indentAmount) (hf : cfg.outputFormat ≠ .crumb) {g : Group}
    (hg : cfg.outputFormat ≠ .json → g.isObject = false) {kids : Calls}
    (hfit : kids.fits cfg.outputFormat (g.isArray cfg.outputFormat)) {doc : WStr} {k : Int} (hk : 0 ≤ k)
    (h : At s doc (endIndent cfg .opened k kids) (endElement g.openElement kids)) (t : WStr) :
    ∃ s', (changeElement cfg g.closeElement s).map (·.wappend t) = .ok s' ∧
      At s' (doc ++ closeLine cfg k kids ++ t) k g.closeElement := by
  have key : ∃ s', runOps cfg (elementCell cfg.outputFormat s.currentElement g.closeElement)
      { s with lastElement := s.currentElement, currentElement := g.closeElement } = .ok s' ∧
      At s' (doc ++ closeLine cfg k kids) k g.closeElement := by
    by_cases hnil : kids = .nil
    · -- the opening is still the current element
      subst hnil
      rw [h.current, endElement, cell_empty hf hg]
      exact runOps_empty ha ⟨h.doc, h.indent, rfl⟩
    · have hst := stands_after (fun hj => isArray_false hj g) kids g.openElement hfit (Or.inl hnil)
      rw [h.current, cell_close hf hg hst]
      have hend : endIndent cfg .opened k kids = k + cfg.indentAmount := by
        cases kids <;> simp_all [endIndent, kidIndent]
      have hline : closeLine cfg k kids = [nl] ++ indentText cfg k := by
        cases kids <;> simp_all [closeLine]
      rw [hline]
      exact runOps_close ha hk ⟨h.doc, by rw [← hend]; exact h.indent, rfl⟩
  rw [changeElement_eq ha]
  obtain ⟨s', hs', hAt⟩ := key
  rw [hs']
  exact ⟨s'.wappend t, rfl, ⟨by simp [OutState.wappend, hAt.doc], hAt.indent, hAt.current⟩⟩

/-- **A run of a fitting call tree is its text**, from every position. -/
theorem run_calls (ha : 0 ≤ cfg.indentAmount) (hf : cfg.outputFormat ≠ .crumb)
    (hsep : cfg.outputFormat = .text → (cfg.locale.mbsrtowcs cfg.textSeparator).isSome) (c : Calls) :
    ∀ (array : Bool) (pos : Pos) {e : ElementType} {k : Int} {s : OutState} {doc : WStr},
      (cfg.outputFormat ≠ .json → array = false) → c.fits cfg.outputFormat array → c.Encodable cfg →
      Stands cfg.outputFormat array e pos → 0 ≤ k → At s doc k e →
      ∃ s', runEvents cfg c.events s = .ok s' ∧
        At s' (doc ++ callsText cfg pos k c) (endIndent cfg pos k c) (endElement e c) := by
  induction c with
  | nil =>
    intro array pos e k s doc _ _ _ _ _ h
    exact ⟨s, rfl, by simpa [callsText, endIndent, endElement] using h⟩
  | entry name value next ih =>
    intro array pos e k s doc hA hfit henc hst hk h
    obtain ⟨hAf, hfn⟩ := fits_entry hfit
    have hcell := (cell_lead hf hst).1 hAf
    have he : (Event.entry name value).Encodable cfg := henc.entry.1
    obtain ⟨s₁, h₁, hAt₁⟩ := change_lead ha hk h hcell (entryText cfg name value)
    obtain ⟨s', h', hAt'⟩ := ih array .after hA hfn henc.entry.2 (Or.inl ⟨rfl, hAf⟩)
      (kidIndent_nonneg ha hk pos) hAt₁
    refine ⟨s', ?_, ?_⟩
    · rw [Calls.events, runEvents_cons, step_entry ha hf hsep he, h₁]
      exact h'
    · rw [endIndent_after] at hAt'
      simpa only [callsText, endIndent, endElement, List.append_assoc] using hAt'
  | group g kids next ihk ihn =>
    intro array pos e k s doc hA hfit henc hst hk h
    obtain ⟨hgA, hfk, hfn⟩ := fits_group hfit
    have hg : cfg.outputFormat ≠ .json → g.isObject = false := fun hj => by rw [hgA, hA hj]
    have hk' := kidIndent_nonneg ha hk pos
    have he : g.opening.Encodable cfg := henc.group.1
    -- the opening
    obtain ⟨s₁, h₁, hAt₁⟩ := change_lead ha hk h ((cell_lead hf hst).2 g hgA hg) (openText cfg g)
    -- the calls of the group
    obtain ⟨s₂, h₂, hAt₂⟩ :=
      ihk _ .opened (fun hj => isArray_false hj g) hfk henc.group.2.1 ⟨g, rfl, rfl, hg⟩ hk' hAt₁
    -- the closing
    obtain ⟨s₃, h₃, hAt₃⟩ := change_close ha hf hg hfk hk' hAt₂ (endText cfg g)
    -- the calls after the group
    obtain ⟨s', h', hAt'⟩ := ihn array .after hA hfn henc.group.2.2 (Or.inr ⟨g, rfl, hgA, hg⟩) hk' hAt₃
    refine ⟨s', ?_, ?_⟩
    · rw [Calls.events, runEvents_cons, step_opening ha hf hg he, h₁]
      simp only [Except.bind]
      rw [runEvents_append, h₂]
      simp only [Except.bind]
      rw [runEvents_cons, step_closing ha hf hg, h₃]
      exact h'
    · rw [endIndent_after] at hAt'
      simpa only [callsText, endIndent, endElement, List.append_assoc] using hAt'

/-! ## Documents -/

/-- Object calls do nothing outside JSON. -/
theorem runEvents_eraseObjects (hf : cfg.outputFormat ≠ .json) (ha : 0 ≤ cfg.indentAmount) (es : List Event)
    (s : OutState) : runEvents cfg es s = runEvents cfg (eraseObjects es) s := by
  have hobj : ∀ e x t r, objectEvent cfg e x r t = .ok t := by
    intro e x t r
    simp only [objectEvent, commonAssert_ok ha, bind, Except.bind]
    cases h : cfg.outputFormat <;> first | rfl | exact absurd h hf
  induction es generalizing s with
  | nil => rfl
  | cons e es ih =>
    by_cases he : e.isObject = true
    · have hstep : step cfg s e = .ok s := by
        cases e <;> simp only [Event.isObject, Bool.false_eq_true] at he <;> exact hobj _ _ _ _
      rw [runEvents_cons, hstep]
      simpa [eraseObjects, he, Except.bind] using ih s
    · have herase : eraseObjects (e :: es) = e :: eraseObjects es := by simp [eraseObjects, he]
      rw [herase, runEvents_cons, runEvents_cons]
      cases step cfg s e with
      | error x => rfl
      | ok t => exact ih t

/-- A document: the header, the calls and the footer. -/
def runDocument (cfg : Config) (es : List Event) : Except Halt OutState := do
  let s ← masterHeader cfg {}
  let s ← runEvents cfg es s
  masterFooter cfg s

/-- What the program relies on of `iswprint`, in every locale: the printable ASCII characters
print, the control characters do not. -/
structure Locale.Standard (loc : Locale) : Prop where
  print : ∀ c : WChar, 0x20 ≤ c.val → c.val ≤ 0x7E → loc.iswprint c = true
  cntrl : ∀ c : WChar, c.val < 0x20 → loc.iswprint c = false

theorem posixLocale_standard : posixLocale.Standard :=
  ⟨fun c h1 h2 => by simp [posixLocale, h1, h2], fun c h => by simp [posixLocale]; omega⟩

/-- Printable ASCII characters are decoded one by one. -/
structure Locale.Ascii (loc : Locale) : Prop where
  decodes : ∀ s : String, (s.toList.all fun c => decide (0x20 ≤ c.toNat ∧ c.toNat ≤ 0x7E)) = true →
    loc.mbsrtowcs (bytes s) = some (lit s)

theorem posixLocale_ascii : posixLocale.Ascii := by
  refine ⟨fun s hall => ?_⟩
  have hs : ∀ c ∈ s.toList, 0x20 ≤ c.toNat ∧ c.toNat ≤ 0x7E :=
    fun c hc => of_decide_eq_true (List.all_eq_true.1 hall c hc)
  have hsmall {c : Char} (hc : c ∈ s.toList) : (UInt8.ofNat c.toNat).toNat = c.toNat := by
    have := (hs c hc).2
    simp only [UInt8.toNat_ofNat']
    omega
  have hall : (bytes s).all (· < 0x80) := by
    simp only [bytes, List.all_eq_true, List.mem_map, decide_eq_true_eq]
    rintro _ ⟨c, hc, rfl⟩
    have := (hs c hc).2
    rw [UInt8.lt_iff_toNat_lt, hsmall hc]
    change c.toNat < 128
    omega
  have hchars : (bytes s).map (fun b => (Fin.ofNat 0x110000 b.toNat : WChar)) = lit s := by
    rw [bytes, List.map_map, lit]
    refine List.map_congr_left fun c hc => Fin.ext ?_
    change (UInt8.ofNat c.toNat).toNat % 0x110000 = c.toNat
    rw [hsmall hc]
    exact Nat.mod_eq_of_lt (toNat_lt c)
  simp only [posixLocale, if_pos hall, hchars]

end Procenv
