import Procenv.Proof.Json
import Procenv.Proof.Pstring
import Procenv.Proof.Xml

/-!
# The end of JSON and XML documents

Every newline of a JSON or an XML document comes from the layout, and stands after a
bracket, a quote, a comma or the end of a tag. With a blank as indent character
`pstring_chomp` and `pstring_compress` then have nothing to remove: the document is
shown as it is. The one exception is an XML document without any call, which has an
empty line.

* `nl_notMem_encode`: a newline in a name or a value is escaped.
* `calls_solid`: no line of a call tree's text ends in the indent character.
* `chomp_settled`, `compress_settled`: such texts are left alone.
* `run_solid`: **the documents are such texts.**
-/

namespace Procenv

open Text

variable {cfg : Config} {u : WChar} {a s t w : WStr}

/-! ## Texts whose lines end in other characters -/

/-- The text ends in a character other than the newline and `u`. -/
def EndsSolid (u : WChar) (t : WStr) : Prop := ∃ q x, t = q ++ [x] ∧ x ≠ u ∧ x ≠ nl

/-- Every line of the text that a newline ends, ends in another character than `u`. -/
def Settled (u : WChar) (t : WStr) : Prop := ∀ p r, t = p ++ nl :: r → EndsSolid u p

/-- Every line, also the last one, ends in a character other than `u`. -/
structure Solid (u : WChar) (t : WStr) : Prop where
  ends : EndsSolid u t
  settled : Settled u t

theorem EndsSolid.append (h : EndsSolid u t) (a : WStr) : EndsSolid u (a ++ t) := by
  obtain ⟨q, x, rfl, hx⟩ := h
  exact ⟨a ++ q, x, by simp, hx⟩

theorem EndsSolid.not_append (h : EndsSolid u (t ++ [nl])) : False := by
  obtain ⟨q, x, hq, -, hx⟩ := h
  exact hx (by simpa using (List.append_inj' hq rfl).2.symm)

theorem Settled.append (ha : Settled u a) (h : ∀ p r, t = p ++ nl :: r → EndsSolid u (a ++ p)) :
    Settled u (a ++ t) := by
  intro p r hpr
  rcases List.append_eq_append_iff.1 hpr with ⟨m, rfl, ht⟩ | ⟨m, rfl, hm⟩
  · exact h m r ht
  · rcases m with _ | ⟨x, m⟩
    · have := h [] r (by simpa using hm.symm)
      simpa using this
    · obtain ⟨rfl, rfl⟩ := List.cons.inj (hm.symm : x :: (m ++ t) = nl :: r)
      exact ha p m rfl

/-- A text that keeps what comes before it solid. -/
def Keeps (u : WChar) (t : WStr) : Prop := ∀ a, Solid u a → Solid u (a ++ t)

theorem Keeps.nil : Keeps u [] := fun a ha => by simpa using ha

theorem Keeps.append (hs : Keeps u s) (ht : Keeps u t) : Keeps u (s ++ t) := fun a ha => by
  rw [← List.append_assoc]
  exact ht _ (hs a ha)

/-- Text on one line. -/
theorem Keeps.token (hw : nl ∉ w) (he : EndsSolid u w) : Keeps u w := fun a ha =>
  ⟨he.append a, ha.settled.append fun p r hpr => absurd (hpr ▸ by simp) hw⟩

/-- A new line. -/
theorem Keeps.line (hw : nl ∉ w) (he : EndsSolid u w) : Keeps u (nl :: w) := fun a ha => by
  refine ⟨by simpa using he.append (a ++ [nl]), ha.settled.append fun p r hpr => ?_⟩
  rcases p with _ | ⟨x, p⟩
  · simpa using ha.ends
  · obtain ⟨rfl, hp⟩ := List.cons.inj hpr
    exact absurd (hp ▸ by simp) hw

theorem Solid.token (hw : nl ∉ w) (he : EndsSolid u w) : Solid u w :=
  ⟨he, fun p r hpr => absurd (hpr ▸ by simp) hw⟩

/-- The newline at the end of the document. -/
theorem Solid.newline (h : Solid u t) : Settled u (t ++ [nl]) := h.settled.append fun p r hpr => by
  rcases p with _ | ⟨x, p⟩
  · simpa using h.ends
  · simp at hpr

/-- **`pstring_chomp` leaves a text alone that ends in one newline.** -/
theorem chomp_settled (h : EndsSolid u t) : pstringChomp u (t ++ [nl]) = .ok (t ++ [nl]) := by
  obtain ⟨q, x, rfl, hx⟩ := h
  have hother : ¬ (x = nl ∨ x = u) := not_or.2 hx.symm
  rw [List.append_assoc]
  exact chomp_split (y := [nl]) hother (by simp)

theorem Settled.no_run (h : Settled u t) {p r : WStr} (hpr : t = p ++ r) :
    ¬ BlankRun u r ∧ ∀ q, r ≠ nl :: nl :: q := by
  constructor
  · rintro ⟨m, q, hm, rfl⟩
    obtain ⟨k, rfl⟩ : ∃ k, m = k + 1 := ⟨m - 1, by omega⟩
    obtain ⟨b, x, hb, hx, -⟩ := h (p ++ List.replicate (k + 1) u) q (by rw [hpr, List.append_assoc])
    rw [List.replicate_succ', ← List.append_assoc] at hb
    exact hx (by simpa using (List.append_inj' hb rfl).2.symm)
  · rintro q rfl
    exact (h (p ++ [nl]) q (by rw [hpr]; simp)).not_append

/-- **`pstring_compress` leaves a text alone whose lines end in other characters.** -/
theorem compress_settled (h : Settled u t) : pstringCompress u t = .ok t := by
  have hid := compressLoop_id (c := u) (t.length + 1) (s := t) [] 0
    (fun p r hpr => h.no_run hpr) (by omega)
  simp [pstringCompress, compressCopy, hid, bind, Except.bind, pure, Except.pure]

/-- An empty line between two solid texts is removed, and with it the newline at the end. -/
theorem compress_blank (hun : u ≠ nl) (ha : Solid u a) (hw : nl ∉ w) (he : EndsSolid u w) :
    pstringCompress u (a ++ nl :: nl :: (w ++ [nl])) = .ok (a ++ nl :: w) := by
  have hne : w ≠ [] := by
    obtain ⟨q, x, rfl, -⟩ := he
    simp
  obtain ⟨x, w', rfl⟩ := List.exists_cons_of_ne_nil hne
  have hx : x ≠ nl := fun h => hw (by simp [h])
  have hend : ∀ p m, 2 ≤ m → ¬ EndsSolid u (p ++ List.replicate m u) := by
    rintro p m hm ⟨q, y, hq, hy, -⟩
    obtain ⟨k, rfl⟩ : ∃ k, m = k + 1 := ⟨m - 1, by omega⟩
    rw [List.replicate_succ', ← List.append_assoc] at hq
    exact hy (by simpa using (List.append_inj' hq rfl).2.symm)
  -- what comes before the empty line is copied
  have hcopy := compressLoop_copy (c := u) (a := a) (t := nl :: nl :: (x :: w' ++ [nl]))
    ((x :: w').length + 4) [] 0 (by
      rintro p r rfl hr
      refine ⟨?_, fun q hq => ?_⟩
      · rintro ⟨m, r', hm, hr'⟩
        rcases List.append_eq_append_iff.1 hr' with ⟨b, hb, ht⟩ | ⟨b, hb, ht⟩
        · rcases b with _ | ⟨y, b⟩
          · rw [List.append_nil] at hb
            rw [← hb] at hr
            exact hend p m hm (by rw [hb]; simpa using ha.ends)
          · have hmem : y ∈ List.replicate m u := by rw [hb]; simp
            rw [(List.mem_replicate.1 hmem).2] at ht
            exact hun (List.cons.inj ht).1.symm
        · rcases b with _ | ⟨y, b⟩
          · rw [List.append_nil] at hb
            exact hend p m hm (by rw [← hb]; exact ha.ends)
          · obtain ⟨rfl, -⟩ := List.cons.inj (ht : nl :: r' = y :: (b ++ _))
            exact hend p m hm (ha.settled (p ++ List.replicate m u) b (by rw [hb]; simp))
      · rcases r with _ | ⟨y, _ | ⟨z, r⟩⟩
        · exact hr rfl
        · obtain rfl : y = nl := (List.cons.inj hq).1
          exact ha.ends.not_append
        · simp only [List.cons_append, List.cons.injEq] at hq
          obtain ⟨rfl, rfl, -⟩ := hq
          exact (ha.settled (p ++ [nl]) r (by simp)).not_append)
  -- the empty line is counted
  have hround : compressRound u (nl :: nl :: (x :: w' ++ [nl])) 0 0 = ⟨nl :: (x :: w' ++ [nl]), false, 0, 1⟩ := by
    simp [compressRound, skipBlanks, skipRun, hx, hun.symm]
  have hid := compressLoop_id (c := u) ((x :: w').length + 3) (s := x :: w' ++ [nl]) (a ++ [nl]) 1
    (fun p r hpr => (Solid.token hw he).newline.no_run hpr) (by simp)
  have hloop : compressCopy u (a ++ nl :: nl :: (x :: w' ++ [nl])) =
    .ok (a ++ [nl] ++ (x :: w' ++ [nl]), 0, 1) := by
    rw [compressCopy, show (a ++ nl :: nl :: (x :: w' ++ [nl])).length + 1 = a.length + ((x :: w').length + 4) by
      simp; omega, hcopy, compressLoop, hround]
    simpa using hid
  simp only [pstringCompress, hloop, bind, Except.bind, pure, Except.pure]
  rw [if_pos (by simp), if_neg (by simp)]
  congr 1
  have hlen : (a ++ nl :: nl :: (x :: w' ++ [nl])).length - (1 + 0) - 1 = (a ++ nl :: (x :: w')).length := by
    simp
  rw [hlen, show a ++ [nl] ++ (x :: w' ++ [nl]) = (a ++ nl :: (x :: w')) ++ [nl] by simp, List.take_left]

/-! ## Names and values are on one line -/

theorem nl_notMem_escapeText (fmt : OutputFormat) (c : WChar) : nl ∉ escapeText fmt c := by
  have hhex : ∀ p, nl ∉ fmtHex p c.val := by
    intro p h
    obtain ⟨d, hd, hc⟩ := hexFixed_digit h
    have hval := hexDigit_val hd
    rw [← hc, show (nl : WChar).val = 10 from rfl] at hval
    split at hval <;> omega
  unfold escapeText
  split
  · simp only [List.mem_append, not_or]
    exact ⟨by decide, hhex 4⟩
  · simp only [List.mem_append, not_or]
    exact ⟨⟨by decide, hhex 2⟩, by decide⟩

/-- **A newline in a name or a value is escaped.** -/
theorem nl_notMem_encode (hf : cfg.outputFormat = .json ∨ cfg.outputFormat = .xml)
    (hnl : cfg.locale.iswprint nl = false) {r : WStr} (h : cfg.encode w = some r) : nl ∉ r := by
  rw [encode_flatMap hf h]
  intro hmem
  obtain ⟨c, -, hmem⟩ := List.mem_flatMap.1 hmem
  obtain ⟨d, -, hmem⟩ := List.mem_flatMap.1 hmem
  unfold escapeChar at hmem
  split at hmem
  · rename_i hp
    obtain rfl : nl = d := by simpa using hmem
    simp [hnl] at hp
  · exact nl_notMem_escapeText _ _ hmem

section Document

variable (hf : cfg.outputFormat = .json ∨ cfg.outputFormat = .xml) (hnl : cfg.locale.iswprint nl = false)
  (hu : Json.isWs cfg.indentUnit = true) (hun : cfg.indentUnit ≠ nl)

section Line

include hf hnl

theorem nl_notMem_valueText {value : WStr} (h : (cfg.encode value).isSome) : nl ∉ cfg.valueText value := by
  obtain ⟨r, hr⟩ := Option.isSome_iff_exists.1 h
  rw [Config.valueText, hr]
  exact nl_notMem_encode hf hnl hr

theorem nl_notMem_nameText {name : MbStr} (h : (cfg.encodeName name).isSome) : nl ∉ cfg.nameText name := by
  obtain ⟨r, hr⟩ := Option.isSome_iff_exists.1 h
  obtain ⟨v, -, hv⟩ := encodeName_eq hr
  rw [Config.nameText, hr]
  exact nl_notMem_encode hf hnl hv

theorem nl_notMem_entryText {name : MbStr} {value : WStr} (h : (Event.entry name value).Encodable cfg) :
    nl ∉ entryText cfg name value := by
  have hn := nl_notMem_nameText hf hnl h.1
  have hv := nl_notMem_valueText hf hnl h.2
  rcases hf with hf | hf <;> simp only [entryText, hf, List.mem_append, not_or]
  · exact ⟨⟨⟨⟨by decide, hn⟩, by decide⟩, hv⟩, by decide⟩
  · exact ⟨⟨⟨⟨by decide, hn⟩, by decide⟩, hv⟩, by decide⟩

theorem nl_notMem_openText {g : Group} (h : g.opening.Encodable cfg) : nl ∉ openText cfg g := by
  have key : ∀ bracket tag name, nl ∉ bracket → nl ∉ tag → (cfg.encodeName name).isSome →
      nl ∉ namedOpenText cfg bracket tag name := by
    intro bracket tag name hb ht hn
    have hn := nl_notMem_nameText hf hnl hn
    rcases hf with hf | hf <;> simp only [namedOpenText, hf, List.mem_append, not_or]
    · exact ⟨⟨⟨by decide, hn⟩, by decide⟩, hb⟩
    · exact ⟨⟨⟨⟨by decide, ht⟩, by decide⟩, hn⟩, by decide⟩
  cases g with
  | sect name => exact key _ _ _ (by decide) (by decide) h
  | cont name => exact key _ _ _ (by decide) (by decide) h
  | object => show nl ∉ lit "\x7b"; decide

end Line

theorem nl_notMem_indentText (hun : cfg.indentUnit ≠ nl) (k : Int) : nl ∉ indentText cfg k := by
  rw [indentText_eq]
  intro h
  exact hun (List.mem_replicate.1 h).2.symm

/-- Brackets, quotes and the ends of tags are no indent characters. -/
theorem endsSolid_of (hu : Json.isWs u = true) {x : WChar} (hx : Json.isWs x = false) (q : WStr) :
    EndsSolid u (q ++ [x]) := by
  refine ⟨q, x, rfl, ?_, ?_⟩
  · rintro rfl
    simp [hu] at hx
  · rintro rfl
    simp [show Json.isWs nl = true from rfl] at hx

include hf hu

theorem entryText_ends (name : MbStr) (value : WStr) : EndsSolid cfg.indentUnit (entryText cfg name value) := by
  rcases hf with hf | hf <;> simp only [entryText, hf]
  · exact endsSolid_of hu (x := 0x22) (by decide) _
  · have h := endsSolid_of hu (x := 0x3E) (by decide)
      (lit "<entry name=\"" ++ cfg.nameText name ++ lit "\">" ++ cfg.valueText value ++ lit "</entry")
    simpa [lit, CodePoint.ofChar] using h

theorem openText_ends (g : Group) : EndsSolid cfg.indentUnit (openText cfg g) := by
  have key : ∀ x tag name, Json.isWs x = false →
      EndsSolid cfg.indentUnit (namedOpenText cfg [x] tag name) := by
    intro x tag name hx
    rcases hf with hf | hf <;> simp only [namedOpenText, hf]
    · exact endsSolid_of hu hx _
    · have h := endsSolid_of hu (x := 0x3E) (by decide)
        (lit "<" ++ tag ++ lit " name=\"" ++ cfg.nameText name ++ lit "\"")
      simpa [lit, CodePoint.ofChar] using h
  cases g with
  | sect name => exact key 0x7B _ _ (by decide)
  | cont name => exact key 0x5B _ _ (by decide)
  | object => exact endsSolid_of hu (x := 0x7B) (by decide) []

/-- The text of a closing ends in its bracket or tag, and is on one line. -/
theorem endText_ends {g : Group} : EndsSolid cfg.indentUnit (endText cfg g) ∧ nl ∉ endText cfg g := by
  have key : ∀ x tag, Json.isWs x = false → nl ∉ tag →
      EndsSolid cfg.indentUnit (namedCloseText cfg [x] tag) ∧ nl ∉ namedCloseText cfg [x] tag := by
    intro x tag hx ht
    have hxn : nl ≠ x := by
      rintro rfl
      simp [show Json.isWs nl = true from rfl] at hx
    rcases hf with hf | hf <;> simp only [namedCloseText, hf]
    · exact ⟨endsSolid_of hu hx [], by simpa using hxn⟩
    · refine ⟨endsSolid_of hu (x := 0x3E) (by decide) (lit "</" ++ tag), ?_⟩
      simp only [List.mem_append, not_or]
      exact ⟨⟨by decide, ht⟩, by decide⟩
  cases g with
  | sect name => exact key 0x7D _ (by decide) (by decide)
  | cont name => exact key 0x5D _ (by decide) (by decide)
  | object => exact ⟨endsSolid_of hu (x := 0x7D) (by decide) [], by show nl ∉ lit "\x7d"; decide⟩

include hun

/-- A call on a new line of a group. -/
theorem lead_keeps {pos : Pos} (hpos : pos ≠ .fresh) (k : Int) (hw : nl ∉ w)
    (he : EndsSolid cfg.indentUnit w) : Keeps cfg.indentUnit (leadText cfg pos k ++ w) := by
  have hline : Keeps cfg.indentUnit (nl :: (indentText cfg (kidIndent cfg pos k) ++ w)) := by
    refine Keeps.line ?_ (he.append _)
    simp only [List.mem_append, not_or]
    exact ⟨nl_notMem_indentText hun _, hw⟩
  cases pos with
  | fresh => exact absurd rfl hpos
  | opened => simpa [leadText] using hline
  | after =>
    rcases hf with hf | hf
    · have hcomma : Keeps cfg.indentUnit [0x2C] :=
        Keeps.token (by decide) (endsSolid_of hu (x := 0x2C) (by decide) [])
      have h := hcomma.append hline
      simpa [leadText, sepLine, hf, lit, CodePoint.ofChar, nl] using h
    · simpa [leadText, sepLine, hf] using hline

theorem close_keeps (k : Int) (kids : Calls) (g : Group) :
    Keeps cfg.indentUnit (closeLine cfg k kids ++ endText cfg g) := by
  obtain ⟨he, hn⟩ := endText_ends (g := g) hf hu
  have hline : Keeps cfg.indentUnit (nl :: (indentText cfg k ++ endText cfg g)) := by
    refine Keeps.line ?_ (he.append _)
    simp only [List.mem_append, not_or]
    exact ⟨nl_notMem_indentText hun _, hn⟩
  cases kids with
  | nil =>
    simp only [closeLine, emptyLine]
    split
    · simpa using hline
    · simpa using Keeps.token hn he
  | entry _ _ _ => simpa [closeLine] using hline
  | group _ _ _ => simpa [closeLine] using hline

include hnl

/-- **No line of a call tree's text ends in the indent character.** -/
theorem calls_solid (c : Calls) (henc : c.Encodable cfg) :
    ∀ (pos : Pos) (k : Int), pos ≠ .fresh → Keeps cfg.indentUnit (callsText cfg pos k c) := by
  induction c with
  | nil => intro pos k _; exact Keeps.nil
  | entry name value next ih =>
    intro pos k hpos
    have he : (Event.entry name value).Encodable cfg := henc.entry.1
    exact (lead_keeps hf hu hun hpos k (nl_notMem_entryText hf hnl he) (entryText_ends hf hu _ _)).append
      (ih henc.entry.2 .after _ (by simp))
  | group g kids next ihk ihn =>
    intro pos k hpos
    have he : g.opening.Encodable cfg := henc.group.1
    have hkids := ihk henc.group.2.1 .opened
      (kidIndent cfg pos k) (by simp)
    have hnext := ihn henc.group.2.2 .after
      (kidIndent cfg pos k) (by simp)
    have h := (((lead_keeps hf hu hun hpos k (nl_notMem_openText hf hnl he) (openText_ends hf hu g)).append
      hkids).append (close_keeps hf hu hun (kidIndent cfg pos k) kids g)).append hnext
    simpa [callsText] using h

/-! ## Documents -/

/-- The text of a JSON document. -/
theorem json_solid {c : Calls} (henc : c.Encodable cfg) (k : Int) :
    Solid cfg.indentUnit (lit "\x7b" ++ groupText cfg k c ++ lit "\x7d") := by
  have hopen : Solid cfg.indentUnit (lit "\x7b") :=
    .token (by decide) (endsSolid_of hu (x := 0x7B) (by decide) [])
  have h := ((calls_solid hf hnl hu hun c henc .opened k (by simp)).append
    (close_keeps hf hu hun k c .object)) _ hopen
  simpa [groupText, endText] using h

end Document

/-- The start tag of the root element, without the newline after it. -/
def xmlRootTag (cfg : Config) : WStr :=
  lit "<" ++ packageName ++ lit " version=\"" ++ packageVersion ++ lit "\" package_string=\"" ++
    packageString ++ lit "\" mode=\"" ++ xmlMode cfg ++ lit "\" format_version=\"" ++
    procenvFormatVersion ++ lit "\">"

/-- The start of an XML document, without its last newline. -/
def xmlHead (cfg : Config) : WStr := lit "<?xml version=\"1.0\" encoding=\"UTF-8\"?>" ++ nl :: xmlRootTag cfg

theorem xmlHead_eq : xmlDeclaration ++ xmlRootOpen cfg = xmlHead cfg ++ [nl] := by
  simp [xmlDeclaration, xmlRootOpen, xmlHead, xmlRootTag, lit, CodePoint.ofChar, nl]

theorem xmlHead_solid (cfg : Config) (hu : Json.isWs u = true) : Solid u (xmlHead cfg) := by
  have hroot : nl ∉ xmlRootTag cfg := by
    have hmode : nl ∉ xmlMode cfg := by
      unfold xmlMode
      split <;> decide
    simp only [xmlRootTag, List.mem_append, not_or]
    exact ⟨⟨⟨⟨⟨⟨⟨⟨⟨⟨by decide, by decide⟩, by decide⟩, by decide⟩, by decide⟩, by decide⟩, by decide⟩, hmode⟩,
      by decide⟩, by decide⟩, by decide⟩
  have hends : EndsSolid u (xmlRootTag cfg) := by
    have h := (endsSolid_of hu (x := 0x3E) (by decide) [0x22]).append
      (lit "<" ++ packageName ++ lit " version=\"" ++ packageVersion ++ lit "\" package_string=\"" ++
        packageString ++ lit "\" mode=\"" ++ xmlMode cfg ++ lit "\" format_version=\"" ++ procenvFormatVersion)
    exact h
  have hdecl : Solid u (lit "<?xml version=\"1.0\" encoding=\"UTF-8\"?>") :=
    .token (by decide) (endsSolid_of hu (x := 0x3E) (by decide) (lit "<?xml version=\"1.0\" encoding=\"UTF-8\"?"))
  exact Keeps.line hroot hends _ hdecl

/-- The end tag of the root element. -/
def xmlRootClose : WStr := lit "</" ++ packageName ++ lit ">"

theorem xmlRootClose_ends (hu : Json.isWs u = true) : EndsSolid u xmlRootClose :=
  endsSolid_of hu (x := 0x3E) (by decide) (lit "</" ++ packageName)

/-- The first calls of an XML document start on a new line. -/
theorem callsText_fresh (hf : cfg.outputFormat = .xml) {c : Calls} (hc : c ≠ .nil) (k : Int) :
    nl :: callsText cfg .fresh k c = callsText cfg .after k c := by
  have hlead : nl :: leadText cfg .fresh k = leadText cfg .after k := by
    simp [leadText, sepLine, hf, kidIndent]
  cases c with
  | nil => exact absurd rfl hc
  | entry name value next => simp [callsText, ← hlead, kidIndent]
  | group g kids next => simp [callsText, ← hlead, kidIndent]

/-- The text of an XML document with at least one call. -/
theorem xml_solid (hf : cfg.outputFormat = .xml) (hnl : cfg.locale.iswprint nl = false)
    (hu : Json.isWs cfg.indentUnit = true) (hun : cfg.indentUnit ≠ nl) {c : Calls} (henc : c.Encodable cfg)
    (hc : c ≠ .nil) (k : Int) :
    Solid cfg.indentUnit (xmlHead cfg ++ nl :: callsText cfg .fresh k c ++ nl :: xmlRootClose) := by
  rw [callsText_fresh hf hc]
  have h := ((calls_solid (Or.inr hf) hnl hu hun c henc .after k (by simp)).append
    (Keeps.line (w := xmlRootClose) (by decide) (xmlRootClose_ends hu))) _ (xmlHead_solid cfg hu)
  simpa using h

/-- The run of an XML document, with its text line by line. -/
theorem run_xmlText (hf : cfg.outputFormat = .xml) (ha : 0 ≤ cfg.indentAmount) {c : Calls}
    (hfit : c.fits .xml false) (henc : c.Encodable cfg) {es : List Event} (hes : eraseObjects es = c.events) :
    ∃ s, runDocument cfg es = .ok s ∧
      s.doc = xmlHead cfg ++ nl :: callsText cfg .fresh cfg.indentAmount c ++ nl :: xmlRootClose ++ [nl] := by
  obtain ⟨s, hs, -, hdoc⟩ := run_xmlDocument hf ha hfit henc hes
  refine ⟨s, hs, ?_⟩
  rw [hdoc, xmlHead_eq]
  simp [xmlRootClose, lit, CodePoint.ofChar, nl]

/-- **The document of a call tree that is not empty**, with a blank as indent character: no line ends in
that character. -/
theorem run_solid (hf : cfg.outputFormat = .json ∨ cfg.outputFormat = .xml)
    (hnl : cfg.locale.iswprint nl = false) (hu : Json.isWs cfg.indentUnit = true) (hun : cfg.indentUnit ≠ nl)
    (ha : 0 ≤ cfg.indentAmount) {calls : Calls} (hne : calls ≠ .nil) (hfit : calls.fits cfg.outputFormat false)
    (henc : calls.Encodable cfg) {es : List Event}
    (hes : if cfg.outputFormat = .json then es = calls.events else eraseObjects es = calls.events) :
    ∃ s t, runDocument cfg es = .ok s ∧ s.doc = t ++ [nl] ∧ Solid cfg.indentUnit t := by
  rcases hf with hf | hf
  · rw [hf] at hfit
    rw [if_pos hf] at hes
    obtain ⟨s, hs, hdoc, -⟩ := run_jsonDocument hf ha hfit henc
    exact ⟨s, _, hes ▸ hs, hdoc, json_solid (Or.inl hf) hnl hu hun henc 0⟩
  · rw [hf] at hfit
    rw [if_neg (by simp [hf])] at hes
    obtain ⟨s, hs, hdoc⟩ := run_xmlText hf ha hfit henc hes
    exact ⟨s, _, hs, hdoc, xml_solid hf hnl hu hun henc hne cfg.indentAmount⟩

end Procenv
