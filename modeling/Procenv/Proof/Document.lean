import Procenv.Data.Lockstep
import Procenv.Model.Document
import Procenv.Proof.Format
import Procenv.Proof.MainDocument

/-!
# The buffer of the document

`add_indent` fills a buffer that `wappendva` made, whose length counts the terminator,
and `pappend` needs a terminator to find in `doc`. It finds one because the indent is
zero as long as nothing has been written: every table cell that calls `inc_indent`
appends a newline before it.

* `appendIndent_eq`: **both ways append as many indent characters as the indent says.**
* `runCalls_refines`: the calls on the buffer do what they do on the text of the
  document, and stop where they stop; `document_buffer` for a whole document.
* `runCalls_documents`: **at every append the buffer is a document of everything that
  was appended before.**
-/

namespace Procenv.Document

open Text Data Outcome

variable {cfg : Config} {print : WStr → Vswprintf} {d : Pstring} {t src : WStr} {s : DocState} {o : OutState}

/-! ## Documents -/

/-- **The document of a text**: nothing, or the text with its terminator, length and size. -/
def IsDocument (d : Pstring) (t : WStr) : Prop :=
  (d.len = 0 ∧ d.buf = [] ∧ t = []) ∨
    (d.buf.string 0 = some t ∧ d.len = t.length ∧ d.buf[d.len]? = some (some 0) ∧
      d.size = (d.len + 1) * sizeofWchar)

theorem isDocument_new : IsDocument pstringNew [] := Or.inl ⟨rfl, rfl, rfl⟩

theorem isDocument_ofText (hz : 0 ∉ t) : IsDocument (.ofText t) t := by
  refine Or.inr ⟨Buffer.string_map hz [], rfl, ?_, ?_⟩
  · simp only [Pstring.ofText]
    rw [List.getElem?_append_right (by simp)]
    simp
  · simp only [Pstring.ofText, Nat.add_comm]

theorem IsDocument.holds (h : IsDocument d t) : d.Holds t := by
  rcases h with ⟨hlen, hbuf, rfl⟩ | ⟨hstr, hlen, -, -⟩
  · exact ⟨by rw [Pstring.content, if_pos hbuf], hlen⟩
  · refine ⟨?_, hlen⟩
    rw [Pstring.content, if_neg]
    · exact hstr
    · intro hb
      rw [hb] at hstr
      cases hstr

/-- The document of a text and what is appended to it. -/
theorem IsDocument.append (h : IsDocument d t) (hz : 0 ∉ src) : IsDocument (.ofText (t ++ src)) (t ++ src) :=
  isDocument_ofText (List.not_mem_append h.holds.noZero hz)

/-- Appending a text to a document makes the document of both. -/
theorem IsDocument.wappend (h : IsDocument d t) (hz : 0 ∉ src) :
    ∃ d', wappend (some d) src = .ok (some d') ∧ IsDocument d' (t ++ src) := by
  by_cases hsrc : src = []
  · subst hsrc
    refine ⟨d, wappend_nil _, ?_⟩
    rw [List.append_nil]
    exact h
  · exact ⟨_, wappend_eq h.holds hsrc, h.append hz⟩

/-! ## What the C library promises -/

/-- A format and its arguments print the text they expand to, and strings decode to characters
that are no terminators, a blank to a blank. -/
structure CLibrary (cfg : Config) (print : WStr → Vswprintf) : Prop where
  expansion : ∀ t, 0 ∉ t → (print t).expansion = some t
  noZero : ∀ str w, cfg.locale.mbsrtowcs str = some w → 0 ∉ w
  blank : cfg.locale.mbsrtowcs (bytes " ") = some [32]

theorem wappendf_some (hlib : CLibrary cfg print) (hz : 0 ∉ t) (d : Pstring) :
    wappendf print (some d) t = wappend (some d) t := by
  obtain ⟨r, hr⟩ := wappendva_ends (hlib.expansion t hz) (some d)
  rw [wappendf, hr, Option.getD_some]
  exact wappendva_some (hlib.expansion t hz) hr

theorem wappendf_none (hlib : CLibrary cfg print) (hz : 0 ∉ t) :
    wappendf print none t = .ok (some (.printed t)) := by
  obtain ⟨r, hr⟩ := wappendva_ends (hlib.expansion t hz) none
  rw [wappendf, hr, Option.getD_some]
  exact wappendva_null (hlib.expansion t hz) hr

theorem IsDocument.wappendf (hlib : CLibrary cfg print) (h : IsDocument d t) (hz : 0 ∉ src) :
    ∃ d', wappendf print (some d) src = .ok (some d') ∧ IsDocument d' (t ++ src) := by
  rw [wappendf_some hlib hz]
  exact h.wappend hz

/-! ## Indents -/

/-- One character in a field of blanks. -/
theorem pad_char {k : Int} (hk : 0 < k) (c : WChar) :
    pad k [c] = List.replicate (k.toNat - 1) 32 ++ [c] := by
  have hwidth : k.natAbs - [c].length = k.toNat - 1 := by
    rw [List.length_singleton]
    omega
  rw [pad, hwidth, if_pos (Int.le_of_lt hk)]

/-- The cells of a field that `wmemset` fills: both terminators are left. -/
theorem filled_string {n : Nat} {c : WChar} {t : WStr} (hlen : t.length = n) (hc : c ≠ 0) :
    ∃ buf, (Pstring.printed t).buf.storeAll 0 (List.replicate n c) = some buf ∧
      buf.string 0 = some (List.replicate n c) := by
  have hfits : 0 + (List.replicate n c).length ≤ (Pstring.printed t).buf.length := by
    simp [Pstring.printed, hlen]
  refine ⟨_, Buffer.storeAll_eq hfits, ?_⟩
  have hrest : (Pstring.printed t).buf.drop (0 + (List.replicate n c).length) = [some 0, some 0] := by
    rw [Nat.zero_add, List.length_replicate, ← hlen, Pstring.printed, ← List.length_map some, List.drop_left]
  rw [hrest, List.take_zero, List.nil_append]
  exact Buffer.string_map (fun h => hc (List.eq_of_mem_replicate h).symm) [some 0]

/-- **Both ways append as many indent characters as the indent says**, to a document that is not
empty. -/
theorem appendIndent_eq (hlib : CLibrary cfg print) (hc : Coherent cfg.locale cfg.toSettings)
    {k : Int} (hk : 0 < k) (h : IsDocument d t) (ht : t ≠ []) :
    ∃ d', appendIndent cfg print k (some d) = .ok (some d') ∧
      IsDocument d' (t ++ List.replicate k.toNat cfg.wideIndentChar) := by
  have hc0 : cfg.wideIndentChar ≠ 0 := fun h0 => hlib.noZero _ _ hc (by rw [h0]; exact List.mem_singleton.2 rfl)
  have hz : 0 ∉ List.replicate k.toNat cfg.wideIndentChar := fun h => hc0 (List.eq_of_mem_replicate h).symm
  have hsucc : k.toNat = (k.toNat - 1) + 1 := by omega
  unfold appendIndent
  split
  · -- the default: the last blank is `indent_char` itself
    rename_i hblank
    have hdecode : expandStr cfg.locale cfg.indentChar = .ok [32] := by
      rw [expandStr, hblank, hlib.blank]
    have hwide : cfg.wideIndentChar = 32 := by
      have := hc
      rw [Coherent, hblank, hlib.blank] at this
      exact (List.cons.inj (Option.some.inj this)).1.symm
    have hpad : pad k [32] = List.replicate k.toNat cfg.wideIndentChar := by
      rw [pad_char hk, hwide, ← List.replicate_succ', ← hsucc]
    simp only [hdecode, bind, Except.bind]
    rw [hpad]
    exact h.wappendf hlib hz
  · have hlen : (pad k [cfg.wideIndentChar]).length = k.toNat := by
      rw [pad_char hk, List.length_append, List.length_replicate, List.length_singleton, ← hsucc]
    have hpz : 0 ∉ pad k [cfg.wideIndentChar] := by
      rw [pad_char hk, List.mem_append, not_or]
      refine ⟨fun h => absurd (List.eq_of_mem_replicate h) (by decide), ?_⟩
      rw [List.mem_singleton]
      exact hc0.symm
    have hstr : (Pstring.printed (pad k [cfg.wideIndentChar])).buf.string 0 = some (pad k [cfg.wideIndentChar]) :=
      Buffer.string_map hpz [some 0]
    obtain ⟨buf, hbuf, hfilled⟩ := filled_string hlen hc0
    simp only [wappendf_none hlib hpz, hstr, access, hlen, hbuf, bind, Except.bind]
    refine ⟨_, pappend_string h.holds (h.holds.buf_ne_nil ht) hfilled ?_, h.append hz⟩
    rw [Pstring.printed, hlen, List.length_replicate]

/-! ## The record -/

/-- What an append is to append: an indent, as many indent characters. -/
def Emission.text (cfg : Config) : Emission → WStr
  | .wappend t | .wappendf t => t
  | .addIndent indent => List.replicate indent.toNat cfg.wideIndentChar

/-- Everything that was appended. -/
def emittedText (cfg : Config) (xs : List Emitted) : WStr := xs.flatMap fun x => x.emission.text cfg

/-- **An append to the document of a text**: it makes the document of that text and what is appended, and
an indent is appended to a text only. -/
structure Emitted.Sound (cfg : Config) (t : WStr) (x : Emitted) : Prop where
  dest : ∃ d, x.dest = some d ∧ IsDocument d t
  result : ∃ d, x.result = .ok (some d) ∧ IsDocument d (t ++ x.emission.text cfg)
  indent : ∀ k, x.emission = .addIndent k → 0 < k ∧ t ≠ []

/-- Every append was one to the document of what was appended before, and `doc` is the document of
all. -/
structure Holding (cfg : Config) (s : DocState) : Prop where
  doc : ∃ d, s.doc = some d ∧ IsDocument d (emittedText cfg s.emitted)
  sound : ∀ before x after, s.emitted = before ++ x :: after → x.Sound cfg (emittedText cfg before)

/-- The state on the buffer and the state on the text: no indent stands before the first text. -/
structure Tracks (cfg : Config) (s : DocState) (o : OutState) : Prop extends Holding cfg s where
  text : emittedText cfg s.emitted = o.doc
  lastElement : s.lastElement = o.lastElement
  currentElement : s.currentElement = o.currentElement
  crumbList : s.crumbList = o.crumbList
  heap : s.heap = o.heap
  indent_eq : s.indent = o.indent
  nonneg : 0 ≤ o.indent
  written : o.indent ≠ 0 → o.doc ≠ []

/-- Both stop for one reason; the document holds what was appended until then. -/
def Halted (cfg : Config) (stop : Stop) (halt : Halt) : Prop := stop.halt = halt ∧ Holding cfg stop.state

/-- A call on the text of the document. -/
def DocCall.onText (cfg : Config) (o : OutState) : DocCall → Except Halt OutState
  | .masterHeader => Procenv.masterHeader cfg o
  | .event e => Procenv.step cfg o e
  | .masterFooter => Procenv.masterFooter cfg o
  | .resetIndent => .ok (Procenv.resetIndent o)

/-- A call on the buffer does what it does on the text. -/
abbrev Refines (cfg : Config) : Except Stop DocState → Except Halt OutState → Prop :=
  Lockstep (Halted cfg) (Tracks cfg)

theorem tracks_init (cfg : Config) : Tracks cfg {} {} where
  doc := ⟨_, rfl, isDocument_new⟩
  sound before x after h := by cases before <;> cases h
  text := rfl
  lastElement := rfl
  currentElement := rfl
  crumbList := rfl
  heap := rfl
  indent_eq := rfl
  nonneg := Int.le_refl 0
  written h := absurd rfl h

/-- A call that does not write the globals. -/
theorem Tracks.keep (h : Tracks cfg s o) {α : Type} {x : Except Halt α} {P : α → Prop}
    (hP : ∀ a, x = .ok a → P a) : Lockstep (Halted cfg) (fun a a' => a = a' ∧ P a) (s.keep x) x :=
  Lockstep.mapError (fun _ _ => ⟨rfl, h.toHolding⟩) hP

theorem Tracks.assert (h : Tracks cfg s o) :
    Lockstep (Halted cfg) (fun _ _ => True) (s.keep (commonAssert cfg)) (commonAssert cfg) :=
  (h.keep (P := fun _ => True) fun _ _ => trivial).mono fun _ _ _ => trivial

/-- **One append.** -/
theorem Tracks.emit (h : Tracks cfg s o) {e : Emission} {call : Option Pstring → Except Halt (Option Pstring)}
    (hcall : ∀ d, IsDocument d o.doc → ∃ d', call (some d) = .ok (some d') ∧ IsDocument d' (o.doc ++ e.text cfg))
    (hindent : ∀ k, e = .addIndent k → 0 < k ∧ o.doc ≠ []) :
    Refines cfg (s.emit e call) (.ok (o.wappend (e.text cfg))) := by
  obtain ⟨d, hd, hdoc⟩ := h.doc
  rw [h.text] at hdoc
  obtain ⟨d', hd', hdoc'⟩ := hcall d hdoc
  have hall : emittedText cfg (s.emitted ++ [⟨e, some d, .ok (some d')⟩]) = o.doc ++ e.text cfg := by
    rw [emittedText, List.flatMap_append, ← emittedText, h.text, List.flatMap_singleton]
  rw [DocState.emit, hd, hd']
  refine
    { doc := ⟨d', rfl, hall ▸ hdoc'⟩
      sound := ?_
      text := hall
      lastElement := h.lastElement
      currentElement := h.currentElement
      crumbList := h.crumbList
      heap := h.heap
      indent_eq := h.indent_eq
      nonneg := h.nonneg
      written := fun hi happ => h.written hi (List.append_eq_nil_iff.1 happ).1 }
  intro before x after hsplit
  -- the new append is the last one
  rcases List.eq_nil_or_concat after with rfl | ⟨after, y, rfl⟩
  · obtain ⟨rfl, rfl⟩ : s.emitted = before ∧ _ = x := by simpa using List.append_inj' hsplit rfl
    exact ⟨⟨d, rfl, h.text ▸ hdoc⟩, ⟨d', rfl, h.text ▸ hdoc'⟩, h.text ▸ hindent⟩
  · rw [List.concat_eq_append, ← List.cons_append, ← List.append_assoc] at hsplit
    exact h.sound before x after (List.append_inj' hsplit rfl).1

theorem Tracks.wappend (h : Tracks cfg s o) (hz : 0 ∉ src) :
    Refines cfg (s.wappend src) (.ok (o.wappend src)) := by
  apply h.emit (e := .wappend src)
  · intro d hd
    exact hd.wappend hz
  · intro k hk
    cases hk

theorem Tracks.wappendf (hlib : CLibrary cfg print) (h : Tracks cfg s o) (hz : 0 ∉ src) :
    Refines cfg (s.wappendf print src) (.ok (o.wappend src)) := by
  apply h.emit (e := .wappendf src)
  · intro d hd
    exact hd.wappendf hlib hz
  · intro k hk
    cases hk

/-- The text of an indent. -/
theorem indentText_coherent (hlib : CLibrary cfg print) (hc : Coherent cfg.locale cfg.toSettings) {k : Int}
    (hk : 0 < k) : indentText cfg k = (Emission.addIndent k).text cfg := by
  rw [indentText, Emission.text, show k.natAbs = k.toNat by omega]
  split
  · rename_i hblank
    rw [Coherent, hblank, hlib.blank] at hc
    rw [(List.cons.inj (Option.some.inj hc)).1]
  · rfl

/-! ## Elements -/

theorem incIndent_refines (ha : 0 ≤ cfg.indentAmount) (h : Tracks cfg s o) (hdoc : o.doc ≠ []) :
    Refines cfg (incIndent cfg s) (Procenv.incIndent cfg o) := by
  rw [incIndent, Procenv.incIndent, if_pos h.nonneg, if_pos (h.indent_eq ▸ h.nonneg)]
  have hpos : 0 ≤ o.indent + cfg.indentAmount := Int.add_nonneg h.nonneg ha
  exact { h with
    indent_eq := congrArg (· + cfg.indentAmount) h.indent_eq
    nonneg := hpos
    written := fun _ => hdoc }

theorem decIndent_refines (ha : 0 ≤ cfg.indentAmount) (h : Tracks cfg s o) :
    Refines cfg (decIndent cfg s) (Procenv.decIndent cfg o) := by
  rw [decIndent, Procenv.decIndent, if_pos h.nonneg, if_pos (h.indent_eq ▸ h.nonneg)]
  simp only [h.indent_eq]
  by_cases hk : 0 ≤ o.indent - cfg.indentAmount
  · rw [if_pos hk, if_pos hk]
    have hleft : o.indent - cfg.indentAmount ≠ 0 → o.indent ≠ 0 := by
      intro hne h0
      omega
    exact { h with indent_eq := rfl, nonneg := hk, written := fun hne => h.written (hleft hne) }
  · rw [if_neg hk, if_neg hk]
    exact ⟨rfl, h.doc, h.sound⟩

theorem addIndent_refines (hlib : CLibrary cfg print) (hc : Coherent cfg.locale cfg.toSettings)
    (h : Tracks cfg s o) : Refines cfg (addIndent cfg print s) (Procenv.addIndent cfg o) := by
  unfold addIndent Procenv.addIndent
  apply h.assert.bind
  intro _ _ _
  rw [h.indent_eq]
  by_cases hk : o.indent = 0
  · rw [if_pos hk, if_pos hk]
    exact h
  · have hpos : 0 < o.indent := by
      have := h.nonneg
      omega
    rw [if_neg hk, if_neg hk, indentText_coherent hlib hc hpos]
    apply h.emit
    · intro d hd
      exact appendIndent_eq hlib hc hpos hd (h.written hk)
    · intro k hk'
      obtain rfl : o.indent = k := Emission.addIndent.inj hk'
      exact ⟨hpos, h.written hk⟩

/-- The calls of a cell append no terminator, and call `inc_indent` after something is written only. -/
def writesFirst : (written : Bool) → List Op → Bool
  | _, [] => true
  | written, .wappend t :: ops => decide (0 ∉ t) && writesFirst (written || !t.isEmpty) ops
  | written, .incIndent :: ops => written && writesFirst written ops
  | written, _ :: ops => writesFirst written ops

/-- **Every cell of the three tables appends before it calls `inc_indent`.** -/
theorem cell_writesFirst (fmt : OutputFormat) (last current : ElementType) :
    writesFirst false (elementCell fmt last current) = true := by
  cases fmt <;> cases last <;> cases current <;> decide

/-- One call of such a cell; the next calls are those of such a cell again. -/
theorem writesFirst_run (ha : 0 ≤ cfg.indentAmount) {op : Op} {ops : List Op} {written : Bool} {o' : OutState}
    (hops : writesFirst written (op :: ops) = true) (hw : written = true → o.doc ≠ [])
    (hrun : Op.run cfg o op = .ok o') :
    ∃ written', writesFirst written' ops = true ∧ (written' = true → o'.doc ≠ []) := by
  cases op with
  | wappend t =>
    simp only [writesFirst, Bool.and_eq_true] at hops
    obtain rfl : o.wappend t = o' := Except.ok.inj hrun
    refine ⟨_, hops.2, fun h happ => ?_⟩
    obtain ⟨hdoc, rfl⟩ := List.append_eq_nil_iff.1 happ
    rw [List.isEmpty_nil, Bool.not_true, Bool.or_false] at h
    exact hw h hdoc
  | incIndent =>
    simp only [writesFirst, Bool.and_eq_true] at hops
    rw [Op.run, Procenv.incIndent] at hrun
    split at hrun
    · obtain rfl := Except.ok.inj hrun
      exact ⟨written, hops.2, hw⟩
    · cases hrun
  | decIndent =>
    refine ⟨written, hops, fun h => ?_⟩
    rw [decIndent_doc hrun]
    exact hw h
  | addIndent =>
    rw [Op.run, addIndent_eq ha] at hrun
    obtain rfl := Except.ok.inj hrun
    exact ⟨written, hops, fun h happ => hw h (List.append_eq_nil_iff.1 happ).1⟩
  | notReached fn => cases hrun

section Calls

variable (hlib : CLibrary cfg print) (hc : Coherent cfg.locale cfg.toSettings) (ha : 0 ≤ cfg.indentAmount)
include hlib hc ha

theorem runOp_refines {op : Op} {written : Bool} {ops : List Op} (h : Tracks cfg s o)
    (hops : writesFirst written (op :: ops) = true) (hw : written = true → o.doc ≠ []) :
    Refines cfg (runOp cfg print s op) (Op.run cfg o op) := by
  cases op with
  | wappend t =>
    simp only [writesFirst, Bool.and_eq_true, decide_eq_true_eq] at hops
    exact h.wappend hops.1
  | incIndent =>
    simp only [writesFirst, Bool.and_eq_true] at hops
    exact incIndent_refines ha h (hw hops.1)
  | decIndent => exact decIndent_refines ha h
  | addIndent => exact addIndent_refines hlib hc h
  | notReached fn => exact ⟨rfl, h.doc, h.sound⟩

theorem runOps_refines {ops : List Op} {written : Bool} (h : Tracks cfg s o)
    (hops : writesFirst written ops = true) (hw : written = true → o.doc ≠ []) :
    Refines cfg (runOps cfg print ops s) (Procenv.runOps cfg ops o) := by
  induction ops generalizing written s o with
  | nil => exact h
  | cons op ops ih =>
    rw [runOps, Procenv.runOps, List.foldlM_cons, List.foldlM_cons]
    apply (runOp_refines hlib hc ha h hops hw).and_result.bind
    rintro s' o' ⟨h', hrun⟩
    obtain ⟨written', hops', hw'⟩ := writesFirst_run ha hops hw hrun
    exact ih h' hops' hw'

theorem formatElement_refines (h : Tracks cfg s o) :
    Refines cfg (formatElement cfg print s) (Procenv.formatElement cfg o) := by
  rw [formatElement, Procenv.formatElement, h.lastElement, h.currentElement]
  apply runOps_refines hlib hc ha h (cell_writesFirst _ _ _)
  intro hw
  cases hw

theorem changeElement_refines (h : Tracks cfg s o) (new : ElementType) :
    Refines cfg (changeElement cfg print new s) (Procenv.changeElement cfg new o) := by
  unfold changeElement Procenv.changeElement
  apply h.assert.bind
  intro _ _ _
  exact formatElement_refines hlib hc ha { h with lastElement := h.currentElement, currentElement := rfl }

end Calls

/-! ## Names and breadcrumbs -/

theorem zero_notMem_charToWchar (hlib : CLibrary cfg print) {name : MbStr} {w : WStr}
    (h : charToWchar cfg.locale name = some w) : 0 ∉ w := by
  unfold charToWchar at h
  split at h
  · cases h
  · cases h
  · rename_i w' _ hw
    rw [← Option.some.inj h]
    exact hlib.noZero _ _ hw

theorem zero_notMem_expandStr (hlib : CLibrary cfg print) {str : MbStr} {w : WStr}
    (h : expandStr cfg.locale str = .ok w) : 0 ∉ w := by
  unfold expandStr at h
  split at h
  · cases h
  · rename_i w' hw
    rw [← Except.ok.inj h]
    exact hlib.noZero _ _ hw

theorem addBreadcrumb_tracks (h : Tracks cfg s o) (name : MbStr) :
    Tracks cfg (addBreadcrumb name s) (Procenv.addBreadcrumb name o) := by
  unfold addBreadcrumb Procenv.addBreadcrumb
  rw [h.crumbList, h.heap]
  exact { h with crumbList := rfl, heap := rfl }

theorem removeBreadcrumb_refines (h : Tracks cfg s o) :
    Refines cfg (removeBreadcrumb s) (Procenv.removeBreadcrumb o) := by
  unfold removeBreadcrumb Procenv.removeBreadcrumb
  rw [h.crumbList, h.heap]
  cases o.crumbList with
  | none => exact ⟨rfl, h.doc, h.sound⟩
  | some list => exact { h with crumbList := rfl, heap := rfl }

theorem zero_notMem_encodeOrDie {fmt : String} {w r : WStr} (hw : 0 ∉ w) (h : encodeOrDie cfg fmt w = .ok r) :
    0 ∉ r := by
  obtain ⟨⟨ret, encoded⟩, he, h⟩ := ok_of_bind h
  simp only at h
  split at h
  · cases h
  · obtain rfl := Except.ok.inj h
    exact zero_notMem_encodeString hw he

theorem zero_notMem_nameToWideName (hlib : CLibrary cfg print) {name : MbStr} {r : WStr}
    (h : nameToWideName cfg name = .ok r) : 0 ∉ r := by
  unfold nameToWideName at h
  split at h
  · cases h
  · rename_i w hw
    have hencode : encodeOrDie cfg "failed to encode name" w = .ok r := h
    exact zero_notMem_encodeOrDie (zero_notMem_charToWchar hlib hw) hencode

/-! ## The display routines -/

theorem crumbText_wappend (o : OutState) (iters : List Nat) (t : WStr) :
    crumbText cfg (o.wappend t) iters = crumbText cfg o iters := by
  induction iters with
  | nil => rfl
  | cons iter iters ih =>
    rw [crumbText, crumbText, ih]
    rfl

theorem zero_notMem_xmlRootOpen (cfg : Config) : 0 ∉ xmlRootOpen cfg := by
  unfold xmlRootOpen xmlMode
  split <;> simp only [List.mem_append, not_or] <;> decide

section Steps

variable (hlib : CLibrary cfg print) (hc : Coherent cfg.locale cfg.toSettings) (ha : 0 ≤ cfg.indentAmount)
include hlib hc ha

theorem objectEvent_refines (h : Tracks cfg s o) (element : ElementType) (hz : 0 ∉ src) (retain : Bool) :
    Refines cfg (objectEvent cfg print element src retain s) (Procenv.objectEvent cfg element src retain o) := by
  unfold objectEvent Procenv.objectEvent
  apply h.assert.bind
  intro _ _ _
  cases cfg.outputFormat with
  | text | crumb | xml => exact h
  | json =>
    have happend : ∀ s' o', Tracks cfg s' o' → Refines cfg (s'.wappend src) (pure (o'.wappend src)) :=
      fun _ _ h' => h'.wappend hz
    cases retain with
    | true => exact (formatElement_refines hlib hc ha h).bind happend
    | false => exact (changeElement_refines hlib hc ha h element).bind happend

theorem groupOpen_refines (h : Tracks cfg s o) (element : ElementType) {bracket tag : WStr} (hb : 0 ∉ bracket)
    (ht : 0 ∉ tag) (name : MbStr) :
    Refines cfg (groupOpen cfg print element bracket tag name s)
      (Procenv.groupOpen cfg element bracket tag name o) := by
  unfold groupOpen Procenv.groupOpen
  apply h.assert.bind
  intro _ _ _
  apply (h.keep fun w hw => zero_notMem_nameToWideName hlib hw).bind
  rintro w _ ⟨rfl, hw⟩
  apply (changeElement_refines hlib hc ha h element).bind
  intro s' o' h'
  cases cfg.outputFormat with
  | text => exact h'.wappendf hlib (List.not_mem_append hw (by decide))
  | crumb => exact addBreadcrumb_tracks h' name
  | json =>
    apply h'.wappendf hlib
    simp only [List.mem_append, not_or]
    exact ⟨⟨⟨by decide, hw⟩, by decide⟩, hb⟩
  | xml =>
    apply h'.wappendf hlib
    simp only [List.mem_append, not_or]
    exact ⟨⟨⟨⟨by decide, ht⟩, by decide⟩, hw⟩, by decide⟩

theorem groupClose_refines (h : Tracks cfg s o) (element : ElementType) {bracket tag : WStr} (hb : 0 ∉ bracket)
    (ht : 0 ∉ tag) :
    Refines cfg (groupClose cfg print element bracket tag s) (Procenv.groupClose cfg element bracket tag o) := by
  unfold groupClose Procenv.groupClose
  apply h.assert.bind
  intro _ _ _
  apply (changeElement_refines hlib hc ha h element).bind
  intro s' o' h'
  cases cfg.outputFormat with
  | text => exact h'
  | crumb => exact removeBreadcrumb_refines h'
  | json => exact h'.wappend hb
  | xml =>
    apply h'.wappend
    simp only [List.mem_append, not_or]
    exact ⟨⟨by decide, ht⟩, by decide⟩

omit hc ha in
/-- The bread crumbs are appended one by one. -/
theorem crumbLoop_refines (h : Tracks cfg s o) (iters : List Nat) :
    Lockstep (Halted cfg) (fun s' crumbs => Tracks cfg s' (o.wappend crumbs)) (crumbLoop cfg print s iters)
      (crumbText cfg o iters) := by
  induction iters generalizing s o with
  | nil =>
    have hdoc : o.wappend [] = o := by rw [OutState.wappend, List.append_nil]
    rw [crumbLoop, crumbText, lockstep_pure, hdoc]
    exact h
  | cons iter iters ih =>
    rw [crumbLoop, crumbText, h.heap]
    apply (h.keep fun w hw => zero_notMem_expandStr hlib hw).bind
    rintro crumb _ ⟨rfl, hcrumb⟩
    apply (h.keep fun w hw => zero_notMem_expandStr hlib hw).bind
    rintro sep _ ⟨rfl, hsep⟩
    -- what is left does not depend on the document
    have hrest : ∀ t, crumbText cfg (o.wappend t) iters = crumbText cfg o iters := crumbText_wappend o iters
    have happend := h.wappendf hlib (List.not_mem_append hcrumb hsep)
    obtain ⟨s', hs', h'⟩ := happend.result' rfl
    rw [hs', ← hrest (crumb ++ sep)]
    have hloop := (ih h').bind (g := fun rest => pure (crumb ++ sep ++ rest)) (f := pure)
      (S := fun s' crumbs => Tracks cfg s' (o.wappend crumbs)) fun s'' rest h'' => by
        rw [lockstep_pure]
        rw [OutState.wappend, OutState.wappend, List.append_assoc] at h''
        exact h''
    rw [bind_pure] at hloop
    exact hloop

theorem entry_refines (h : Tracks cfg s o) (name : MbStr) {value : WStr} (hv : 0 ∉ value) :
    Refines cfg (entry cfg print name value s) (Procenv.entry cfg name value o) := by
  unfold entry Procenv.entry
  apply h.assert.bind
  intro _ _ _
  apply (changeElement_refines hlib hc ha h .entry).bind
  intro s' o' h'
  have hstop : ∀ halt, Halted cfg ⟨halt, s'⟩ halt := fun _ => ⟨rfl, h'.toHolding⟩
  -- the two encodings: where one of them dies, both sides stop before anything is appended
  unfold entryName
  cases hw : charToWchar cfg.locale name with
  | none => exact hstop _
  | some w =>
    simp only [encodeOrDie]
    cases he : encodeString cfg.locale cfg.outputFormat w with
    | error e => exact hstop _
    | ok r =>
      obtain ⟨ret, n⟩ := r
      simp only [bind, Except.bind]
      by_cases hret : ret < 0
      · simp only [if_pos hret]
        exact hstop _
      simp only [if_neg hret]
      cases hev : encodeString cfg.locale cfg.outputFormat value with
      | error e => exact hstop _
      | ok r =>
        obtain ⟨ret', v⟩ := r
        simp only
        by_cases hret' : ret' < 0
        · simp only [if_pos hret']
          exact hstop _
        simp only [if_neg hret']
        have hnz := zero_notMem_encodeString (zero_notMem_charToWchar hlib hw) he
        have hvz := zero_notMem_encodeString hv hev
        cases cfg.outputFormat with
        | text =>
          refine (h'.keep fun w hw => zero_notMem_expandStr hlib hw).bind ?_
          rintro sep _ ⟨rfl, hsep⟩
          exact h'.wappendf hlib (List.not_mem_append (List.not_mem_append hnz hsep) hvz)
        | crumb =>
          rw [h'.crumbList, h'.heap]
          cases o'.crumbList with
          | none => exact hstop _
          | some list =>
            simp only
            cases prListForeach o'.heap list with
            | none => exact hstop _
            | some iters =>
              refine (crumbLoop_refines hlib h' iters).bind ?_
              intro s'' crumbs h''
              refine (h''.keep fun w hw => zero_notMem_expandStr hlib hw).bind ?_
              rintro sep _ ⟨rfl, hsep⟩
              apply h''.wappendf hlib
              simp only [List.mem_append, not_or]
              exact ⟨⟨⟨hnz, hsep⟩, hvz⟩, by decide⟩
        | json =>
          apply h'.wappendf hlib
          simp only [List.mem_append, not_or]
          exact ⟨⟨⟨⟨by decide, hnz⟩, by decide⟩, hvz⟩, by decide⟩
        | xml =>
          apply h'.wappendf hlib
          simp only [List.mem_append, not_or]
          exact ⟨⟨⟨⟨by decide, hnz⟩, by decide⟩, hvz⟩, by decide⟩

theorem masterHeader_refines (h : Tracks cfg s o) :
    Refines cfg (masterHeader cfg print s) (Procenv.masterHeader cfg o) := by
  unfold masterHeader Procenv.masterHeader
  apply h.assert.bind
  intro _ _ _
  cases cfg.outputFormat with
  | text | crumb => exact h
  | json => exact objectEvent_refines hlib hc ha h .objectOpen (by decide) false
  | xml =>
    have hdecl : 0 ∉ xmlDeclaration := by decide
    obtain ⟨s₁, hs₁, h₁⟩ := (h.wappend hdecl).result' rfl
    obtain ⟨s₂, hs₂, h₂⟩ := (h₁.wappendf hlib (zero_notMem_xmlRootOpen cfg)).result' rfl
    simp only [hs₁, hs₂, bind, Except.bind]
    apply incIndent_refines ha h₂
    intro happ
    obtain ⟨-, hnil⟩ := List.append_eq_nil_iff.1 (List.append_eq_nil_iff.1 happ).1
    exact absurd hnil (by decide)

theorem masterFooter_refines (h : Tracks cfg s o) :
    Refines cfg (masterFooter cfg print s) (Procenv.masterFooter cfg o) := by
  unfold masterFooter Procenv.masterFooter
  apply h.assert.bind
  intro _ _ _
  have hnl : 0 ∉ [nl] := by decide
  cases cfg.outputFormat with
  | text | crumb => exact h.wappend hnl
  | json =>
    have hbrace : 0 ∉ lit "\x7d" := by decide
    refine (objectEvent_refines hlib hc ha h .objectClose hbrace false).bind ?_
    intro s' o' h'
    exact h'.wappend hnl
  | xml =>
    obtain ⟨s₁, hs₁, h₁⟩ := (h.wappend hnl).result' rfl
    simp only [hs₁]
    refine (decIndent_refines ha h₁).bind ?_
    intro s' o' h'
    exact h'.wappendf hlib (by decide)

theorem step_refines (h : Tracks cfg s o) {e : Event} (hv : ∀ name value, e = .entry name value → 0 ∉ value) :
    Refines cfg (step cfg print s e) (Procenv.step cfg o e) := by
  cases e with
  | entry name value => exact entry_refines hlib hc ha h name (hv name value rfl)
  | sectionOpen name => exact groupOpen_refines hlib hc ha h _ (by decide) (by decide) name
  | sectionClose => exact groupClose_refines hlib hc ha h _ (by decide) (by decide)
  | containerOpen name => exact groupOpen_refines hlib hc ha h _ (by decide) (by decide) name
  | containerClose => exact groupClose_refines hlib hc ha h _ (by decide) (by decide)
  | objectOpen retain => exact objectEvent_refines hlib hc ha h _ (by decide) retain
  | objectClose retain => exact objectEvent_refines hlib hc ha h _ (by decide) retain

theorem runCall_refines (h : Tracks cfg s o) {call : DocCall}
    (hv : ∀ name value, call = .event (.entry name value) → 0 ∉ value) :
    Refines cfg (runCall cfg print s call) (call.onText cfg o) := by
  cases call with
  | masterHeader => exact masterHeader_refines hlib hc ha h
  | event e => exact step_refines hlib hc ha h fun name value he => hv name value (congrArg DocCall.event he)
  | masterFooter => exact masterFooter_refines hlib hc ha h
  | resetIndent => exact { h with indent_eq := rfl, nonneg := Int.le_refl 0, written := fun h => absurd rfl h }

end Steps

/-- **The calls on the buffer do what they do on the text**, and stop where they stop. -/
theorem runCalls_refines (hlib : CLibrary cfg print) (hc : Coherent cfg.locale cfg.toSettings)
    (ha : 0 < cfg.indentAmount) (h : Tracks cfg s o) {calls : List DocCall}
    (hv : ∀ name value, .event (.entry name value) ∈ calls → 0 ∉ value) :
    Refines cfg (runCalls cfg print calls s) (calls.foldlM (fun o call => call.onText cfg o) o) := by
  apply Lockstep.foldlM
  · intro s o call hmem h
    exact runCall_refines hlib hc (Int.le_of_lt ha) h fun name value he => hv name value (he ▸ hmem)
  · exact h

/-- The calls of a document on its text. -/
theorem documentCalls_onText (es : List Event) :
    (documentCalls es).foldlM (fun o call => call.onText cfg o) {} = runDocument cfg es := by
  have hevents : ∀ o, (es.map DocCall.event).foldlM (fun o call => call.onText cfg o) o = runEvents cfg es o :=
    fun o => List.foldlM_map ..
  rw [documentCalls, List.cons_append, List.foldlM_cons, runDocument]
  congr 1
  funext o
  rw [List.foldlM_append, hevents]
  congr 1
  funext o'
  exact bind_pure _

/-- **A document whose run ends on the text ends on the buffer**, as the document of that text. -/
theorem document_buffer (hlib : CLibrary cfg print) (hc : Coherent cfg.locale cfg.toSettings)
    (ha : 0 < cfg.indentAmount) {es : List Event} (hv : ∀ name value, .entry name value ∈ es → 0 ∉ value)
    (h : runDocument cfg es = .ok o) :
    ∃ s d, runCalls cfg print (documentCalls es) {} = .ok s ∧ s.doc = some d ∧ IsDocument d o.doc := by
  have hcalls : ∀ name value, .event (.entry name value) ∈ documentCalls es → 0 ∉ value := by
    intro name value hmem
    simp only [documentCalls, List.mem_cons, List.mem_append, List.mem_map, reduceCtorEq,
      false_or, List.not_mem_nil, or_false, DocCall.event.injEq, exists_eq_right] at hmem
    exact hv name value hmem
  have hrun := runCalls_refines hlib hc ha (tracks_init cfg) hcalls
  rw [documentCalls_onText] at hrun
  obtain ⟨s, hs, htracks⟩ := hrun.result' h
  obtain ⟨d, hd, hdoc⟩ := htracks.doc
  exact ⟨s, d, hs, hd, htracks.text ▸ hdoc⟩

/-- The state that a run ends in, or stops in, holds what was appended. -/
theorem holding_of_refines {x : Except Stop DocState} {y : Except Halt OutState} (h : Refines cfg x y) :
    Holding cfg (lastState x) := by
  cases x with
  | ok s =>
    obtain ⟨o, -, ho⟩ := h.result rfl
    exact ho.toHolding
  | error stop =>
    cases y with
    | ok o => exact h.elim
    | error halt => exact h.2

/-- **At every append, in every run of calls, well nested or not, the buffer is the document of everything
appended before**, and afterwards of that and the text appended; an indent is as many indent characters, and
is appended to a text only. -/
theorem runCalls_documents (hlib : CLibrary cfg print) (hc : Coherent cfg.locale cfg.toSettings)
    (ha : 0 < cfg.indentAmount) (calls : List DocCall)
    (hv : ∀ name value, .event (.entry name value) ∈ calls → 0 ∉ value) :
    let s := lastState (runCalls cfg print calls {})
    (∃ d, s.doc = some d ∧ IsDocument d (emittedText cfg s.emitted)) ∧
      ∀ before x after, s.emitted = before ++ x :: after →
        (∃ d, x.dest = some d ∧ IsDocument d (emittedText cfg before)) ∧
        (∃ d, x.result = .ok (some d) ∧ IsDocument d (emittedText cfg before ++ x.emission.text cfg)) ∧
        ∀ k, x.emission = .addIndent k →
          0 < k ∧ emittedText cfg before ≠ [] ∧
            x.emission.text cfg = List.replicate k.toNat cfg.wideIndentChar := by
  have h := holding_of_refines (runCalls_refines hlib hc ha (tracks_init cfg) hv)
  refine ⟨h.doc, fun before x after hx => ?_⟩
  have hsound := h.sound before x after hx
  refine ⟨hsound.dest, hsound.result, fun k hk => ?_⟩
  obtain ⟨hpos, hne⟩ := hsound.indent k hk
  exact ⟨hpos, hne, by rw [hk, Emission.text]⟩

/-- The POSIX locale, which reads a string up to its terminator. -/
def posixStrings : Locale where
  mbsrtowcs s := posixLocale.mbsrtowcs (s.takeWhile (· ≠ 0))
  iswprint := posixLocale.iswprint

/-- `vswprintf` for a text. -/
def printText (t : WStr) : Vswprintf :=
  .ofExpansion (if 0 ∈ t then none else some t) fun text h => by
    split at h
    · cases h
    · rename_i hz
      rwa [← Option.some.inj h]

theorem posixStrings_library {cfg : Config} (h : cfg.locale = posixStrings) : CLibrary cfg printText where
  expansion t hz := if_neg hz
  noZero str w hw hz := by
    rw [h] at hw
    simp only [posixStrings, posixLocale, Option.ite_none_right_eq_some, Option.some.injEq] at hw
    rw [← hw.2] at hz
    obtain ⟨b, hb, h0⟩ := List.mem_map.1 hz
    have hb0 : b ≠ 0 := by
      have := List.all_eq_true.1 List.all_takeWhile b hb
      simpa using this
    have hval : b.toNat % 0x110000 = 0 := congrArg Fin.val h0
    have hlt := b.toNat_lt
    have hb0' : b.toNat = 0 := by omega
    exact hb0 (UInt8.toNat_inj.1 hb0')
  blank := by
    rw [h]
    decide

/-- A section with an entry, and dots for the indent. -/
theorem runCalls_documents_dots :
    let cfg : Config := { locale := posixStrings, indentChar := bytes ".", wideIndentChar := 46 }
    let s := lastState (runCalls cfg printText
      (documentCalls [.sectionOpen (bytes "a"), .entry (bytes "b") (lit "c"), .sectionClose]) {})
    s.emitted.map (·.emission) =
        [.wappendf (lit "a:"), .wappend [nl], .addIndent 2, .wappendf (lit "b: c"),
          .wappend [nl], .wappend [nl]] ∧
      (∃ d, s.doc = some d ∧ IsDocument d (lit "a:\n..b: c\n\n")) ∧
      ∀ before x after, s.emitted = before ++ x :: after → ∃ d, x.result = .ok (some d) ∧
        IsDocument d (emittedText cfg before ++ x.emission.text cfg) := by
  intro cfg s
  have h := @runCalls_documents cfg printText (posixStrings_library rfl)
    (show posixStrings.mbsrtowcs (bytes ".") = some [46] by decide) (show (0 : Int) < 2 by decide)
    (documentCalls [.sectionOpen (bytes "a"), .entry (bytes "b") (lit "c"), .sectionClose]) (by
      intro name value hmem
      simp only [documentCalls, List.map_cons, List.map_nil, List.cons_append, List.nil_append, List.mem_cons,
        List.not_mem_nil, or_false, reduceCtorEq, false_or, DocCall.event.injEq, Event.entry.injEq] at hmem
      rw [hmem.2]
      decide)
  have hem : s.emitted.map (·.emission) =
      [.wappendf (lit "a:"), .wappend [nl], .addIndent 2, .wappendf (lit "b: c"), .wappend [nl],
        .wappend [nl]] := by
    decide +kernel
  have htext : emittedText cfg s.emitted = lit "a:\n..b: c\n\n" := by
    have hmap : emittedText cfg s.emitted = (s.emitted.map (·.emission)).flatMap (Emission.text cfg) := by
      rw [List.flatMap_map]
      rfl
    rw [hmap, hem]
    decide
  refine ⟨hem, htext ▸ h.1, fun before x after hx => (h.2 before x after hx).2.1⟩

end Procenv.Document
