import Procenv.Proof.Layout

/-!
# Text documents

In text format the layout is newlines and indents, so the lines of a document that
are not blank (`kept`) are those of the entries and of the openings. `Calls.render`
is the pre-order rendering of a call tree, a line for every node.

* `kept_append`: what a line adds to the kept lines.
* `calls_kept`: the kept lines of a call tree's text are its rendering.
* `text_document`: **a run in text format leaves the rendering of its call tree**.
-/

namespace Procenv

open Text

variable {cfg : Config}

/-! ## Lines that are not blank -/

/-- A line with a character other than the indent character. -/
def nonblank (u : WChar) (l : WStr) : Bool := l.any (· ≠ u)

/-- The lines of a text without the blank ones. -/
def kept (u : WChar) (t : WStr) : List WStr := (lines nl t).filter (nonblank u)

/-- A text that is empty or starts a new line. -/
def Breaks (t : WStr) : Prop := t = [] ∨ ∃ t', t = nl :: t'

theorem kept_newline (u : WChar) (t : WStr) : kept u (nl :: t) = kept u t := by
  rw [kept, lines_sep_cons, List.filter_cons_of_neg (by simp [nonblank])]
  rfl

/-- **A line adds itself to the kept lines**, unless it is blank. -/
theorem kept_append {u : WChar} {l t : WStr} (hl : nl ∉ l) (ht : Breaks t) :
    kept u (l ++ t) = [l].filter (nonblank u) ++ kept u t := by
  rcases ht with rfl | ⟨t, rfl⟩
  · by_cases h0 : l = []
    · subst h0
      simp [kept, nonblank]
    · rw [List.append_nil, kept, lines_single hl h0]
      simp [kept]
  · rw [kept_newline, kept, lines_append_sep hl]
    simp only [List.filter_cons, List.filter_nil]
    split <;> rfl

theorem kept_line {u : WChar} {l t : WStr} (hl : nl ∉ l) (hu : nonblank u l = true) (ht : Breaks t) :
    kept u (l ++ t) = l :: kept u t := by
  rw [kept_append hl ht]
  simp [hu]

/-! ## The rendering -/

/-- The wide name of a node. -/
def Config.wideName (cfg : Config) (name : MbStr) : WStr := (charToWchar cfg.locale name).getD []

/-- A line at a depth. -/
def lineAt (cfg : Config) (depth : Nat) (t : WStr) : WStr :=
  List.replicate (depth * cfg.indentAmount.toNat) cfg.indentUnit ++ t

/-- **The pre-order rendering of a call tree**, a line for every node. -/
def Calls.render (cfg : Config) (depth : Nat) : Calls → List WStr
  | .nil => []
  | .entry name value next =>
    lineAt cfg depth (cfg.wideName name ++ cfg.sepText ++ value) :: next.render cfg depth
  | .group g kids next =>
    lineAt cfg depth (cfg.wideName g.name ++ lit ":") ::
      (kids.render cfg (depth + 1) ++ next.render cfg depth)

/-- A name has no newline, and has a character other than the indent character. -/
def GoodName (cfg : Config) (name : MbStr) : Prop :=
  nl ∉ cfg.wideName name ∧ nonblank cfg.indentUnit (cfg.wideName name) = true

/-- The names, and the value, of a call have no newline, and the names are not blank. -/
def Event.OneLine (cfg : Config) : Event → Prop
  | .entry name value => GoodName cfg name ∧ nl ∉ value
  | .sectionOpen name | .containerOpen name => GoodName cfg name
  | _ => True

instance (cfg : Config) (name : MbStr) : Decidable (GoodName cfg name) := inferInstanceAs (Decidable (_ ∧ _))

instance (cfg : Config) : DecidablePred (Event.OneLine cfg) := fun e =>
  match e with
  | .entry _ _ => inferInstanceAs (Decidable (_ ∧ _))
  | .sectionOpen name | .containerOpen name => inferInstanceAs (Decidable (GoodName cfg name))
  | .sectionClose | .containerClose | .objectOpen _ | .objectClose _ => inferInstanceAs (Decidable True)

/-- **The call trees of the format**: the groups nest, the names and values encode, and each call has
one line. -/
structure Calls.Textual (cfg : Config) (c : Calls) : Prop where
  fits : c.fits .text false
  encodable : c.Encodable cfg
  oneLine : ∀ e ∈ c.events, e.OneLine cfg

theorem Calls.Textual.entry {name : MbStr} {value : WStr} {next : Calls}
    (h : (Calls.entry name value next).Textual cfg) :
    (Event.entry name value).Encodable cfg ∧ (Event.entry name value).OneLine cfg ∧ next.Textual cfg :=
  ⟨h.encodable.entry.1, (Calls.all_entry h.oneLine).1,
    (fits_entry h.fits).2, h.encodable.entry.2, (Calls.all_entry h.oneLine).2⟩

/-- The line of a node is not blank. -/
theorem lineAt_nonblank {name : MbStr} (hn : GoodName cfg name) (depth : Nat) (rest : WStr) :
    nonblank cfg.indentUnit (lineAt cfg depth (cfg.wideName name ++ rest)) = true := by
  obtain ⟨x, hx, hxu⟩ := List.any_eq_true.1 hn.2
  exact List.any_eq_true.2 ⟨x, by simp [lineAt, hx], hxu⟩

/-- A line at a depth has no newline but those of its text. -/
theorem lineAt_plain (hu : cfg.indentUnit ≠ nl) (depth : Nat) {t : WStr} (ht : nl ∉ t) :
    nl ∉ lineAt cfg depth t := by
  simp only [lineAt, List.mem_append, List.mem_replicate, not_or]
  exact ⟨fun h => hu h.2.symm, ht⟩

/-! ## The kept lines of a call tree -/

/-- The indent at a depth. -/
theorem indentText_depth (ha : 0 ≤ cfg.indentAmount) {depth : Nat} {i : Int} (hi : i = depth * cfg.indentAmount) :
    indentText cfg i = List.replicate (depth * cfg.indentAmount.toNat) cfg.indentUnit := by
  rw [indentText_eq, hi]
  congr 1
  rw [Int.natAbs_mul, Int.natAbs_natCast]
  congr 1
  omega

/-- A node's line. -/
theorem kept_node (ha : 0 ≤ cfg.indentAmount) (hu : cfg.indentUnit ≠ nl) {depth : Nat} {i : Int}
    (hi : i = depth * cfg.indentAmount) {name : MbStr} (hn : GoodName cfg name) (rest : WStr)
    {r : WStr} (hrest : nl ∉ rest) (hr : Breaks r) :
    kept cfg.indentUnit (indentText cfg i ++ ((cfg.wideName name ++ rest) ++ r)) =
      lineAt cfg depth (cfg.wideName name ++ rest) :: kept cfg.indentUnit r := by
  have hplain : nl ∉ cfg.wideName name ++ rest := by simp [hn.1, hrest]
  rw [indentText_depth ha hi, ← List.append_assoc]
  exact kept_line (lineAt_plain hu depth hplain) (lineAt_nonblank hn depth rest) hr

section Run

variable (hf : cfg.outputFormat = .text)

include hf

theorem nameText_text {name : MbStr} (h : (cfg.encodeName name).isSome) :
    cfg.nameText name = cfg.wideName name := by
  obtain ⟨r, hr⟩ := Option.isSome_iff_exists.1 h
  obtain ⟨w, hw, hwr⟩ := encodeName_eq hr
  rw [Config.nameText, hr, Config.wideName, hw]
  exact encode_plain (Or.inl hf) hwr

theorem entryText_text {name : MbStr} {value : WStr} (h : (Event.entry name value).Encodable cfg) :
    entryText cfg name value = cfg.wideName name ++ (cfg.sepText ++ value) := by
  simp [entryText, hf, nameText_text hf h.1, valueText_plain (Or.inl hf) h.2]

/-- An opening is the name of the group, and nothing is written at its end. -/
theorem Calls.Textual.group {g : Group} {kids next : Calls} (h : (Calls.group g kids next).Textual cfg) :
    openText cfg g = cfg.wideName g.name ++ lit ":" ∧ endText cfg g = [] ∧ GoodName cfg g.name ∧
      kids.Textual cfg ∧ next.Textual cfg := by
  obtain ⟨hg, hfk, hfn⟩ := fits_group h.fits
  rw [isArray_false (by decide)] at hfk
  obtain ⟨he, hek, hen⟩ := h.encodable.group
  obtain ⟨ho, hok, hon⟩ := Calls.all_group h.oneLine
  have hname : (cfg.encodeName g.name).isSome ∧ GoodName cfg g.name := by
    cases g with
    | sect name => exact ⟨he, ho⟩
    | cont name => exact ⟨he, ho⟩
    | object => simp [Group.isObject] at hg
  rw [← nameText_text hf hname.1]
  refine ⟨?_, ?_, hname.2, ⟨hfk, hek, hok⟩, ⟨hfn, hen, hon⟩⟩
  · cases g with
    | sect name => simp [openText, namedOpenText, hf, Group.name]
    | cont name => simp [openText, namedOpenText, hf, Group.name]
    | object => simp [Group.isObject] at hg
  · cases g with
    | sect name => simp [endText, namedCloseText, hf]
    | cont name => simp [endText, namedCloseText, hf]
    | object => simp [Group.isObject] at hg

/-- Every call but the first one of a document starts a new line. -/
theorem leadText_text {pos : Pos} (hpos : pos ≠ .fresh) (k : Int) :
    leadText cfg pos k = nl :: indentText cfg (kidIndent cfg pos k) := by
  cases pos with
  | fresh => exact absurd rfl hpos
  | opened => rfl
  | after => simp [leadText, sepLine, hf]

theorem kept_lead {pos : Pos} {k : Int} (t : WStr) :
    kept cfg.indentUnit (leadText cfg pos k ++ t) =
      kept cfg.indentUnit (indentText cfg (kidIndent cfg pos k) ++ t) := by
  by_cases hpos : pos = .fresh
  · rw [hpos]
    rfl
  · rw [leadText_text hf hpos]
    exact kept_newline _ _

theorem breaks_calls (pos : Pos) (hpos : pos ≠ .fresh) (k : Int) (c : Calls) {r : WStr} (hr : Breaks r) :
    Breaks (callsText cfg pos k c ++ r) := by
  have ht := leadText_text hf hpos k
  cases c with
  | nil => exact hr
  | entry name value next => exact Or.inr ⟨_, by simp only [callsText, ht, List.cons_append]; rfl⟩
  | group g kids next => exact Or.inr ⟨_, by simp only [callsText, ht, List.cons_append]; rfl⟩

/-- The closing of a group adds a blank line, or nothing. -/
theorem kept_close (hu : cfg.indentUnit ≠ nl) (k : Int) (c : Calls) {r : WStr} (hr : Breaks r) :
    kept cfg.indentUnit (closeLine cfg k c ++ r) = kept cfg.indentUnit r ∧ Breaks (closeLine cfg k c ++ r) := by
  have hblank : kept cfg.indentUnit (nl :: (indentText cfg k ++ r)) = kept cfg.indentUnit r := by
    rw [kept_newline, indentText_eq, kept_append _ hr]
    · have : nonblank cfg.indentUnit (List.replicate k.natAbs cfg.indentUnit) = false := by
        simp [nonblank]
      simp [this]
    · intro h
      exact hu (List.mem_replicate.1 h).2.symm
  cases c with
  | nil =>
    have : closeLine cfg k .nil = [] := by simp [closeLine, emptyLine, hf]
    rw [this]
    exact ⟨rfl, hr⟩
  | entry name value next => exact ⟨hblank, Or.inr ⟨_, rfl⟩⟩
  | group g kids next => exact ⟨hblank, Or.inr ⟨_, rfl⟩⟩

/-- **The kept lines of a call tree's text are its rendering.** -/
theorem calls_kept (ha : 0 ≤ cfg.indentAmount) (hu : cfg.indentUnit ≠ nl) (hsep : nl ∉ cfg.sepText)
    (c : Calls) : c.Textual cfg →
      ∀ pos {k} depth {r}, kidIndent cfg pos k = (depth : Nat) * cfg.indentAmount → Breaks r →
        kept cfg.indentUnit (callsText cfg pos k c ++ r) = c.render cfg depth ++ kept cfg.indentUnit r := by
  induction c with
  | nil =>
    intro _ pos k depth r _ _
    rfl
  | entry name value next ih =>
    intro htree pos k depth r hk hr
    obtain ⟨he, ho, htn⟩ := htree.entry
    have hnext := ih htn .after (k := kidIndent cfg pos k) depth (by simpa [kidIndent] using hk) hr
    -- the line ends where the text of the next call, or what comes after the calls, breaks it
    have hline := kept_node ha hu hk ho.1 (cfg.sepText ++ value)
      (by simp [hsep, ho.2]) (breaks_calls hf .after (by decide) (kidIndent cfg pos k) next hr)
    calc kept cfg.indentUnit (callsText cfg pos k (.entry name value next) ++ r)
        = kept cfg.indentUnit (leadText cfg pos k ++ ((cfg.wideName name ++ (cfg.sepText ++ value)) ++
            (callsText cfg .after (kidIndent cfg pos k) next ++ r))) := by
          simp [callsText, entryText_text hf he]
      _ = lineAt cfg depth (cfg.wideName name ++ (cfg.sepText ++ value)) ::
            kept cfg.indentUnit (callsText cfg .after (kidIndent cfg pos k) next ++ r) := by
          rw [kept_lead hf, hline]
      _ = (Calls.entry name value next).render cfg depth ++ kept cfg.indentUnit r := by
          rw [hnext]
          simp [Calls.render]
  | group g kids next ihk ihn =>
    intro htree pos k depth r hk hr
    obtain ⟨hopen, hend, hname, htk, htn⟩ := htree.group hf
    -- the calls after the group, the closing line, and the calls of the group
    have hnext := ihn htn .after (k := kidIndent cfg pos k) depth (by simpa [kidIndent] using hk) hr
    have hbn := breaks_calls hf .after (by decide) (kidIndent cfg pos k) next hr
    obtain ⟨hclose, hbc⟩ := kept_close hf hu (kidIndent cfg pos k) kids hbn
    have hkids := ihk htk .opened (k := kidIndent cfg pos k) (depth + 1)
      (by rw [hk, kidIndent, if_pos rfl, Int.natCast_succ, Int.add_mul, Int.one_mul]) hbc
    have hline := kept_node ha hu hk hname (lit ":") (by decide)
      (breaks_calls hf .opened (by decide) (kidIndent cfg pos k) kids hbc)
    calc kept cfg.indentUnit (callsText cfg pos k (.group g kids next) ++ r)
        = kept cfg.indentUnit (leadText cfg pos k ++ ((cfg.wideName g.name ++ lit ":") ++
            (callsText cfg .opened (kidIndent cfg pos k) kids ++
              (closeLine cfg (kidIndent cfg pos k) kids ++
                (callsText cfg .after (kidIndent cfg pos k) next ++ r))))) := by
          simp [callsText, hopen, hend]
      _ = lineAt cfg depth (cfg.wideName g.name ++ lit ":") ::
            (kids.render cfg (depth + 1) ++ (next.render cfg depth ++ kept cfg.indentUnit r)) := by
          rw [kept_lead hf, hline, hkids, hclose, hnext]
      _ = (Calls.group g kids next).render cfg depth ++ kept cfg.indentUnit r := by
          simp [Calls.render]

/-- A run in text format leaves the text of its call tree. -/
theorem run_text (ha : 0 ≤ cfg.indentAmount) (hdec : (cfg.locale.mbsrtowcs cfg.textSeparator).isSome) {c : Calls}
    (hfit : c.fits .text false) (henc : c.Encodable cfg) {es : List Event} (hes : eraseObjects es = c.events) :
    ∃ s, runEvents cfg es {} = .ok s ∧ s.indent = 0 ∧ s.doc = callsText cfg .fresh 0 c := by
  have hfj : cfg.outputFormat ≠ .json := by simp [hf]
  obtain ⟨s, hs, hAt⟩ := run_calls ha (by simp [hf]) (fun _ => hdec) c false .fresh
    (k := 0) (s := {}) (e := .none) (by simp) (hf ▸ hfit) henc ⟨rfl, hfj, rfl⟩
    (Int.le_refl _) ⟨rfl, rfl, rfl⟩
  refine ⟨s, by rw [runEvents_eraseObjects hfj ha, hes, hs], ?_, by simpa using hAt.doc⟩
  rw [hAt.indent]
  cases c <;> simp [endIndent, kidIndent]

/-- **A run in text format leaves the rendering of its call tree**, with blank lines in between, and
the indent back at zero; no call of the run stops it. -/
theorem text_document (ha : 0 ≤ cfg.indentAmount) (hu : cfg.indentUnit ≠ nl)
    (hdec : (cfg.locale.mbsrtowcs cfg.textSeparator).isSome) (hsep : nl ∉ cfg.sepText) (c : Calls)
    (hfit : c.fits .text false) (henc : c.Encodable cfg) (hone : ∀ e ∈ c.events, e.OneLine cfg)
    (es : List Event) (hes : eraseObjects es = c.events) :
    ∃ s, runEvents cfg es {} = .ok s ∧ s.indent = 0 ∧
      (lines nl s.doc).filter (nonblank cfg.indentUnit) = c.render cfg 0 := by
  obtain ⟨s, hs, hind, hdoc⟩ := run_text hf ha hdec hfit henc hes
  refine ⟨s, hs, hind, ?_⟩
  have h := calls_kept hf ha hu hsep c ⟨hfit, henc, hone⟩ .fresh (k := 0) 0 (r := [])
    (by simp [kidIndent]) (Or.inl rfl)
  rw [hdoc]
  simpa [kept] using h

end Run

/-- A tree with an empty section, and an object call in between. -/
theorem text_document_misc :
    let cfg : Config := { locale := posixLocale }
    let es : List Event := [.sectionOpen (bytes "misc"), .entry (bytes "umask") (lit "0022"),
      .objectOpen false, .sectionOpen (bytes "none"), .sectionClose, .sectionClose,
      .entry (bytes "cpu") (lit "1 of 2")]
    ∃ s, runEvents cfg es {} = .ok s ∧ s.indent = 0 ∧
      (lines nl s.doc).filter (nonblank cfg.indentUnit) =
        [lit "misc:", lit "  umask: 0022", lit "  none:", lit "cpu: 1 of 2"] := by
  intro cfg es
  let c : Calls := .group (.sect (bytes "misc"))
    (.entry (bytes "umask") (lit "0022") (.group (.sect (bytes "none")) .nil .nil))
    (.entry (bytes "cpu") (lit "1 of 2") .nil)
  exact text_document rfl (by decide) (by decide) (by decide) (by decide) c (by decide)
    (by decide) (by decide) es (by decide)

end Procenv
