import Procenv.Data.Outcome
import Procenv.Proof.Layout

/-!
# The indent

The element and the indent of a state do not depend on the texts of the document:
`Cursor` is a state without them, and `Cursor.step` the effect of a call on it.
`none` stands for a failing assertion of `dec_indent` or a missing table cell.

* `step_cursor`: a call follows the cursor as long as it does not stop the run, and
  it does not fail in `dec_indent` where the cursor moves.
* `cursor_calls`: **a fitting call tree moves the cursor**, as `endIndent` and
  `endElement` say.
-/

namespace Procenv

open Text Outcome

variable {cfg : Config} {fmt : OutputFormat} {amount : Int} {s : OutState}

/-! ## The cursor -/

/-- The current element and the indent. -/
structure Cursor where
  element : ElementType
  indent : Int
deriving DecidableEq, Repr

/-- The cursor of a state. -/
def OutState.cursor (s : OutState) : Cursor := ⟨s.currentElement, s.indent⟩

@[simp] theorem OutState.wappend_cursor (t : WStr) : (s.wappend t).cursor = s.cursor := rfl

/-- The indent after a call of a table cell. -/
def Op.move (amount k : Int) : Op → Option Int
  | .wappend _ | .addIndent => some k
  | .incIndent => if 0 ≤ k then some (k + amount) else none
  | .decIndent => if 0 ≤ k - amount then some (k - amount) else none
  | .notReached _ => none

/-- The effect of `change_element`. -/
def Cursor.change (fmt : OutputFormat) (amount : Int) (cur : Cursor) (x : ElementType) : Option Cursor :=
  ((elementCell fmt cur.element x).foldlM (Op.move amount) cur.indent).map (⟨x, ·⟩)

/-- The element of a call; objects have one in JSON only. -/
def Event.element (fmt : OutputFormat) : Event → Option ElementType
  | .entry _ _ => some .entry
  | .sectionOpen _ => some .sectionOpen
  | .sectionClose => some .sectionClose
  | .containerOpen _ => some .containerOpen
  | .containerClose => some .containerClose
  | .objectOpen _ => if fmt = .json then some .objectOpen else none
  | .objectClose _ => if fmt = .json then some .objectClose else none

/-- The effect of a call. -/
def Cursor.step (fmt : OutputFormat) (amount : Int) (cur : Cursor) (e : Event) : Option Cursor :=
  match e.element fmt with
  | some x => cur.change fmt amount x
  | none => some cur

/-- The effect of a sequence of calls. -/
def Cursor.run (fmt : OutputFormat) (amount : Int) (cur : Cursor) (es : List Event) : Option Cursor :=
  es.foldlM (Cursor.step fmt amount) cur

/-- An object call that does not change the element. -/
def Event.retains : Event → Bool
  | .objectOpen retain | .objectClose retain => retain
  | _ => false

/-! ## Stops that are not the assertions of `dec_indent` -/

/-- The run stops elsewhere than in `dec_indent`. -/
def Elsewhere (h : Halt) : Prop := h ≠ .assertFailed "dec_indent"

theorem storeAll_elsewhere (buf : WStr) (i : Int) (cs : WStr) :
    Sat Elsewhere (fun _ => True) (storeAll buf i cs) := by
  induction cs generalizing buf i with
  | nil => trivial
  | cons c cs ih =>
    refine Sat.bind (P := fun _ => True) ?_ fun buf' _ => ih buf' (i + 1)
    unfold store
    split
    · trivial
    · simp [Elsewhere]

theorem encodeStep_elsewhere (loc : Locale) (newSize : Nat) (st : EncState) (c : WChar) :
    Sat Elsewhere (fun _ => True) (encodeStep loc fmt newSize st c) := by
  unfold encodeStep
  split
  · refine Sat.bind (P := fun _ => True) ?_ fun _ _ => trivial
    unfold store
    split
    · trivial
    · simp [Elsewhere]
  · refine Sat.bind (P := fun _ => True) ?_ fun _ _ => trivial
    unfold swprintf
    split <;> exact (storeAll_elsewhere _ _ _).bind fun _ _ => trivial

theorem encodeString_elsewhere (loc : Locale) (w : WStr) :
    Sat Elsewhere (fun _ => True) (encodeString loc fmt w) := by
  unfold encodeString
  split
  · trivial
  · cases fmt with
    | text => trivial
    | crumb => trivial
    | json | xml =>
      dsimp only
      split
      · trivial
      · refine Sat.bind (Sat.foldlM (I := fun _ => True) (fun st c _ _ => encodeStep_elsewhere loc _ st c)
          trivial) fun st _ => Sat.bind (P := fun _ => True) ?_ fun _ _ => trivial
        unfold wcsContent
        split
        · trivial
        · simp [Elsewhere]

theorem expandStr_elsewhere (loc : Locale) (str : MbStr) :
    Sat Elsewhere (fun _ => True) (expandStr loc str) := by
  unfold expandStr
  split
  · simp [Elsewhere]
  · trivial

theorem crumbText_elsewhere (iters : List Nat) : Sat Elsewhere (fun _ => True) (crumbText cfg s iters) := by
  induction iters with
  | nil => trivial
  | cons iter iters ih =>
    exact (expandStr_elsewhere _ _).bind fun _ _ => (expandStr_elsewhere _ _).bind fun _ _ =>
      ih.bind fun _ _ => trivial

theorem nameToWideName_elsewhere (name : MbStr) : Sat Elsewhere (fun _ => True) (nameToWideName cfg name) := by
  unfold nameToWideName
  split
  · simp [Elsewhere]
  · refine (encodeString_elsewhere _ _).bind fun r _ => ?_
    dsimp only
    split
    · simp [Elsewhere, bind, Except.bind]
    · trivial

/-! ## Calls follow the cursor -/

/-- A call of a cell moves the indent and nothing else of the cursor. -/
theorem Op.run_cursor (ha : 0 ≤ cfg.indentAmount) {op : Op} {k : Int}
    (h : op.move cfg.indentAmount s.indent = some k) :
    ∃ s', op.run cfg s = .ok s' ∧ s'.indent = k ∧ s'.currentElement = s.currentElement := by
  cases op with
  | wappend t => exact ⟨s.wappend t, rfl, by simpa [Op.move, OutState.wappend] using h, rfl⟩
  | addIndent =>
    refine ⟨s.wappend (indentText cfg s.indent), addIndent_eq ha, ?_, rfl⟩
    simpa [Op.move, OutState.wappend] using h
  | incIndent =>
    simp only [Op.move] at h
    split at h <;> simp only [Option.some.injEq, reduceCtorEq] at h
    rename_i hs
    exact ⟨{ s with indent := s.indent + cfg.indentAmount }, by simp [Op.run, Procenv.incIndent, hs], h, rfl⟩
  | decIndent =>
    -- `move` asks for the result of the subtraction, `dec_indent` for the indent too
    simp only [Op.move] at h
    split at h <;> simp only [Option.some.injEq, reduceCtorEq] at h
    rename_i hs
    refine ⟨{ s with indent := s.indent - cfg.indentAmount }, ?_, h, rfl⟩
    have h0 : 0 ≤ s.indent := by omega
    simp only [Op.run, Procenv.decIndent, if_pos h0, if_pos hs]
  | notReached fn => simp [Op.move] at h

/-- A cell moves the indent and nothing else of the cursor. -/
theorem runOps_cursor (ha : 0 ≤ cfg.indentAmount) (ops : List Op) {k : Int}
    (h : ops.foldlM (Op.move cfg.indentAmount) s.indent = some k) :
    ∃ s', runOps cfg ops s = .ok s' ∧ s'.cursor = ⟨s.currentElement, k⟩ := by
  induction ops generalizing s with
  | nil =>
    obtain rfl : s.indent = k := by simpa using h
    exact ⟨s, rfl, rfl⟩
  | cons op ops ih =>
    rw [List.foldlM_cons] at h
    obtain ⟨k', hk', h⟩ := Option.bind_eq_some_iff.1 h
    obtain ⟨s₁, h₁, rfl, he⟩ := Op.run_cursor ha hk'
    obtain ⟨s', h', hc⟩ := ih h
    refine ⟨s', ?_, by rw [hc, he]⟩
    simp only [runOps, List.foldlM_cons, h₁] at h' ⊢
    exact h'

theorem changeElement_cursor (ha : 0 ≤ cfg.indentAmount) {x : ElementType} {cur : Cursor}
    (h : s.cursor.change cfg.outputFormat cfg.indentAmount x = some cur) :
    ∃ s', changeElement cfg x s = .ok s' ∧ s'.cursor = cur := by
  obtain ⟨k, hk, rfl⟩ := Option.map_eq_some_iff.1 h
  rw [changeElement_eq ha]
  exact runOps_cursor (s := { s with lastElement := s.currentElement, currentElement := x }) ha _ hk

section Follows

variable (ha : 0 ≤ cfg.indentAmount) {cur : Cursor}

include ha

theorem groupOpen_cursor {element : ElementType} (bracket tag : WStr) (name : MbStr)
    (h : s.cursor.change cfg.outputFormat cfg.indentAmount element = some cur) :
    Sat Elsewhere (·.cursor = cur) (groupOpen cfg element bracket tag name s) := by
  obtain ⟨s', hs', hcur⟩ := changeElement_cursor ha h
  unfold groupOpen
  simp only [commonAssert_ok ha]
  refine (nameToWideName_elsewhere name).bind fun w _ => ?_
  rw [hs']
  cases cfg.outputFormat <;> exact hcur

theorem groupClose_cursor {element : ElementType} (bracket tag : WStr)
    (h : s.cursor.change cfg.outputFormat cfg.indentAmount element = some cur) :
    Sat Elsewhere (·.cursor = cur) (groupClose cfg element bracket tag s) := by
  obtain ⟨s', hs', hcur⟩ := changeElement_cursor ha h
  simp only [groupClose, commonAssert_ok ha, hs', bind, Except.bind]
  cases cfg.outputFormat with
  | crumb =>
    dsimp only
    unfold removeBreadcrumb
    split
    · simp [Elsewhere]
    · exact hcur
  | text | json | xml => exact hcur

theorem objectEvent_cursor {element : ElementType} (text : WStr) {retain : Bool}
    (hr : cfg.outputFormat = .json → retain = false)
    (h : cfg.outputFormat = .json → s.cursor.change cfg.outputFormat cfg.indentAmount element = some cur)
    (h' : cfg.outputFormat ≠ .json → s.cursor = cur) :
    Sat Elsewhere (·.cursor = cur) (objectEvent cfg element text retain s) := by
  simp only [objectEvent, commonAssert_ok ha, bind, Except.bind]
  by_cases hj : cfg.outputFormat = .json
  · obtain ⟨s', hs', hcur⟩ := changeElement_cursor ha (h hj)
    simp only [hj, hr hj, Bool.false_eq_true, if_false, hs']
    exact hcur
  · cases hf : cfg.outputFormat with
    | json => exact absurd hf hj
    | text | crumb | xml => exact h' hj

theorem entry_cursor (name : MbStr) (value : WStr)
    (h : s.cursor.change cfg.outputFormat cfg.indentAmount .entry = some cur) :
    Sat Elsewhere (·.cursor = cur) (entry cfg name value s) := by
  obtain ⟨s', hs', hcur⟩ := changeElement_cursor ha h
  unfold entry
  simp only [commonAssert_ok ha, hs']
  simp only [bind, Except.bind]
  split
  · simp [Elsewhere]
  refine (encodeString_elsewhere _ _).bind fun r _ => ?_
  split
  · simp [Elsewhere]
  refine (encodeString_elsewhere _ _).bind fun r' _ => ?_
  split
  · simp [Elsewhere]
  -- what is left can stop in the conversions, or at an empty list of crumbs
  cases cfg.outputFormat with
  | json | xml => exact hcur
  | text => exact (expandStr_elsewhere _ _).bind fun _ _ => hcur
  | crumb =>
    dsimp only
    split
    · simp [Elsewhere]
    · split
      · simp [Elsewhere]
      · exact (crumbText_elsewhere _).bind fun _ _ => (expandStr_elsewhere _ _).bind fun _ _ => hcur

/-- **A call follows the cursor**, unless it stops the run elsewhere than in `dec_indent`. -/
theorem step_cursor {e : Event} (he : cfg.outputFormat = .json → e.retains = false)
    (h : s.cursor.step cfg.outputFormat cfg.indentAmount e = some cur) :
    Sat Elsewhere (·.cursor = cur) (step cfg s e) := by
  cases e with
  | entry name value => exact entry_cursor ha name value h
  | sectionOpen name => exact groupOpen_cursor ha _ _ name h
  | sectionClose => exact groupClose_cursor ha _ _ h
  | containerOpen name => exact groupOpen_cursor ha _ _ name h
  | containerClose => exact groupClose_cursor ha _ _ h
  | objectOpen retain =>
    refine objectEvent_cursor ha _ he (fun hj => ?_) fun hj => ?_
    · simpa [Cursor.step, Event.element, hj] using h
    · simpa [Cursor.step, Event.element, hj] using h
  | objectClose retain =>
    refine objectEvent_cursor ha _ he (fun hj => ?_) fun hj => ?_
    · simpa [Cursor.step, Event.element, hj] using h
    · simpa [Cursor.step, Event.element, hj] using h

end Follows

/-! ## Call trees move the cursor -/

theorem move_lead {k : Int} (hk : 0 ≤ k) (pos : Pos) :
    (leadOps fmt pos).foldlM (Op.move cfg.indentAmount) k = some (kidIndent cfg pos k) := by
  cases pos <;> simp [leadOps, Op.move, kidIndent, hk]

theorem move_close (amount : Int) {k : Int} (hk : 0 ≤ k) :
    [Op.wappend [nl], .decIndent, .addIndent].foldlM (Op.move amount) (k + amount) = some k := by
  simp only [List.foldlM_cons, List.foldlM_nil, Op.move, Option.bind_eq_bind, Option.bind_some,
    Int.add_sub_cancel, if_pos hk]
  rfl

theorem move_empty {k : Int} : (emptyOps fmt).foldlM (Op.move amount) k = some k := by
  unfold emptyOps
  split <;> simp [Op.move]

theorem cursor_step_opening {g : Group} (hg : fmt ≠ .json → g.isObject = false) (cur : Cursor) :
    cur.step fmt amount g.opening = cur.change fmt amount g.openElement := by
  cases g with
  | sect name => rfl
  | cont name => rfl
  | object =>
    have hj : fmt = .json := by by_contra hj; simpa [Group.isObject] using hg hj
    simp [Cursor.step, Event.element, Group.opening, Group.openElement, hj]

theorem cursor_step_closing {g : Group} (hg : fmt ≠ .json → g.isObject = false) (cur : Cursor) :
    cur.step fmt amount g.closing = cur.change fmt amount g.closeElement := by
  cases g with
  | sect name => rfl
  | cont name => rfl
  | object =>
    have hj : fmt = .json := by by_contra hj; simpa [Group.isObject] using hg hj
    simp [Cursor.step, Event.element, Group.closing, Group.closeElement, hj]

theorem cursor_run_cons (cur : Cursor) (e : Event) (es : List Event) :
    cur.run fmt amount (e :: es) = (cur.step fmt amount e).bind (·.run fmt amount es) := rfl

theorem cursor_run_append (cur : Cursor) (es es' : List Event) :
    cur.run fmt amount (es ++ es') = (cur.run fmt amount es).bind (·.run fmt amount es') := by
  simp [Cursor.run, List.foldlM_append, bind]

/-- The closing of a group moves the cursor back to the group's indent. -/
theorem change_close_cursor (hf : cfg.outputFormat ≠ .crumb) {g : Group}
    (hg : cfg.outputFormat ≠ .json → g.isObject = false) {kids : Calls}
    (hfit : kids.fits cfg.outputFormat (g.isArray cfg.outputFormat)) {k : Int} (hk : 0 ≤ k) :
    Cursor.change cfg.outputFormat cfg.indentAmount
      ⟨endElement g.openElement kids, endIndent cfg .opened k kids⟩ g.closeElement =
        some ⟨g.closeElement, k⟩ := by
  by_cases hnil : kids = .nil
  · subst hnil
    simp [Cursor.change, endElement, endIndent, cell_empty hf hg, move_empty]
  · have hst := stands_after (fun hj => isArray_false hj g) kids g.openElement hfit (Or.inl hnil)
    have hend : endIndent cfg .opened k kids = k + cfg.indentAmount := by
      cases kids <;> simp_all [endIndent, kidIndent]
    simp only [Cursor.change, cell_close hf hg hst, hend, move_close _ hk, Option.map_some]

/-- **A fitting call tree moves the cursor.** -/
theorem cursor_calls (ha : 0 ≤ cfg.indentAmount) (hf : cfg.outputFormat ≠ .crumb) (c : Calls) :
    ∀ {array : Bool} (pos : Pos) {e : ElementType} {k : Int},
      (cfg.outputFormat ≠ .json → array = false) → c.fits cfg.outputFormat array →
      Stands cfg.outputFormat array e pos → 0 ≤ k →
      Cursor.run cfg.outputFormat cfg.indentAmount ⟨e, k⟩ c.events =
        some ⟨endElement e c, endIndent cfg pos k c⟩ := by
  induction c with
  | nil => intros; rfl
  | entry name value next ih =>
    intro array pos e k hA hfit hst hk
    obtain ⟨hAf, hfn⟩ := fits_entry hfit
    have hstep : Cursor.step cfg.outputFormat cfg.indentAmount ⟨e, k⟩ (.entry name value) =
        some ⟨.entry, kidIndent cfg pos k⟩ := by
      simp only [Cursor.step, Event.element, Cursor.change, (cell_lead hf hst).1 hAf, move_lead hk,
        Option.map_some]
    rw [Calls.events, cursor_run_cons, hstep]
    have h := ih .after (e := .entry) hA hfn (Or.inl ⟨rfl, hAf⟩) (kidIndent_nonneg ha hk pos)
    rw [endIndent_after] at h
    exact h
  | group g kids next ihk ihn =>
    intro array pos e k hA hfit hst hk
    obtain ⟨hgA, hfk, hfn⟩ := fits_group hfit
    have hg : cfg.outputFormat ≠ .json → g.isObject = false := fun hj => by rw [hgA, hA hj]
    have hk' := kidIndent_nonneg ha hk pos
    have hopen : Cursor.step cfg.outputFormat cfg.indentAmount ⟨e, k⟩ g.opening =
        some ⟨g.openElement, kidIndent cfg pos k⟩ := by
      simp only [cursor_step_opening hg, Cursor.change, (cell_lead hf hst).2 g hgA hg, move_lead hk,
        Option.map_some]
    -- the calls of the group start at its opening, those after it at its closing
    have hkids := ihk .opened (e := g.openElement) (fun hj => isArray_false hj g) hfk
      ⟨g, rfl, rfl, hg⟩ hk'
    have hnext := ihn .after (e := g.closeElement) hA hfn (Or.inr ⟨g, rfl, hgA, hg⟩) hk'
    rw [endIndent_after] at hnext
    rw [Calls.events, cursor_run_cons, hopen, Option.bind_some, cursor_run_append, hkids, Option.bind_some,
      cursor_run_cons, cursor_step_closing hg, change_close_cursor hf hg hfk hk']
    exact hnext

end Procenv
