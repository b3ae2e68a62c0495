import Procenv.Proof.Layout
import Procenv.Proof.PrList

/-!
# Crumb documents

The crumb format keeps the names of the open groups in a circular list. What the
list is for is a stack: `Trail` holds the open groups from the outermost on and the
lines written so far, and `Trail.step` is a call on it, undefined where a group is
closed or an entry written outside all groups.

* `step_trail`: a call of the program refines the call on the trail (`Follows`).
* `run_trail`: so does a run.
* `trail_calls`: the lines of a call tree are its entries, each after its path.
* `crumb_document`: **a run in crumb format writes the entries after their paths**,
  ends with no crumb, and never removes the head of the list.
-/

namespace Procenv

open Text

variable {cfg : Config} {s : OutState}

/-! ## The trail -/

/-- The open groups, from the outermost on, and the lines written. -/
structure Trail where
  path : List MbStr := []
  lines : List WStr := []
deriving DecidableEq

/-- The wide name of a node. -/
def Config.crumbName (cfg : Config) (name : MbStr) : WStr := (cfg.locale.mbsrtowcs name).getD []

/-- The crumbs of a path, each followed by the crumb separator. -/
def Config.pathText (cfg : Config) (path : List MbStr) : WStr :=
  path.flatMap fun name => cfg.crumbName name ++ cfg.crumbName cfg.crumbSeparator

/-- The line of an entry. -/
def Config.crumbLine (cfg : Config) (path : List MbStr) (name : MbStr) (value : WStr) : WStr :=
  cfg.pathText path ++ cfg.crumbName name ++ cfg.crumbName cfg.textSeparator ++ value

/-- A call on the trail. -/
def Trail.step (cfg : Config) (t : Trail) : Event → Option Trail
  | .entry name value =>
    if t.path = [] then none
    else some { t with lines := t.lines ++ [cfg.crumbLine t.path name value] }
  | .sectionOpen name | .containerOpen name => some { t with path := t.path ++ [name] }
  | .sectionClose | .containerClose =>
    if t.path = [] then none else some { t with path := t.path.dropLast }
  | .objectOpen _ | .objectClose _ => some t

/-- An entry is written under a path. -/
theorem Trail.step_entry {t t' : Trail} {name : MbStr} {value : WStr}
    (h : t.step cfg (.entry name value) = some t') :
    t.path ≠ [] ∧ t' = { t with lines := t.lines ++ [cfg.crumbLine t.path name value] } := by
  obtain ⟨hp, h⟩ := Option.ite_none_left_eq_some.1 h
  exact ⟨hp, (Option.some.inj h).symm⟩

/-- A closing has a name to remove. -/
theorem Trail.step_close {t t' : Trail} {e : Event} (he : e = .sectionClose ∨ e = .containerClose)
    (h : t.step cfg e = some t') : t.path ≠ [] ∧ t' = { t with path := t.path.dropLast } := by
  have hstep : (if t.path = [] then none else some { t with path := t.path.dropLast }) = some t' := by
    rcases he with rfl | rfl <;> exact h
  obtain ⟨hp, h⟩ := Option.ite_none_left_eq_some.1 hstep
  exact ⟨hp, (Option.some.inj h).symm⟩

/-- What a call does to the path. -/
theorem Trail.step_path {t t' : Trail} {e : Event} (h : t.step cfg e = some t') :
    t'.path = t.path ∨ t'.path = t.path.dropLast ∨
      ∃ name, (e = .sectionOpen name ∨ e = .containerOpen name) ∧ t'.path = t.path ++ [name] := by
  cases e with
  | entry name value =>
    obtain ⟨-, rfl⟩ := Trail.step_entry h
    exact Or.inl rfl
  | sectionOpen name =>
    obtain rfl := Option.some.inj h
    exact Or.inr (Or.inr ⟨name, Or.inl rfl, rfl⟩)
  | containerOpen name =>
    obtain rfl := Option.some.inj h
    exact Or.inr (Or.inr ⟨name, Or.inr rfl, rfl⟩)
  | sectionClose =>
    obtain ⟨-, rfl⟩ := Trail.step_close (Or.inl rfl) h
    exact Or.inr (Or.inl rfl)
  | containerClose =>
    obtain ⟨-, rfl⟩ := Trail.step_close (Or.inr rfl) h
    exact Or.inr (Or.inl rfl)
  | objectOpen retain =>
    obtain rfl := Option.some.inj h
    exact Or.inl rfl
  | objectClose retain =>
    obtain rfl := Option.some.inj h
    exact Or.inl rfl

/-- The state follows the trail: the list holds the path, and the document the lines. -/
structure Follows (s : OutState) (t : Trail) : Prop where
  doc : s.doc = unlines nl t.lines
  crumbs : match s.crumbList with
    | none => t.path = []
    | some list => ∃ xs, PrList s.heap list xs t.path

theorem Follows.list {t : Trail} (h : Follows s t) (hp : t.path ≠ []) :
    ∃ list xs, s.crumbList = some list ∧ PrList s.heap list xs t.path := by
  have := h.crumbs
  cases hl : s.crumbList with
  | none => simp only [hl] at this; exact absurd this hp
  | some list =>
    simp only [hl] at this
    obtain ⟨xs, hxs⟩ := this
    exact ⟨list, xs, rfl, hxs⟩

/-! ## The calls -/

theorem crumbName_eq (hf : cfg.outputFormat = .crumb) {name : MbStr} (h : (cfg.encodeName name).isSome) :
    cfg.nameText name = cfg.crumbName name ∧ cfg.locale.mbsrtowcs name = some (cfg.crumbName name) := by
  obtain ⟨r, hr⟩ := Option.isSome_iff_exists.1 h
  obtain ⟨w, hw, hwr⟩ := encodeName_eq hr
  have hmb : cfg.locale.mbsrtowcs name = some w := by
    unfold charToWchar at hw
    split at hw <;> simp_all
  rw [Config.nameText, hr, Config.crumbName, hmb]
  exact ⟨encode_plain (Or.inr hf) hwr, rfl⟩

theorem addBreadcrumb_follows {t : Trail} (h : Follows s t) (name : MbStr) :
    Follows (addBreadcrumb name s) { t with path := t.path ++ [name] } := by
  refine ⟨?_, ?_⟩
  · unfold addBreadcrumb
    split
    exact h.doc
  · have hc := h.crumbs
    unfold addBreadcrumb
    cases hl : s.crumbList with
    | none =>
      simp only [hl] at hc ⊢
      obtain ⟨e, he⟩ := prListPrependStr_spec (prListNew_spec s.heap none) name
      exact ⟨[] ++ [e], by simpa [hc] using he⟩
    | some list =>
      simp only [hl] at hc ⊢
      obtain ⟨xs, hxs⟩ := hc
      obtain ⟨e, he⟩ := prListPrependStr_spec hxs name
      exact ⟨xs ++ [e], he⟩

theorem removeBreadcrumb_follows {t : Trail} (h : Follows s t) (hp : t.path ≠ []) :
    ∃ s', removeBreadcrumb s = .ok s' ∧ Follows s' { t with path := t.path.dropLast } := by
  obtain ⟨list, xs, hl, hxs⟩ := h.list hp
  obtain ⟨ds, d, hd⟩ : ∃ ds d, t.path = ds ++ [d] :=
    ⟨_, _, (List.dropLast_append_getLast hp).symm⟩
  rw [hd] at hxs
  obtain ⟨ys, e, rfl⟩ : ∃ ys e, xs = ys ++ [e] := by
    rcases List.eq_nil_or_concat' xs with rfl | ⟨ys, e, rfl⟩
    · have := hxs.data
      simp at this
    · exact ⟨ys, e, rfl⟩
  obtain ⟨hprev, -, hrm⟩ := prListRemove_spec hxs
  refine ⟨{ s with heap := (prListRemove s.heap (s.heap.prev list)).1 }, by simp only [removeBreadcrumb, hl],
    h.doc, ?_⟩
  simp only [hl, hprev, hd, List.dropLast_concat]
  exact ⟨ys, hrm⟩

theorem crumbText_eq {xs : List Nat} {path : List MbStr} (hd : xs.map s.heap.data = path.map some)
    (hsep : (cfg.locale.mbsrtowcs cfg.crumbSeparator).isSome)
    (hpath : ∀ name ∈ path, cfg.locale.mbsrtowcs name = some (cfg.crumbName name)) :
    crumbText cfg s xs = .ok (cfg.pathText path) := by
  obtain ⟨sep, hs⟩ := Option.isSome_iff_exists.1 hsep
  induction xs generalizing path with
  | nil =>
    cases path with
    | nil => rfl
    | cons _ _ => simp at hd
  | cons x xs ih =>
    cases path with
    | nil => simp at hd
    | cons name path =>
      simp only [List.map_cons, List.cons.injEq] at hd
      have hrest := ih hd.2 fun n hn => hpath n (List.mem_cons_of_mem _ hn)
      have hsep' : cfg.crumbName cfg.crumbSeparator = sep := by rw [Config.crumbName, hs]; rfl
      simp only [crumbText, hd.1, Option.getD_some, expandStr, hpath name List.mem_cons_self, hs, hrest, bind,
        Except.bind, pure, Except.pure]
      simp [Config.pathText, hsep']

/-- The names on the trail stay convertible. -/
theorem trail_names (hf : cfg.outputFormat = .crumb) {t t' : Trail} {e : Event} (he : e.Encodable cfg)
    (hpath : ∀ name ∈ t.path, cfg.locale.mbsrtowcs name = some (cfg.crumbName name))
    (ht : t.step cfg e = some t') :
    ∀ name ∈ t'.path, cfg.locale.mbsrtowcs name = some (cfg.crumbName name) := by
  rcases Trail.step_path ht with h | h | ⟨name, hname, h⟩
  · rwa [h]
  · rw [h]
    exact fun n hn => hpath n ((List.dropLast_sublist _).mem hn)
  · rw [h]
    intro n hmem
    rcases List.mem_append.1 hmem with hmem | hmem
    · exact hpath n hmem
    · rw [List.mem_singleton.1 hmem]
      rcases hname with rfl | rfl
      · exact (crumbName_eq hf he).2
      · exact (crumbName_eq hf he).2

section Run

variable (hf : cfg.outputFormat = .crumb) (ha : 0 ≤ cfg.indentAmount)

include hf ha

theorem changeElement_crumb (e : ElementType) :
    changeElement cfg e s = .ok { s with lastElement := s.currentElement, currentElement := e } := by
  rw [changeElement_eq ha, hf]
  rfl

variable (hsep : (cfg.locale.mbsrtowcs cfg.crumbSeparator).isSome)
  (htsep : (cfg.locale.mbsrtowcs cfg.textSeparator).isSome)

include hsep htsep

theorem entry_follows {t : Trail} (h : Follows s t) (hp : t.path ≠ [])
    (hpath : ∀ name ∈ t.path, cfg.locale.mbsrtowcs name = some (cfg.crumbName name)) {name : MbStr}
    {value : WStr} (he : (Event.entry name value).Encodable cfg) :
    ∃ s', entry cfg name value s = .ok s' ∧
      Follows s' { t with lines := t.lines ++ [cfg.crumbLine t.path name value] } := by
  obtain ⟨w, ret, ret', hw, ⟨hen, hret⟩, hev, hret'⟩ := he.texts
  obtain ⟨hname, -⟩ := crumbName_eq hf he.1
  have hvalue := valueText_plain (Or.inr hf) he.2
  obtain ⟨sep, hs⟩ := Option.isSome_iff_exists.1 htsep
  -- the path is written from the list, which has been made by now
  obtain ⟨list, xs, hl, hxs⟩ := h.list hp
  let s' : OutState :=
    { s with lastElement := s.currentElement, currentElement := .entry, crumbList := some list }
  have hcrumb := crumbText_eq (s :=
    { s with lastElement := s.currentElement, currentElement := .entry, crumbList := some list })
    hxs.data hsep hpath
  have hsep' : cfg.crumbName cfg.textSeparator = sep := by rw [Config.crumbName, hs]; rfl
  refine ⟨(s'.wappend (cfg.pathText t.path)).wappend (cfg.nameText name ++ sep ++ cfg.valueText value ++ [nl]),
    ?_, ?_, ?_⟩
  · rw [hf] at hen hev
    simp only [entry, commonAssert_ok ha, changeElement_crumb hf ha, hw, hen, hev, hret, hret', hf, bind,
      Except.bind, if_false, hl, prListForeach_spec hxs, hcrumb, expandStr, hs, pure, Except.pure]
    rfl
  · simp [s', OutState.wappend, h.doc, unlines, Config.crumbLine, hname, hvalue, hsep']
  · exact ⟨xs, hxs⟩

omit hsep htsep in
/-- Opening a group adds its name to the trail. -/
theorem groupOpen_follows {t : Trail} (h : Follows s t) {name : MbStr} (hn : (cfg.encodeName name).isSome)
    (element : ElementType) (bracket tag : WStr) :
    ∃ s', groupOpen cfg element bracket tag name s = .ok s' ∧ Follows s' { t with path := t.path ++ [name] } := by
  let s₁ : OutState := { s with lastElement := s.currentElement, currentElement := element }
  refine ⟨addBreadcrumb name s₁, ?_, addBreadcrumb_follows (s := s₁) ⟨h.doc, h.crumbs⟩ name⟩
  simp only [groupOpen, commonAssert_ok ha, nameToWideName_eq hn, changeElement_crumb hf ha,
    hf, bind, Except.bind]
  rfl

omit hsep htsep in
/-- Closing a group removes the last name of the trail. -/
theorem groupClose_follows {t : Trail} (h : Follows s t) (hp : t.path ≠ []) (element : ElementType)
    (bracket tag : WStr) :
    ∃ s', groupClose cfg element bracket tag s = .ok s' ∧ Follows s' { t with path := t.path.dropLast } := by
  let s₁ : OutState := { s with lastElement := s.currentElement, currentElement := element }
  obtain ⟨s', hs', hF⟩ := removeBreadcrumb_follows (s := s₁) ⟨h.doc, h.crumbs⟩ hp
  refine ⟨s', ?_, hF⟩
  simp only [groupClose, commonAssert_ok ha, changeElement_crumb hf ha, hf, bind, Except.bind]
  exact hs'

/-- **A call refines the call on the trail.** -/
theorem step_trail {t t' : Trail} (h : Follows s t) {e : Event} (he : e.Encodable cfg)
    (hpath : ∀ name ∈ t.path, cfg.locale.mbsrtowcs name = some (cfg.crumbName name))
    (ht : t.step cfg e = some t') : ∃ s', step cfg s e = .ok s' ∧ Follows s' t' := by
  -- object calls do nothing in this format
  have hobject : ∀ element text retain, t' = t →
      ∃ s', objectEvent cfg element text retain s = .ok s' ∧ Follows s' t' := by
    intro element text retain ht'
    refine ⟨s, ?_, ht' ▸ h⟩
    simp only [objectEvent, commonAssert_ok ha, hf, bind, Except.bind]
    rfl
  cases e with
  | entry name value =>
    obtain ⟨hp, rfl⟩ := Trail.step_entry ht
    exact entry_follows hf ha hsep htsep h hp hpath he
  | sectionOpen name =>
    simp only [Trail.step, Option.some.injEq] at ht
    exact ht ▸ groupOpen_follows hf ha h he _ _ _
  | containerOpen name =>
    simp only [Trail.step, Option.some.injEq] at ht
    exact ht ▸ groupOpen_follows hf ha h he _ _ _
  | sectionClose =>
    obtain ⟨hp, rfl⟩ := Trail.step_close (Or.inl rfl) ht
    exact groupClose_follows hf ha h hp _ _ _
  | containerClose =>
    obtain ⟨hp, rfl⟩ := Trail.step_close (Or.inr rfl) ht
    exact groupClose_follows hf ha h hp _ _ _
  | objectOpen retain =>
    simp only [Trail.step, Option.some.injEq] at ht
    exact hobject _ _ _ ht.symm
  | objectClose retain =>
    simp only [Trail.step, Option.some.injEq] at ht
    exact hobject _ _ _ ht.symm

/-- **A run refines the run on the trail.** -/
theorem run_trail (es : List Event) :
    ∀ {s : OutState} {t t' : Trail}, Follows s t → (∀ e ∈ es, e.Encodable cfg) →
      (∀ name ∈ t.path, cfg.locale.mbsrtowcs name = some (cfg.crumbName name)) →
      es.foldlM (Trail.step cfg) t = some t' → ∃ s', runEvents cfg es s = .ok s' ∧ Follows s' t' := by
  induction es with
  | nil =>
    intro s t t' h _ _ ht
    simp only [List.foldlM_nil, pure, Option.some.injEq] at ht
    exact ⟨s, rfl, ht ▸ h⟩
  | cons e es ih =>
    intro s t t' h henc hpath ht
    rw [List.foldlM_cons] at ht
    obtain ⟨t₁, h₁, ht₁⟩ := Option.bind_eq_some_iff.1 ht
    have he := henc e List.mem_cons_self
    obtain ⟨s₁, hs₁, hF⟩ := step_trail hf ha hsep htsep h he hpath h₁
    obtain ⟨s', hs', hF'⟩ := ih hF (fun x hx => henc x (List.mem_cons_of_mem _ hx))
      (trail_names hf he hpath h₁) ht₁
    refine ⟨s', ?_, hF'⟩
    rw [runEvents_cons, hs₁]
    exact hs'

end Run

/-! ## The lines of a call tree -/

/-- The lines of a call tree inside the groups of a path. -/
def Calls.crumbLines (cfg : Config) (path : List MbStr) : Calls → List WStr
  | .nil => []
  | .entry name value next => cfg.crumbLine path name value :: next.crumbLines cfg path
  | .group g kids next => kids.crumbLines cfg (path ++ [g.name]) ++ next.crumbLines cfg path

/-- **The lines of a call tree are its entries, each after its path.** -/
theorem trail_calls (c : Calls) :
    ∀ (path : List MbStr) (ls : List WStr), c.fits .crumb false → (path = [] → c.bareEntry = false) →
      c.events.foldlM (Trail.step cfg) ⟨path, ls⟩ = some ⟨path, ls ++ c.crumbLines cfg path⟩ := by
  induction c with
  | nil => intro path ls _ _; simp [Calls.events, Calls.crumbLines]
  | entry name value next ih =>
    intro path ls hfit hbare
    have hp : path ≠ [] := fun h => by simpa [Calls.bareEntry] using hbare h
    have hnext := ih path (ls ++ [cfg.crumbLine path name value]) (fits_entry hfit).2
      (fun h => absurd h hp)
    simp only [Calls.events, List.foldlM_cons, Trail.step, if_neg hp]
    simpa [Calls.crumbLines] using hnext
  | group g kids next ihk ihn =>
    intro path ls hfit hbare
    obtain ⟨hg, hfk, hfn⟩ := fits_group hfit
    rw [isArray_false (by decide)] at hfk
    -- inside the group the path is not empty, so its entries may be bare
    have hkids := ihk (path ++ [g.name]) ls hfk (by simp)
    have hnext := ihn path (ls ++ kids.crumbLines cfg (path ++ [g.name])) hfn
      (fun h => by simpa [Calls.bareEntry] using hbare h)
    have hopen : Trail.step cfg ⟨path, ls⟩ g.opening = some ⟨path ++ [g.name], ls⟩ := by
      cases g with
      | sect name => rfl
      | cont name => rfl
      | object => simp [Group.isObject] at hg
    have hclose : Trail.step cfg ⟨path ++ [g.name], ls ++ kids.crumbLines cfg (path ++ [g.name])⟩ g.closing =
        some ⟨path, ls ++ kids.crumbLines cfg (path ++ [g.name])⟩ := by
      cases g with
      | sect name => simp [Group.closing, Trail.step]
      | cont name => simp [Group.closing, Trail.step]
      | object => simp [Group.isObject] at hg
    simp only [Calls.events, List.foldlM_cons, List.foldlM_append, hopen, hkids, hclose, hnext, bind,
      Option.bind, Calls.crumbLines, List.append_assoc]

theorem trail_eraseObjects (es : List Event) (t : Trail) :
    es.foldlM (Trail.step cfg) t = (eraseObjects es).foldlM (Trail.step cfg) t := by
  induction es generalizing t with
  | nil => rfl
  | cons e es ih =>
    by_cases he : e.isObject = true
    · have hstep : t.step cfg e = some t := by
        cases e <;> simp only [Event.isObject, Bool.false_eq_true] at he <;> rfl
      simpa [eraseObjects, he, hstep] using ih t
    · have herase : eraseObjects (e :: es) = e :: eraseObjects es := by simp [eraseObjects, he]
      rw [herase, List.foldlM_cons, List.foldlM_cons]
      exact congrArg (Option.bind (t.step cfg e)) (funext ih)

section Document

variable (hf : cfg.outputFormat = .crumb) (ha : 0 ≤ cfg.indentAmount)
  (hsep : (cfg.locale.mbsrtowcs cfg.crumbSeparator).isSome)
  (htsep : (cfg.locale.mbsrtowcs cfg.textSeparator).isSome) {c : Calls} {es : List Event}
  (hes : eraseObjects es = c.events)

include hes

/-- The calls of a run are those of its call tree, and object calls. -/
theorem encodable_events (henc : c.Encodable cfg) : ∀ e ∈ es, e.Encodable cfg := by
  intro e he
  by_cases ho : e.isObject = true
  · cases e <;> simp only [Event.isObject, Bool.false_eq_true] at ho <;> trivial
  · exact henc e (hes ▸ List.mem_filter.2 ⟨he, by simpa using ho⟩)

theorem trail_events (cfg : Config) (hfit : c.fits .crumb false) (hbare : c.bareEntry = false) :
    es.foldlM (Trail.step cfg) {} = some ⟨[], c.crumbLines cfg []⟩ := by
  rw [trail_eraseObjects, hes]
  exact trail_calls c [] [] hfit fun _ => hbare

include hf ha hsep htsep

/-- A run ends with the lines of its call tree, and the path empty. -/
theorem run_crumbs (hfit : c.fits .crumb false) (hbare : c.bareEntry = false) (henc : c.Encodable cfg) :
    ∃ s, runEvents cfg es {} = .ok s ∧ Follows s ⟨[], c.crumbLines cfg []⟩ :=
  run_trail hf ha hsep htsep es ⟨rfl, rfl⟩ (encodable_events hes henc) (by simp)
    (trail_events hes cfg hfit hbare)

end Document

/-- A closing of a section or a container. -/
def Event.isClosing : Event → Bool
  | .sectionClose | .containerClose => true
  | _ => false

/-- **A run in crumb format** writes, for each entry in call order, its path and the entry on a line
and nothing else, leaves no crumb, and never removes the head of the list: before every closing the
node before the head is another one. -/
theorem crumb_document (hf : cfg.outputFormat = .crumb) (ha : 0 ≤ cfg.indentAmount)
    (hsep : (cfg.locale.mbsrtowcs cfg.crumbSeparator).isSome)
    (htsep : (cfg.locale.mbsrtowcs cfg.textSeparator).isSome) (c : Calls) (hfit : c.fits .crumb false)
    (hbare : c.bareEntry = false) (es : List Event) (hes : eraseObjects es = c.events)
    (henc : c.Encodable cfg) :
    (∃ s, runEvents cfg es {} = .ok s ∧ s.doc = unlines nl (c.crumbLines cfg []) ∧
      ∀ list, s.crumbList = some list → prListEmpty s.heap list = true) ∧
    ∀ es₁ e es₂, es = es₁ ++ e :: es₂ → e.isClosing = true →
      ∃ s list, runEvents cfg es₁ {} = .ok s ∧ s.crumbList = some list ∧ s.heap.prev list ≠ list := by
  constructor
  · obtain ⟨s, hs, hF⟩ := run_crumbs hf ha hsep htsep hes hfit hbare henc
    refine ⟨s, hs, hF.doc, fun list hl => ?_⟩
    have := hF.crumbs
    simp only [hl] at this
    obtain ⟨xs, hxs⟩ := this
    have hnil : xs = [] := by simpa using hxs.data
    subst hnil
    simp [prListEmpty, hxs.ring.seg.1, hxs.ring.seg.2]
  · -- the run up to the closing follows the trail, whose path cannot be empty there
    intro es₁ e es₂ hsplit hclose
    have htrail := trail_events hes cfg hfit hbare
    have henc' := encodable_events hes henc
    subst hsplit
    rw [List.foldlM_append] at htrail
    obtain ⟨t₁, h₁, ht₁⟩ := Option.bind_eq_some_iff.1 htrail
    obtain ⟨s, hs, hF⟩ := run_trail hf ha hsep htsep es₁ (s := {}) (t := {}) ⟨rfl, rfl⟩
      (fun x hx => henc' x (List.mem_append_left _ hx)) (by simp) h₁
    have hp : t₁.path ≠ [] := by
      intro hp
      rw [List.foldlM_cons] at ht₁
      obtain ⟨t₂, h₂, -⟩ := Option.bind_eq_some_iff.1 ht₁
      cases e <;> simp only [Event.isClosing, Bool.false_eq_true] at hclose <;> simp [Trail.step, hp] at h₂
    obtain ⟨list, xs, hl, hxs⟩ := hF.list hp
    refine ⟨s, list, hs, hl, ?_⟩
    rcases List.eq_nil_or_concat' xs with rfl | ⟨ys, x, rfl⟩
    · have := hxs.data
      simp only [List.map_nil] at this
      exact absurd (List.map_eq_nil_iff.1 this.symm) hp
    · rw [hxs.ring.prev_head]
      exact hxs.ring.last_ne_head

/-- Two entries at different depths. -/
theorem crumb_document_limits :
    let cfg : Config := { outputFormat := .crumb, locale := posixLocale }
    let es : List Event := [.sectionOpen (bytes "limits"), .containerOpen (bytes "cpu"), .objectOpen false,
      .entry (bytes "soft") (lit "1"), .objectClose false, .containerClose, .entry (bytes "n") (lit "2"),
      .sectionClose]
    (∃ s, runEvents cfg es {} = .ok s ∧ s.doc = unlines nl [lit "limits:cpu:soft: 1", lit "limits:n: 2"] ∧
      ∀ list, s.crumbList = some list → prListEmpty s.heap list = true) ∧
    ∀ es₁ e es₂, es = es₁ ++ e :: es₂ → e.isClosing = true →
      ∃ s list, runEvents cfg es₁ {} = .ok s ∧ s.crumbList = some list ∧ s.heap.prev list ≠ list := by
  intro cfg es
  let c : Calls := .group (.sect (bytes "limits"))
    (.group (.cont (bytes "cpu")) (.entry (bytes "soft") (lit "1") .nil) (.entry (bytes "n") (lit "2") .nil))
    .nil
  exact crumb_document rfl (by decide) (by decide) (by decide) c (by decide) (by decide) es
    (by decide) (by decide)

end Procenv
