import Procenv.Model.Display
import Procenv.Proof.Crumb

/-!
# Nesting of calls

The open groups as a stack: `nest` is a call on it, undefined where a group is closed
that is not the last one opened. `nestJson` is the same with what JSON asks for: objects
are opened in containers, and nothing else is. Calls are `Balanced` if they close what
they open, so that the groups, the crumbs and JSON's nesting are as before.

* `nested_calls`: calls that JSON's nesting accepts and that close what they open are the
  calls of a tree.
* `balanced_of_nestJson`: so they are balanced.
* `ends_entry` and the rules after it: what a call of a routine does to the stack.
-/

namespace Procenv

open Interact Interact.Prog

/-! ## The stack of the open groups -/

/-- A call on the stack of the open groups. -/
def nest (S : List Group) : Event → Option (List Group)
  | .entry _ _ => some S
  | .sectionOpen name => some (.sect name :: S)
  | .containerOpen name => some (.cont name :: S)
  | .objectOpen _ => some (.object :: S)
  | .sectionClose => match S with
    | .sect _ :: S => some S
    | _ => none
  | .containerClose => match S with
    | .cont _ :: S => some S
    | _ => none
  | .objectClose _ => match S with
    | .object :: S => some S
    | _ => none

/-- A closing removes the innermost group, which is of its kind. -/
theorem nest_closing {S T : List Group} {g : Group} (h : nest S g.closing = some T) :
    ∃ g', S = g' :: T ∧ g'.closing = g.closing := by
  rcases S with _ | ⟨g', S⟩
  · cases g <;> simp [Group.closing, nest] at h
  · obtain ⟨rfl, hg⟩ : S = T ∧ g'.closing = g.closing := by
      cases g <;> cases g' <;> simp_all [Group.closing, nest]
    exact ⟨g', rfl, hg⟩

/-- Whether the last group opened is a container. -/
def inArray : List Group → Bool
  | .cont _ :: _ => true
  | _ => false

@[simp] theorem inArray_sect (name : MbStr) (S : List Group) : inArray (.sect name :: S) = false := by
  simp only [inArray]

@[simp] theorem inArray_object (S : List Group) : inArray (.object :: S) = false := by
  simp only [inArray]

@[simp] theorem inArray_cont (name : MbStr) (S : List Group) : inArray (.cont name :: S) = true := by
  simp only [inArray]

/-- Whether JSON allows the call where `S` is open. -/
def Event.allowed (S : List Group) : Event → Bool
  | .entry _ _ | .sectionOpen _ | .containerOpen _ => !inArray S
  | .objectOpen retain => inArray S && !retain
  | .objectClose retain => !retain
  | .sectionClose | .containerClose => true

/-- A call on the stack, as JSON allows it. -/
def nestJson (S : List Group) (e : Event) : Option (List Group) := if e.allowed S then nest S e else none

theorem nest_of_nestJson {S T : List Group} {es : List Event} (h : es.foldlM nestJson S = some T) :
    es.foldlM nest S = some T := by
  induction es generalizing S with
  | nil => exact h
  | cons e es ih =>
    rw [List.foldlM_cons] at h ⊢
    obtain ⟨U, hU, hes⟩ := Option.bind_eq_some_iff.1 h
    have hn : nest S e = some U := by
      unfold nestJson at hU
      split at hU
      · exact hU
      · simp at hU
    exact Option.bind_eq_some_iff.2 ⟨U, hn, ih hes⟩

/-- Groups that were open before stay below. -/
theorem nest_append {S T : List Group} {es : List Event} (h : es.foldlM nest S = some T) (U : List Group) :
    es.foldlM nest (S ++ U) = some (T ++ U) := by
  have hstep {S T : List Group} {e : Event} (h : nest S e = some T) : nest (S ++ U) e = some (T ++ U) := by
    cases e <;> simp only [nest] at h ⊢
    case sectionClose | containerClose | objectClose =>
      split at h
      · simpa using h
      · simp at h
    all_goals exact Option.some.inj h ▸ rfl
  induction es generalizing S with
  | nil =>
    obtain rfl : S = T := by simpa using h
    rfl
  | cons e es ih =>
    rw [List.foldlM_cons] at h ⊢
    obtain ⟨S', hS', hes⟩ := Option.bind_eq_some_iff.1 h
    exact Option.bind_eq_some_iff.2 ⟨S' ++ U, hstep hS', ih hes⟩

/-! ## Nested calls are a tree -/

/-- The calls that close the groups of a stack, the last one first: a tree before each closing, and one
after the last. -/
def Closes : List Group → List Event → Prop
  | [], es => ∃ c : Calls, c.fits .json false ∧ es = c.events
  | g :: S, es => ∃ (c : Calls) (rest : List Event),
    c.fits .json (g.isArray .json) ∧ es = c.events ++ g.closing :: rest ∧ Closes S rest

theorem Closes.prepend {S : List Group} {es : List Event} (h : Closes S es) {d : Calls}
    (hd : d.fits .json (inArray S)) : Closes S (d.events ++ es) := by
  cases S with
  | nil =>
    obtain ⟨c, hc, rfl⟩ := h
    exact ⟨d.append c, Calls.fits_append hd hc, (Calls.events_append d c).symm⟩
  | cons g S =>
    obtain ⟨c, rest, hc, rfl, hrest⟩ := h
    have hg : inArray (g :: S) = g.isArray .json := by cases g <;> rfl
    refine ⟨d.append c, rest, Calls.fits_append (hg ▸ hd) hc, ?_, hrest⟩
    rw [Calls.events_append, List.append_assoc]

/-- A group that is opened and closed before those of the stack. -/
theorem Closes.group {S : List Group} {es : List Event} {g : Group} (h : Closes (g :: S) es)
    (hg : g.isObject = inArray S) : Closes S (g.opening :: es) := by
  obtain ⟨c, rest, hc, rfl, hrest⟩ := h
  have hfit : (Calls.group g c .nil).fits .json (inArray S) := by simp [Calls.fits, hg, hc]
  simpa [Calls.events] using hrest.prepend hfit

theorem closes_of_nestJson {S : List Group} {es : List Event} (h : es.foldlM nestJson S = some []) :
    Closes S es := by
  induction es generalizing S with
  | nil =>
    obtain rfl : S = [] := by simpa using h
    exact ⟨.nil, rfl, rfl⟩
  | cons e es ih =>
    rw [List.foldlM_cons] at h
    obtain ⟨T, hT, hes⟩ := Option.bind_eq_some_iff.1 h
    have hrest := ih hes
    unfold nestJson at hT
    split at hT
    case isFalse => simp at hT
    case isTrue hallowed =>
      cases e with
      | entry name value =>
        obtain rfl : S = T := by simpa [nest] using hT
        have ha : inArray S = false := by simpa [Event.allowed] using hallowed
        exact hrest.prepend (d := .entry name value .nil) (by simp [Calls.fits, ha])
      | sectionOpen name =>
        obtain rfl : .sect name :: S = T := by simpa [nest] using hT
        exact hrest.group (by simpa [Event.allowed, Group.isObject] using hallowed)
      | containerOpen name =>
        obtain rfl : .cont name :: S = T := by simpa [nest] using hT
        exact hrest.group (by simpa [Event.allowed, Group.isObject] using hallowed)
      | objectOpen retain =>
        -- `allowed` has excluded an object that retains, whose events are no tree
        obtain rfl : .object :: S = T := by simpa [nest] using hT
        obtain ⟨ha, rfl⟩ : inArray S = true ∧ retain = false := by simpa [Event.allowed] using hallowed
        exact hrest.group ha.symm
      | sectionClose =>
        -- a closing ends the innermost group with no calls before it
        obtain ⟨g, rfl, hg⟩ := nest_closing (g := .sect []) hT
        exact ⟨.nil, es, rfl, congrArg (· :: es) hg.symm, hrest⟩
      | containerClose =>
        obtain ⟨g, rfl, hg⟩ := nest_closing (g := .cont []) hT
        exact ⟨.nil, es, rfl, congrArg (· :: es) hg.symm, hrest⟩
      | objectClose retain =>
        obtain rfl : retain = false := by simpa [Event.allowed] using hallowed
        obtain ⟨g, rfl, hg⟩ := nest_closing (g := .object) hT
        exact ⟨.nil, es, rfl, congrArg (· :: es) hg.symm, hrest⟩

/-- **Nested calls are a tree** of JSON's grammar. -/
theorem nested_calls {es : List Event} (h : es.foldlM nestJson [] = some []) :
    ∃ c : Calls, c.fits .json false ∧ es = c.events := closes_of_nestJson h

/-- The tree without its objects, whose calls stay. -/
def Calls.spliceObjects : Calls → Calls
  | .nil => .nil
  | .entry name value next => .entry name value next.spliceObjects
  | .group g kids next =>
    if g.isObject then kids.spliceObjects.append next.spliceObjects
    else .group g kids.spliceObjects next.spliceObjects

theorem Calls.events_spliceObjects (c : Calls) : c.spliceObjects.events = eraseObjects c.events := by
  induction c with
  | nil => rfl
  | entry name value next ih => simp [spliceObjects, events, ih, eraseObjects, Event.isObject]
  | group g kids next ihk ihn =>
    cases g <;>
      simp [spliceObjects, events, Calls.events_append, ihk, ihn, eraseObjects, Event.isObject, Group.isObject,
        Group.opening, Group.closing]

theorem Calls.fits_spliceObjects {fmt : OutputFormat} (hf : fmt ≠ .json) (c : Calls) :
    c.spliceObjects.fits fmt false := by
  induction c with
  | nil => rfl
  | entry name value next ih => simpa [spliceObjects, fits] using ih
  | group g kids next ihk ihn =>
    cases g with
    | object => exact fits_append ihk ihn
    | sect name => simp [spliceObjects, fits, Group.isObject, Group.isArray, ihk, ihn]
    | cont name => simp [spliceObjects, fits, Group.isObject, Group.isArray, hf, ihk, ihn]

/-! ## Balanced calls -/

/-- The crumbs of a stack: the names of its sections and containers, from the outermost on. -/
def crumbsOf (S : List Group) : List MbStr := ((S.filter fun g => !g.isObject).map Group.name).reverse

/-- The trail follows the stack. -/
theorem step_crumbsOf {cfg : Config} {S T : List Group} {t t' : Trail} {e : Event} (hS : t.path = crumbsOf S)
    (hT : nest S e = some T) (ht : t.step cfg e = some t') : t'.path = crumbsOf T := by
  -- the innermost group of the stack is the last crumb of the path
  have hclose {g : Group} (hg : g.isObject = false) (hS : t.path = crumbsOf (g :: T))
      (he : e = .sectionClose ∨ e = .containerClose) : t'.path = crumbsOf T := by
    obtain ⟨-, rfl⟩ := Trail.step_close he ht
    simp [hS, crumbsOf, hg]
  cases e with
  | entry name value =>
    obtain rfl : S = T := by simpa [nest] using hT
    obtain ⟨-, rfl⟩ := Trail.step_entry ht
    exact hS
  | sectionOpen name =>
    obtain rfl := Option.some.inj hT
    obtain rfl := Option.some.inj ht
    simp [crumbsOf, Group.isObject, Group.name, hS]
  | containerOpen name =>
    obtain rfl := Option.some.inj hT
    obtain rfl := Option.some.inj ht
    simp [crumbsOf, Group.isObject, Group.name, hS]
  | objectOpen retain =>
    obtain rfl := Option.some.inj hT
    obtain rfl := Option.some.inj ht
    simp [crumbsOf, Group.isObject, hS]
  | sectionClose =>
    obtain ⟨g, rfl, hg⟩ := nest_closing (g := .sect []) hT
    exact hclose (by cases g <;> simp_all [Group.closing, Group.isObject]) hS (Or.inl rfl)
  | containerClose =>
    obtain ⟨g, rfl, hg⟩ := nest_closing (g := .cont []) hT
    exact hclose (by cases g <;> simp_all [Group.closing, Group.isObject]) hS (Or.inr rfl)
  | objectClose retain =>
    -- an object is no crumb
    obtain ⟨g, rfl, hg⟩ := nest_closing (g := .object) hT
    obtain rfl := Option.some.inj ht
    have hobject : g.isObject = true := by cases g <;> simp_all [Group.closing, Group.isObject]
    rw [hS, crumbsOf, List.filter_cons_of_neg (by simp [hobject]), crumbsOf]

theorem run_crumbsOf {cfg : Config} {S T : List Group} {t t' : Trail} {es : List Event} (hS : t.path = crumbsOf S)
    (hT : es.foldlM nest S = some T) (ht : es.foldlM (Trail.step cfg) t = some t') : t'.path = crumbsOf T := by
  induction es generalizing S t with
  | nil =>
    obtain rfl : S = T := by simpa using hT
    obtain rfl : t = t' := by simpa using ht
    exact hS
  | cons e es ih =>
    rw [List.foldlM_cons] at hT ht
    obtain ⟨S₁, h₁, hT⟩ := Option.bind_eq_some_iff.1 hT
    obtain ⟨t₁, ht₁, ht⟩ := Option.bind_eq_some_iff.1 ht
    exact ih (step_crumbsOf hS h₁ ht₁) hT ht

/-- Calls that close what they open: after them the open groups, the crumbs and the nesting of JSON are
as before. -/
structure Balanced (es : List Event) : Prop where
  /-- The last group opened is the first one closed, and none of those before is. -/
  groups : ∀ S, es.foldlM nest S = some S
  crumbs : ∀ (cfg : Config) (t t' : Trail), es.foldlM (Trail.step cfg) t = some t' → t'.path = t.path
  /-- A tree of JSON's grammar. -/
  json : ∃ c : Calls, c.fits .json false ∧ es = c.events

theorem balanced_of_nestJson {es : List Event} (h : es.foldlM nestJson [] = some []) : Balanced es := by
  have hgroups (S : List Group) : es.foldlM nest S = some S := nest_append (nest_of_nestJson h) S
  refine ⟨hgroups, fun cfg t t' ht => ?_, nested_calls h⟩
  -- a stack whose crumbs are those of the trail
  have hS : t.path = crumbsOf (t.path.reverse.map .sect) := by
    simp [crumbsOf, List.filter_map, Function.comp_def, Group.isObject, Group.name]
  rw [run_crumbsOf hS (hgroups _) ht, ← hS]

namespace Show

variable {S : List Group} {α : Type} {Q : α → List Group → Prop} {P : Unit → List Group → Prop}

/-! ## What the calls of a routine do to the stack -/

@[simp] theorem ends_entryNamed {name : MbStr} {value : WStr} :
    (entryNamed name value).Ends nestJson P S ↔ inArray S = false ∧ P () S := by
  simp [entryNamed, nestJson, nest, Event.allowed]

@[simp] theorem ends_entry {name : String} {value : WStr} :
    (entry name value).Ends nestJson P S ↔ inArray S = false ∧ P () S := ends_entryNamed

@[simp] theorem ends_entries {e : String × WStr} {es : List (String × WStr)} :
    (entries (e :: es)).Ends nestJson P S ↔ inArray S = false ∧ P () S := by
  induction es generalizing e with
  | nil =>
    change (entry e.1 e.2 >>= fun _ => pure ()).Ends nestJson P S ↔ _
    simp only [ends_bind, ends_entry, ends_pure]
  | cons e' es ih =>
    change (entry e.1 e.2 >>= fun _ => entries (e' :: es)).Ends nestJson P S ↔ _
    simp only [ends_bind, ends_entry, ih, and_self_left]

@[simp] theorem ends_sectionOpenNamed {name : MbStr} :
    (sectionOpenNamed name).Ends nestJson P S ↔ inArray S = false ∧ P () (.sect name :: S) := by
  simp [sectionOpenNamed, nestJson, nest, Event.allowed]

@[simp] theorem ends_sectionOpen {name : String} :
    (sectionOpen name).Ends nestJson P S ↔ inArray S = false ∧ P () (.sect (bytes name) :: S) :=
  ends_sectionOpenNamed

@[simp] theorem ends_header {name : String} :
    (header name).Ends nestJson P S ↔ inArray S = false ∧ P () (.sect (bytes name) :: S) := ends_sectionOpenNamed

@[simp] theorem ends_sectionClose {name : MbStr} :
    sectionClose.Ends nestJson P (.sect name :: S) ↔ P () S := by
  simp [sectionClose, nestJson, nest, Event.allowed]

@[simp] theorem ends_footer {name : MbStr} : footer.Ends nestJson P (.sect name :: S) ↔ P () S :=
  ends_sectionClose

@[simp] theorem ends_containerOpenNamed {name : MbStr} :
    (containerOpenNamed name).Ends nestJson P S ↔ inArray S = false ∧ P () (.cont name :: S) := by
  simp [containerOpenNamed, nestJson, nest, Event.allowed]

@[simp] theorem ends_containerOpen {name : String} :
    (containerOpen name).Ends nestJson P S ↔ inArray S = false ∧ P () (.cont (bytes name) :: S) :=
  ends_containerOpenNamed

@[simp] theorem ends_containerClose {name : MbStr} :
    containerClose.Ends nestJson P (.cont name :: S) ↔ P () S := by
  simp [containerClose, nestJson, nest, Event.allowed]

@[simp] theorem ends_objectOpen :
    objectOpen.Ends nestJson P S ↔ inArray S = true ∧ P () (.object :: S) := by
  simp [objectOpen, nestJson, nest, Event.allowed]

@[simp] theorem ends_objectClose : objectClose.Ends nestJson P (.object :: S) ↔ P () S := by
  simp [objectClose, nestJson, nest, Event.allowed]

@[simp] theorem ends_die {fmt : String} {args : List MbStr} : (die fmt args : Show α).Ends nestJson Q S := trivial

@[simp] theorem ends_assert {fn : String} {c : Bool} :
    (assert fn c).Ends nestJson P S ↔ (c = true → P () S) := by
  cases c <;> simp [assert]

@[simp] theorem ends_when {c : Bool} {m : Show Unit} :
    (when c m).Ends nestJson P S ↔ if c then m.Ends nestJson P S else P () S := by
  cases c <;> simp [when]

@[simp] theorem ends_ofExcept {x : Except Halt α} :
    (ofExcept x).Ends nestJson Q S ↔ ∀ a, x = .ok a → Q a S := by
  cases x <;> simp [ofExcept]

end Show

end Procenv
