import Procenv.Proof.Crumb
import Procenv.Proof.TextFormat

/-!
# What a document says

An `Outline` is a call tree without the program: wide names and values, and groups of
three kinds. A format may not tell all of it: object calls are written in JSON alone
(`Outline.erase`). The lines of a crumb document and those of a text document are those
of its outline (`crumbLines_outline`, `render_outline`). A sequence of calls has at most
one tree (`Calls.events_injective`).
-/

namespace Procenv

open Text

variable {cfg : Config}

/-- The kinds of groups. -/
inductive GroupKind
  | sect | cont | object
deriving DecidableEq, Repr

/-- The kind of a group. -/
def Group.kind : Group → GroupKind
  | sect _ => .sect
  | cont _ => .cont
  | object => .object

/-- **What a document says**: entries, and groups with what is inside. -/
inductive Outline
  | nil
  | entry (name value : WStr) (next : Outline)
  | group (kind : GroupKind) (name : WStr) (kids next : Outline)
deriving DecidableEq, Repr

namespace Outline

/-- One outline after the other. -/
def append : Outline → Outline → Outline
  | nil, o => o
  | entry name value next, o => entry name value (next.append o)
  | group kind name kids next, o => group kind name kids (next.append o)

/-- The outline without its objects: what is inside stays. -/
def erase : Outline → Outline
  | nil => nil
  | entry name value next => entry name value next.erase
  | group .object _ kids next => kids.erase.append next.erase
  | group kind name kids next => group kind name kids.erase next.erase

/-- A line for each entry, after the names of the groups around it. -/
def crumbLines (crumbSeparator textSeparator : WStr) : (path : List WStr) → Outline → List WStr
  | _, nil => []
  | path, entry name value next =>
    (path.flatMap (· ++ crumbSeparator) ++ name ++ textSeparator ++ value) ::
      next.crumbLines crumbSeparator textSeparator path
  | path, group _ name kids next =>
    kids.crumbLines crumbSeparator textSeparator (path ++ [name]) ++
      next.crumbLines crumbSeparator textSeparator path

/-- A line for each entry and for each group, as many indents deep as there are groups around it. -/
def render (indent separator : WStr) : (depth : Nat) → Outline → List WStr
  | _, nil => []
  | depth, entry name value next =>
    ((List.replicate depth indent).flatten ++ name ++ separator ++ value) :: next.render indent separator depth
  | depth, group _ name kids next =>
    ((List.replicate depth indent).flatten ++ name ++ lit ":") ::
      (kids.render indent separator (depth + 1) ++ next.render indent separator depth)

end Outline

/-- The outline of a call tree. -/
def Calls.outline (cfg : Config) : Calls → Outline
  | nil => .nil
  | entry name value next => .entry (cfg.wideName name) value (next.outline cfg)
  | group .object kids next => .group .object [] (kids.outline cfg) (next.outline cfg)
  | group g kids next => .group g.kind (cfg.wideName g.name) (kids.outline cfg) (next.outline cfg)

/-- The call tree of the calls without the object calls. -/
def Calls.erase : Calls → Calls
  | nil => nil
  | entry name value next => entry name value next.erase
  | group .object kids next => kids.erase.append next.erase
  | group g kids next => group g kids.erase next.erase

/-! ## Erasing objects -/

theorem eraseObjects_append (es es' : List Event) :
    eraseObjects (es ++ es') = eraseObjects es ++ eraseObjects es' := List.filter_append ..

/-- **The calls of the erased tree** are the calls of the tree without the object calls. -/
theorem Calls.events_erase (c : Calls) : eraseObjects c.events = c.erase.events := by
  induction c with
  | nil => rfl
  | entry name value next ih =>
    have hkeep : eraseObjects (Event.entry name value :: next.events) =
        .entry name value :: eraseObjects next.events := rfl
    rw [Calls.events, hkeep, ih]
    rfl
  | group g kids next ihk ihn =>
    have hsplit : (Calls.group g kids next).events =
      [g.opening] ++ (kids.events ++ ([g.closing] ++ next.events)) := rfl
    rw [hsplit]
    simp only [eraseObjects_append, ihk, ihn]
    cases g with
    | object => exact (Calls.events_append _ _).symm
    | sect name => rfl
    | cont name => rfl

/-- The erased tree of a JSON document is a tree of the other formats. -/
theorem Calls.fits_erase {fmt : OutputFormat} (hfmt : fmt ≠ .json) (c : Calls) :
    ∀ array, c.fits .json array → c.erase.fits fmt false := by
  induction c with
  | nil => intro _ _; rfl
  | entry name value next ih =>
    intro array h
    simp only [Calls.fits, Bool.and_eq_true] at h
    simpa [Calls.erase, Calls.fits] using ih _ h.2
  | group g kids next ihk ihn =>
    intro array h
    simp only [Calls.fits, Bool.and_eq_true] at h
    have hkids := ihk _ h.1.2
    have hnext := ihn _ h.2
    cases g with
    | object => exact Calls.fits_append hkids hnext
    | sect name => simpa [Calls.erase, Calls.fits, Group.isObject, Group.isArray, hfmt] using ⟨hkids, hnext⟩
    | cont name => simpa [Calls.erase, Calls.fits, Group.isObject, Group.isArray, hfmt] using ⟨hkids, hnext⟩

theorem Calls.outline_append (c d : Calls) :
    (c.append d).outline cfg = (c.outline cfg).append (d.outline cfg) := by
  induction c with
  | nil => rfl
  | entry name value next ih => simp [Calls.append, Calls.outline, Outline.append, ih]
  | group g kids next _ ih => cases g <;> simp [Calls.append, Calls.outline, Outline.append, ih]

/-- **The outline of the erased tree** is the erased outline. -/
theorem Calls.outline_erase (c : Calls) : c.erase.outline cfg = (c.outline cfg).erase := by
  induction c with
  | nil => rfl
  | entry name value next ih => simp [Calls.erase, Calls.outline, Outline.erase, ih]
  | group g kids next ihk ihn =>
    cases g with
    | object => simp [Calls.erase, Calls.outline, Outline.erase, Calls.outline_append, ihk, ihn]
    | sect name => simp [Calls.erase, Calls.outline, Outline.erase, Group.kind, ihk, ihn]
    | cont name => simp [Calls.erase, Calls.outline, Outline.erase, Group.kind, ihk, ihn]

/-! ## The tree of the calls -/

/-- What can follow the calls of a tree: nothing that belongs to it. -/
def TreeEnds (r : List Event) : Prop :=
  (∀ name value, r.head? ≠ some (.entry name value)) ∧ ∀ g : Group, r.head? ≠ some g.opening

theorem Group.opening_injective {g g' : Group} (h : g.opening = g'.opening) : g = g' := by
  cases g <;> cases g' <;> simp_all [Group.opening]

theorem treeEnds_closing (g : Group) (r : List Event) : TreeEnds (g.closing :: r) := by
  constructor
  · intro name value
    cases g <;> simp [Group.closing]
  · intro g'
    cases g <;> cases g' <;> simp [Group.closing, Group.opening]

theorem treeEnds_nil : TreeEnds [] := ⟨by simp, by simp⟩

theorem Calls.events_cancel (c : Calls) : ∀ {d : Calls} {r r' : List Event}, TreeEnds r → TreeEnds r' →
    c.events ++ r = d.events ++ r' → c = d ∧ r = r' := by
  induction c with
  | nil =>
    intro d r r' hr hr' h
    cases d with
    | nil => exact ⟨rfl, h⟩
    | entry name value next => exact absurd (congrArg List.head? h) (hr.1 name value)
    | group g kids next => exact absurd (congrArg List.head? h) (hr.2 g)
  | entry name value next ih =>
    intro d r r' hr hr' h
    cases d with
    | nil => exact absurd (congrArg List.head? h).symm (hr'.1 name value)
    | entry name' value' next' =>
      obtain ⟨hhead, htail⟩ := List.cons.inj h
      obtain ⟨rfl, rfl⟩ := Event.entry.inj hhead
      obtain ⟨rfl, hrest⟩ := ih hr hr' htail
      exact ⟨rfl, hrest⟩
    | group g kids next' =>
      obtain ⟨hhead, -⟩ := List.cons.inj h
      cases g <;> cases hhead
  | group g kids next ihk ihn =>
    intro d r r' hr hr' h
    cases d with
    | nil => exact absurd (congrArg List.head? h).symm (hr'.2 g)
    | entry name value next' =>
      obtain ⟨hhead, -⟩ := List.cons.inj h
      cases g <;> cases hhead
    | group g' kids' next' =>
      obtain ⟨hhead, htail⟩ := List.cons.inj h
      obtain rfl := Group.opening_injective hhead
      obtain ⟨rfl, hclose⟩ := ihk (treeEnds_closing g (next.events ++ r))
        (treeEnds_closing g (next'.events ++ r')) (by simpa using htail)
      obtain ⟨rfl, hrest⟩ := ihn hr hr' (List.cons.inj hclose).2
      exact ⟨rfl, hrest⟩

/-- **The calls determine their tree.** -/
theorem Calls.events_injective {c d : Calls} (h : c.events = d.events) : c = d :=
  (c.events_cancel treeEnds_nil treeEnds_nil (by simpa using h)).1
/-! ## The lines of a document -/

/-- The names of the groups and the entries decode. -/
theorem crumbName_wideName {name : MbStr} (h : (cfg.encodeName name).isSome) :
    cfg.crumbName name = cfg.wideName name := by
  obtain ⟨r, hr⟩ := Option.isSome_iff_exists.1 h
  obtain ⟨w, hw, -⟩ := encodeName_eq hr
  rw [Config.wideName, hw, Config.crumbName]
  unfold charToWchar at hw
  split at hw
  · cases hw
  · cases hw
  · rename_i hdec
    simp [hdec, hw]

/-- **The crumb lines of a call tree** are those of its outline. -/
theorem crumbLines_outline (c : Calls) (hfit : c.fits .crumb false) (henc : c.Encodable cfg) :
    ∀ path : List MbStr, (∀ name ∈ path, (cfg.encodeName name).isSome) →
      c.crumbLines cfg path = (c.outline cfg).crumbLines (cfg.crumbName cfg.crumbSeparator)
        (cfg.crumbName cfg.textSeparator) (path.map cfg.wideName) := by
  induction c with
  | nil => intro _ _; rfl
  | entry name value next ih =>
    intro path hpath
    have hcrumbs : cfg.pathText path =
      (path.map cfg.wideName).flatMap (· ++ cfg.crumbName cfg.crumbSeparator) := by
      rw [Config.pathText, List.flatMap_map]
      exact List.flatMap_congr fun name hname => by rw [crumbName_wideName (hpath name hname)]
    rw [Calls.crumbLines, Calls.outline, Outline.crumbLines, ih (fits_entry hfit).2 henc.entry.2 path hpath,
      Config.crumbLine, hcrumbs, crumbName_wideName henc.entry.1.1]
  | group g kids next ihk ihn =>
    intro path hpath
    obtain ⟨hg, hfk, hfn⟩ := fits_group hfit
    rw [isArray_false (by decide)] at hfk
    obtain ⟨he, hek, hen⟩ := henc.group
    have hname : (cfg.encodeName g.name).isSome := by
      cases g with
      | sect name => exact he
      | cont name => exact he
      | object => simp [Group.isObject] at hg
    have hkids := ihk hfk hek (path ++ [g.name]) (by simpa [or_imp, forall_and] using ⟨hpath, hname⟩)
    rw [List.map_append, List.map_singleton] at hkids
    rw [Calls.crumbLines, hkids, ihn hfn hen path hpath]
    cases g with
    | object => simp [Group.isObject] at hg
    | sect name => rfl
    | cont name => rfl

/-- **The rendering of a call tree** is that of its outline. -/
theorem render_outline (c : Calls) (hfit : c.fits .text false) :
    ∀ depth, c.render cfg depth = (c.outline cfg).render (List.replicate cfg.indentAmount.toNat cfg.indentUnit)
      cfg.sepText depth := by
  induction c with
  | nil => intro _; rfl
  | entry name value next ih =>
    intro depth
    rw [Calls.render, Calls.outline, Outline.render, ih (fits_entry hfit).2,
      List.flatten_replicate_replicate, lineAt]
    simp only [List.append_assoc]
  | group g kids next ihk ihn =>
    intro depth
    obtain ⟨hg, hfk, hfn⟩ := fits_group hfit
    rw [isArray_false (by decide)] at hfk
    have hline : lineAt cfg depth (cfg.wideName g.name ++ lit ":") =
        (List.replicate depth (List.replicate cfg.indentAmount.toNat cfg.indentUnit)).flatten ++
          cfg.wideName g.name ++
          lit ":" := by
      rw [List.flatten_replicate_replicate, lineAt, List.append_assoc]
    rw [Calls.render, ihk hfk, ihn hfn, hline]
    cases g with
    | object => simp [Group.isObject] at hg
    | sect name => rfl
    | cont name => rfl

end Procenv
