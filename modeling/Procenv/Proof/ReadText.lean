import Mathlib.Algebra.BigOperators.Group.List.Defs
import Procenv.Data.Offside
import Procenv.Proof.BlankLines
import Procenv.Proof.Outline

/-!
# The text that is shown, read back

The text format has no brackets: what is inside a group is deeper. A reader takes the lines
that are not blank, counts their indents, looks for the separator and puts the lines
together by their depths. `pstring_chomp` and `pstring_compress` take nothing from it
that the reader needs, as long as no line ends in two indent characters, and the last
one in none.

* `squeezeLines_filter`: what squeezing leaves of such lines.
* `readLine_entry`, `readLine_group`: a line is read back.
* `shownText_render`, `readText_render`: the lines that are shown, and what is read from them.
* `text_lossless`: **the outline is read back from the text that is shown**, but for the
  kinds of the groups.
-/

namespace Procenv

open Text Data

variable {cfg : Config} {u c : WChar} {ls : List WStr} {name value sep t : WStr}

/-! ## The reader -/

/-- What a line says: a name, and the value if it is an entry. -/
abbrev Item := WStr × Option WStr

/-- The items of an outline. -/
def Outline.items : Outline → Forest Item
  | .nil => .nil
  | .entry name value next => .node (name, some value) .nil next.items
  | .group _ name kids next => .node (name, none) kids.items next.items

/-- The depth of a line and its item. -/
def readLine (u : WChar) (amount : Nat) (sep l : WStr) : Nat × Item :=
  let text := l.dropWhile (· = u)
  let depth := (l.length - text.length) / amount
  match text.dropInfix? sep with
  | some (name, value) => (depth, name, some value)
  | none => (depth, text.dropLast, none)

/-- What a text says. -/
def readText (u : WChar) (amount : Nat) (sep t : WStr) : Forest Item :=
  Forest.read ((kept u t).map (readLine u amount sep))

/-- A name that the reader can tell from the indent before it and the separator after it. -/
structure PlainName (u : WChar) (sep name : WStr) : Prop where
  ne_nil : name ≠ []
  indent : name.head? ≠ some u
  separator : ∀ x ∈ sep.head?, x ∉ name

/-- The names of an outline are plain. -/
def Outline.Plain (u : WChar) (sep : WStr) : Outline → Prop
  | .nil => True
  | .entry name _ next => PlainName u sep name ∧ next.Plain u sep
  | .group _ name kids next => PlainName u sep name ∧ kids.Plain u sep ∧ next.Plain u sep

/-! ## Lines -/

/-- The separator is found behind the name. -/
theorem dropInfix_entry (h : PlainName u sep name) (hsep : sep ≠ []) :
    (name ++ sep ++ value).dropInfix? sep = some (name, value) := by
  rw [List.dropInfix?_eq_some_iff]
  refine ⟨⟨sep, rfl, beq_self_eq_true sep⟩, fun p i s hsplit hi => ?_⟩
  obtain rfl := eq_of_beq hi
  by_contra hlt
  -- the first character of an earlier separator would be in the name
  obtain ⟨x, sep', rfl⟩ := List.exists_cons_of_ne_nil hsep
  refine h.separator x rfl ?_
  have hpre : p ++ [x] <+: name := by
    have hname : name <+: name ++ x :: sep' ++ value := ⟨_, (List.append_assoc _ _ _).symm⟩
    have hp : p ++ [x] <+: name ++ x :: sep' ++ value := ⟨sep' ++ s, by rw [hsplit]; simp⟩
    refine List.prefix_of_prefix_length_le hp hname ?_
    simp only [List.length_append, List.length_singleton]
    omega
  exact hpre.subset (by simp)

/-- There is no separator in the line of a group. -/
theorem dropInfix_group (h : PlainName u sep name) (hsep : sep ≠ []) (hcolon : sep ≠ lit ":") :
    (name ++ lit ":").dropInfix? sep = none := by
  rw [Option.eq_none_iff_forall_not_mem]
  rintro ⟨p, s⟩ hmem
  obtain ⟨⟨i, hsplit, hi⟩, -⟩ := List.dropInfix?_eq_some_iff.1 hmem
  obtain rfl := eq_of_beq hi
  obtain ⟨x, sep', rfl⟩ := List.exists_cons_of_ne_nil hsep
  rw [List.append_assoc] at hsplit
  rcases List.append_eq_append_iff.1 hsplit with ⟨a, rfl, ha⟩ | ⟨a, rfl, ha⟩
  · -- the separator is the colon, or comes after it
    rcases a with _ | ⟨y, a⟩
    · obtain ⟨rfl, hnil⟩ := List.cons.inj ha
      obtain ⟨rfl, -⟩ := List.append_eq_nil_iff.1 hnil.symm
      exact hcolon rfl
    · have hlen : 1 = (y :: a ++ (x :: sep' ++ s)).length := congrArg List.length ha
      simp only [List.length_cons, List.length_append] at hlen
      omega
  · -- the separator starts in the name
    rcases a with _ | ⟨y, a⟩
    · obtain ⟨rfl, hnil⟩ := List.cons.inj ha.symm
      obtain ⟨rfl, -⟩ := List.append_eq_nil_iff.1 hnil.symm
      exact hcolon rfl
    · obtain ⟨rfl, -⟩ := List.cons.inj ha
      exact h.separator _ rfl (by simp)

/-- The indent before a text. -/
theorem dropWhile_indent {n : Nat} (ht : t.head? ≠ some u) :
    (List.replicate n u ++ t).dropWhile (· = u) = t := by
  rw [List.dropWhile_append_of_pos (by simp)]
  cases t with
  | nil => rfl
  | cons x t =>
    have hx : x ≠ u := fun h => ht (by rw [h]; rfl)
    simp [hx]

section Line

variable {amount : Nat} (ha : 0 < amount) (hsep : sep ≠ []) (h : PlainName u sep name) (depth : Nat)

include ha hsep h

/-- **The line of an entry** is read back. -/
theorem readLine_entry (value : WStr) :
    readLine u amount sep ((List.replicate depth (List.replicate amount u)).flatten ++ name ++ sep ++ value) =
      (depth, name, some value) := by
  have hhead : (name ++ sep ++ value).head? ≠ some u := by
    obtain ⟨x, name', rfl⟩ := List.exists_cons_of_ne_nil h.ne_nil
    exact h.indent
  have hline : (List.replicate depth (List.replicate amount u)).flatten ++ name ++ sep ++ value =
      List.replicate (depth * amount) u ++ (name ++ sep ++ value) := by
    rw [List.flatten_replicate_replicate]
    simp only [List.append_assoc]
  simp only [readLine, hline, dropWhile_indent hhead, dropInfix_entry h hsep, List.length_append,
    List.length_replicate, Nat.add_sub_cancel, Nat.mul_div_cancel _ ha]

/-- **The line of a group** is read back. -/
theorem readLine_group (hcolon : sep ≠ lit ":") :
    readLine u amount sep ((List.replicate depth (List.replicate amount u)).flatten ++ name ++ lit ":") =
      (depth, name, none) := by
  have hhead : (name ++ lit ":").head? ≠ some u := by
    obtain ⟨x, name', rfl⟩ := List.exists_cons_of_ne_nil h.ne_nil
    exact h.indent
  have hlast : (name ++ lit ":").dropLast = name := List.dropLast_concat
  rw [List.flatten_replicate_replicate, List.append_assoc]
  simp only [readLine, dropWhile_indent hhead, dropInfix_group h hsep hcolon, hlast, List.length_append,
    List.length_replicate, Nat.add_sub_cancel, Nat.mul_div_cancel _ ha]

end Line

/-- The lines of an outline are the lines of its items. -/
theorem readLine_render {amount : Nat} (ha : 0 < amount) (hsep : sep ≠ []) (hcolon : sep ≠ lit ":") (o : Outline)
    (h : o.Plain u sep) : ∀ depth, (o.render (List.replicate amount u) sep depth).map (readLine u amount sep) =
      o.items.lines depth := by
  induction o with
  | nil => exact fun _ => rfl
  | entry name value next ih =>
    intro depth
    rw [Outline.render, List.map_cons, readLine_entry ha hsep h.1, ih h.2]
    rfl
  | group kind name kids next ihk ihn =>
    intro depth
    rw [Outline.render, List.map_cons, List.map_append, readLine_group ha hsep h.1 depth hcolon,
      ihk h.2.1, ihn h.2.2]
    rfl

/-! ## What is shown -/

/-- **Squeezing keeps the lines that are not blank**, when none of them ends in two `c`. -/
theorem squeezeLines_filter (h : ∀ l ∈ ls, nonblank c l = true → ¬ [c, c] <:+ l) :
    (squeezeLines c ls).filter (nonblank c) = ls.filter (nonblank c) := by
  induction ls with
  | nil => rfl
  | cons l ls ih =>
    have hrest := ih fun l' hl' => h l' (List.mem_cons_of_mem _ hl')
    by_cases hb : Blank c l
    · have hblank : nonblank c l ≠ true := fun hn => not_blank_of_nonblank hn hb
      rw [squeezeLines_drop hb, hrest, List.filter_cons_of_neg hblank]
    · have h2 : ¬ [c, c] <:+ l := by
        intro h2
        have hne : l ≠ [c] := by
          rintro rfl
          exact absurd h2.length_le (by simp)
        exact h l List.mem_cons_self ((nonblank_of_kept hb).2 hne) h2
      rw [squeezeLines_copy (fun h0 => hb (Or.inl h0)) h2, List.filter_cons, List.filter_cons, hrest]

/-- **The lines that are shown** of lines of which none ends in two `c`, and the last that is not blank in
none. -/
theorem postProcess_filter (hc : c ≠ nl) (hnl : ∀ l ∈ ls, nl ∉ l) (hhead : (unlines nl ls).head? ≠ some nl)
    (hends : ∀ l ∈ ls.filter (nonblank c), ¬ [c, c] <:+ l)
    (hlast : ∀ l ∈ (ls.filter (nonblank c)).getLast?, ¬ [c] <:+ l) (h : ∃ l ∈ ls, nonblank c l = true) :
    ∃ out, postProcess c (unlines nl ls) = .ok out ∧ kept c out = ls.filter (nonblank c) := by
  -- the last line that is not blank ends in its stem
  obtain ⟨pre, p, post, rfl, hp, hpost⟩ := last_of h
  have hpost' : ∀ l ∈ post, nonblank c l = false := by simpa using hpost
  obtain ⟨a, z, k, rfl, hz⟩ := nonblank_split hp
  have hfilter : (pre ++ (a ++ [z] ++ List.replicate k c) :: post).filter (nonblank c) =
      pre.filter (nonblank c) ++ [a ++ [z] ++ List.replicate k c] := by
    have hgone : post.filter (nonblank c) = [] := List.filter_eq_nil_iff.2 hpost
    rw [List.filter_append, List.filter_cons_of_pos hp, hgone]
  rw [hfilter] at hends hlast ⊢
  obtain rfl : k = 0 := by
    by_contra hk
    obtain ⟨k, rfl⟩ := Nat.exists_eq_succ_of_ne_zero hk
    refine hlast (a ++ [z] ++ List.replicate (k + 1) c) (by simp) ⟨a ++ [z] ++ List.replicate k c, ?_⟩
    rw [List.replicate_succ', List.append_assoc]
  obtain ⟨y, htext, hy⟩ := unlines_cut pre a z 0 hpost'
  rw [htext] at hhead ⊢
  have hline : nl ∉ a ++ [z] := by simpa using hnl (a ++ [z] ++ List.replicate 0 c) (by simp)
  have hzn : z ≠ nl := by
    rintro rfl
    exact hline (by simp)
  obtain ⟨w, out, hw, hend, hout, hshown⟩ := postProcess_squeeze (not_or.2 ⟨hzn, hz⟩) hy
  refine ⟨out, hout, ?_⟩
  have hlines : lines nl ((unlines nl pre ++ a) ++ [z, nl]) = pre ++ [a ++ [z]] := by
    have hkept : (unlines nl pre ++ a) ++ [z, nl] = unlines nl (pre ++ [a ++ [z]]) := by
      rw [unlines_append]
      simp [unlines]
    rw [hkept, lines_unlines]
    intro l hl
    rcases List.mem_append.1 hl with hl | hl
    · exact hnl l (List.mem_append_left _ hl)
    · rw [List.mem_singleton.1 hl]
      exact hline
  rw [head_append_cons _ _ _ [nl]] at hhead
  have hcopied : ∀ l ∈ pre ++ [a ++ [z]], nonblank c l = true → ¬ [c, c] <:+ l := by
    intro l hl hn
    refine hends l ?_
    rcases List.mem_append.1 hl with hl | hl
    · exact List.mem_append_left _ (List.mem_filter.2 ⟨hl, hn⟩)
    · rw [List.mem_singleton.1 hl]
      simp
  rw [kept, hshown, squeeze_lines hc _ (Nat.le_refl _) hhead hend hw, hlines, squeezeLines_filter hcopied,
    List.filter_append]
  simp [nonblank, hz]

/-- **The lines of a call tree are shown**, but for the blank ones, when no line of it ends in two indent
characters and the last one in none. -/
theorem shownText_render (hf : cfg.outputFormat = .text) (ha : 0 ≤ cfg.indentAmount)
    (hu : cfg.indentUnit = cfg.wideIndentChar) (hun : cfg.indentUnit ≠ nl)
    (hdec : (cfg.locale.mbsrtowcs cfg.textSeparator).isSome) (hline : nl ∉ cfg.sepText) {c : Calls}
    (htree : c.Textual cfg) (hends : ∀ l ∈ c.render cfg 0, ¬ [cfg.indentUnit, cfg.indentUnit] <:+ l)
    (hlast : ∀ l ∈ (c.render cfg 0).getLast?, ¬ [cfg.indentUnit] <:+ l) {es : List Event}
    (hes : eraseObjects es = c.events) :
    ∃ out, shownText cfg es = .ok out ∧ kept cfg.indentUnit out = c.render cfg 0 := by
  obtain ⟨s, hs, -, hdoc⟩ := run_text hf ha hdec htree.fits htree.encodable hes
  rw [shownText_run (Or.inl hf) ha hs, hdoc, ← hu]
  by_cases hc : c = .nil
  · subst hc
    have hempty : callsText cfg .fresh 0 .nil ++ [nl] = [nl] := rfl
    rw [hempty, postProcess_nl]
    exact ⟨_, rfl, rfl⟩
  obtain ⟨hlayout, name, rest, hname, hgood⟩ := document_layout hf ha hc htree
  have hkept : (c.layout cfg 0).filter (nonblank cfg.indentUnit) = c.render cfg 0 := by
    have hcalls := calls_kept hf ha hun hline c htree .fresh (k := 0) 0 (r := [nl]) (by simp [kidIndent])
      (Or.inr ⟨[], rfl⟩)
    have hend : kept cfg.indentUnit [nl] = [] := rfl
    rwa [hlayout, kept, lines_unlines (layout_plain hf hun c 0 htree), hend, List.append_nil] at hcalls
  have hany : ∃ l ∈ c.layout cfg 0, nonblank cfg.indentUnit l = true := by
    have hnonblank := layout_nonblank hf hun hline htree 0
    rw [decide_eq_true hc] at hnonblank
    exact List.any_eq_true.1 hnonblank
  obtain ⟨hhead, -⟩ := hgood.starts rest
  rw [← hname] at hhead
  obtain ⟨out, hout, hfilter⟩ := postProcess_filter hun (layout_plain hf hun c 0 htree) hhead (hkept ▸ hends)
    (hkept ▸ hlast) hany
  rw [hlayout]
  exact ⟨out, hout, hfilter.trans hkept⟩

/-- The reader reads the lines of a call tree. -/
theorem readText_render (ha : 0 < cfg.indentAmount) (hsep : cfg.sepText ≠ []) (hcolon : cfg.sepText ≠ lit ":")
    {c : Calls} (hfit : c.fits .text false) (hplain : (c.outline cfg).Plain cfg.indentUnit cfg.sepText)
    {out : WStr} (hout : kept cfg.indentUnit out = c.render cfg 0) :
    readText cfg.indentUnit cfg.indentAmount.toNat cfg.sepText out = (c.outline cfg).items := by
  rw [readText, hout, render_outline c hfit, readLine_render (by omega) hsep hcolon _ hplain, Forest.read_lines]

/-- **The outline is read back from the text that is shown**, after `pstring_chomp` and `pstring_compress`,
when no line of it ends in two indent characters and the last one in none. Sections and containers look the
same. -/
theorem text_lossless (hf : cfg.outputFormat = .text) (ha : 0 < cfg.indentAmount)
    (hu : cfg.indentUnit = cfg.wideIndentChar) (hun : cfg.indentUnit ≠ nl)
    (hdec : (cfg.locale.mbsrtowcs cfg.textSeparator).isSome) (hline : nl ∉ cfg.sepText)
    (hsep : cfg.sepText ≠ []) (hcolon : cfg.sepText ≠ lit ":") (c : Calls) (hfit : c.fits .text false)
    (henc : c.Encodable cfg) (hone : ∀ e ∈ c.events, e.OneLine cfg)
    (hplain : (c.outline cfg).Plain cfg.indentUnit cfg.sepText)
    (hends : ∀ l ∈ c.render cfg 0, ¬ [cfg.indentUnit, cfg.indentUnit] <:+ l)
    (hlast : ∀ l ∈ (c.render cfg 0).getLast?, ¬ [cfg.indentUnit] <:+ l) (es : List Event)
    (hes : eraseObjects es = c.events) :
    ∃ out, shownText cfg es = .ok out ∧
      readText cfg.indentUnit cfg.indentAmount.toNat cfg.sepText out = (c.outline cfg).items := by
  obtain ⟨out, hout, hkept⟩ :=
    shownText_render hf (Int.le_of_lt ha) hu hun hdec hline ⟨hfit, henc, hone⟩ hends hlast hes
  exact ⟨out, hout, readText_render ha hsep hcolon hfit hplain hkept⟩

/-- A section with an empty value, an empty container and an entry after it. -/
theorem text_lossless_cpu :
    let cfg : Config := { locale := posixLocale }
    let c : Calls := .group (.sect (bytes "cpu"))
      (.entry (bytes "model") []
        (.group (.cont (bytes "affinity")) .nil (.entry (bytes "last") (lit "1 of 2") .nil))) .nil
    ∃ out, shownText cfg c.events = .ok out ∧ readText 32 2 (lit ": ") out =
      .node (lit "cpu", none) (.node (lit "model", some []) .nil (.node (lit "affinity", none) .nil
        (.node (lit "last", some (lit "1 of 2")) .nil .nil))) .nil := by
  intro cfg c
  have hplain (name : WStr) (h : name ≠ [] ∧ name.head? ≠ some 32 ∧ (0x3A : WChar) ∉ name) :
      PlainName 32 (lit ": ") name := by
    refine ⟨h.1, h.2.1, fun x hx => ?_⟩
    obtain rfl : 0x3A = x := Option.some.inj hx
    exact h.2.2
  have hout : (c.outline cfg).Plain 32 (lit ": ") :=
    ⟨hplain (lit "cpu") (by decide), ⟨hplain (lit "model") (by decide),
    hplain (lit "affinity") (by decide), trivial, hplain (lit "last") (by decide), trivial⟩, trivial⟩
  have hlines : c.render cfg 0 = [lit "cpu:", lit "  model: ", lit "  affinity:", lit "  last: 1 of 2"] := by
    decide
  have hends : ∀ l ∈ [lit "cpu:", lit "  model: ", lit "  affinity:", lit "  last: 1 of 2"],
    ¬ [32, 32] <:+ l := by
    simp only [List.forall_mem_cons, List.not_mem_nil, false_implies, implies_true, and_true]
    decide
  have hlast : ∀ l ∈ (c.render cfg 0).getLast?, ¬ [32] <:+ l := by
    rw [hlines]
    intro l hl
    obtain rfl : lit "  last: 1 of 2" = l := Option.some.inj hl
    decide
  exact @text_lossless cfg rfl (by decide) (by decide) (by decide) (by decide) (by decide)
    (by decide) (by decide) c (by decide) (by decide) (by decide) hout (by rw [hlines]; exact hends)
    hlast c.events (by decide)

end Procenv
