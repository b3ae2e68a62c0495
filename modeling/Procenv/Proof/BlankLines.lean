import Procenv.Proof.CrumbOutput
import Procenv.Proof.TextFormat

/-!
# Blank lines in text output

The closing of a group writes a line of indent characters alone, and `pstring_compress`
is to remove it. It keeps a line of one indent character, and joins a line with the one
before it when that one ends in two indent characters. `exposed` follows the joins over a
list of lines.

* `squeezeLines_nonblank`: the squeezed lines have no blank one exactly when no line of
  one indent character is exposed.
* `postProcess_lines`: what is shown of a text of lines has no blank line on the same
  condition.
* `exposed_layout`: which closings of a call tree are exposed, all at depth one and with
  an indent of one.
* `shownText_nonblank`: **when the output in text format has no blank line**, and
  `shownText_wide`: **never with an indent of two or more**.
-/

namespace Procenv

open Text

variable {c : WChar} {s t w l : WStr} {ls : List WStr}

/-! ## Exposed lines -/

/-- Whether the next line is joined with the last one kept. -/
def joins (c : WChar) (joined : Bool) (l : WStr) : Bool := if Blank c l then joined else decide (Frayed c l)

/-- **A line of one `c` is exposed** when it is not joined with the last line kept before it, and a
line that is not blank stands after it: in the list, or `later`. -/
def exposed (c : WChar) (later : Bool) : (joined : Bool) → List WStr → Bool
  | _, [] => false
  | joined, l :: ls =>
    (decide (l = [c]) && !joined && (ls.any (nonblank c) || later)) || exposed c later (joins c joined l) ls

theorem exposed_append (later : Bool) (ls ls' : List WStr) (joined : Bool) :
    exposed c later joined (ls ++ ls') =
      (exposed c (ls'.any (nonblank c) || later) joined ls ||
        exposed c later (ls.foldl (joins c) joined) ls') := by
  induction ls generalizing joined with
  | nil => rfl
  | cons l ls ih =>
    simp only [List.cons_append, exposed, ih, List.foldl_cons, List.any_append]
    simp only [Bool.or_assoc]

/-- Without a line that is not blank after them, no line is exposed. -/
theorem exposed_blank (joined : Bool) (h : ∀ l ∈ ls, nonblank c l = false) :
    exposed c false joined ls = false := by
  induction ls generalizing joined with
  | nil => rfl
  | cons l ls ih =>
    have hls : ∀ l ∈ ls, nonblank c l = false := fun x hx => h x (List.mem_cons_of_mem l hx)
    have hany : ls.any (nonblank c) = false := by simpa using hls
    rw [exposed, hany, ih _ hls]
    simp

theorem not_blank_single : ¬ Blank c [c] := by
  rintro (h | ⟨h, -⟩)
  · cases h
  · simp at h

/-- A line that is kept is blank only if it is a line of one `c`. -/
theorem nonblank_of_kept (hl : ¬ Blank c l) : nonblank c l = true ↔ l ≠ [c] := by
  constructor
  · rintro h rfl
    simp [nonblank] at h
  · intro hne
    by_contra h
    have hall : ∀ x ∈ l, x = c := by simpa [nonblank] using h
    have hlen : l.length < 2 := by
      by_contra h2
      exact hl (Or.inr ⟨by omega, hall⟩)
    rcases l with _ | ⟨x, _ | ⟨y, l⟩⟩
    · exact hl (Or.inl rfl)
    · exact hne (by rw [hall x List.mem_cons_self])
    · simp only [List.length_cons] at hlen
      omega

/-- **The squeezed lines have no blank one exactly when none is exposed**; a first line that is joined
with an earlier one does not count. -/
theorem squeezeLines_nonblank (ls : List WStr) (joined : Bool) :
    (∀ l ∈ (if joined then (squeezeLines c ls).tail else squeezeLines c ls), nonblank c l = true) ↔
      exposed c true joined ls = false := by
  induction ls generalizing joined with
  | nil => cases joined <;> simp [squeezeLines, exposed]
  | cons l ls ih =>
    by_cases hb : Blank c l
    · -- a blank line changes nothing
      have hne : l ≠ [c] := fun h => not_blank_single (h ▸ hb)
      rw [squeezeLines_drop hb, ih joined]
      simp [exposed, joins, hb, hne]
    have hkept := nonblank_of_kept hb
    by_cases h2 : [c, c] <:+ l
    · -- a frayed line is not blank, and takes the next one with it
      have hne : l ≠ [c] := by
        rintro rfl
        exact absurd h2.length_le (by simp)
      have hfr : Frayed c l := ⟨by simpa [nonblank] using hkept.2 hne, h2⟩
      obtain ⟨u, z, k, rfl, hz, hk⟩ := hfr.split
      have hrest := ih true
      rw [squeezeLines_join hz hk]
      simp only [if_true] at hrest
      simp only [exposed, joins, hb, hne, hfr, decide_false, decide_true, Bool.false_and,
        Bool.false_or, if_false, ← hrest]
      have hfirst : ∀ v, nonblank c (u ++ [z] ++ v) = true := fun v => by simp [nonblank, hz]
      cases joined
      · simp only [Bool.false_eq_true, if_false, List.forall_mem_cons, hfirst, true_and]
      · simp only [if_true, List.tail_cons]
    · -- any other line is copied
      have hl0 : l ≠ [] := fun h => hb (Or.inl h)
      have hfr : ¬ Frayed c l := fun h => h2 h.2
      have hrest := ih false
      rw [squeezeLines_copy hl0 h2]
      simp only [Bool.false_eq_true, if_false] at hrest
      cases joined
      · simp only [Bool.false_eq_true, if_false, List.forall_mem_cons, hrest, hkept]
        simp [exposed, joins, hb, hfr]
      · simp only [if_true, List.tail_cons, hrest]
        simp [exposed, joins, hb, hfr]

/-! ## The lines of the output -/

/-- The end of a text, after characters that are not in it. -/
theorem suffix_close {a r p : WStr} {x : WChar} (ha : x ∉ a) (h : a ++ r = p ++ [x, nl]) :
    ∃ p', r = p' ++ [x, nl] := by
  rcases List.append_eq_append_iff.1 h with ⟨b, rfl, rfl⟩ | ⟨b, rfl, hb⟩
  · exact ⟨b, rfl⟩
  · rcases b with _ | ⟨y, b⟩
    · exact ⟨[], hb.symm⟩
    · have hy : x = y := (List.cons.inj hb).1
      exact absurd (by simp [hy]) ha

/-- The last character and the newline after it are copied. -/
theorem Squeeze.close {x : WChar} (hx : ¬ (x = nl ∨ x = c)) (h : Squeeze c s w) :
    ∀ {p : WStr}, s = p ++ [x, nl] → ∃ q, w = q ++ [x, nl] := by
  have hxn : x ≠ nl := fun h => hx (Or.inl h)
  have hxc : x ≠ c := fun h => hx (Or.inr h)
  induction h with
  | nil => intro p h; simp at h
  | @blank t w _ ih =>
    intro p heq
    obtain ⟨p', hp'⟩ := suffix_close (a := [nl]) (by simpa using hxn) heq
    exact ih hp'
  | @newline t w _ _ ih =>
    intro p heq
    obtain ⟨p', hp'⟩ := suffix_close (a := [nl]) (by simpa using hxn) heq
    obtain ⟨q, rfl⟩ := ih hp'
    exact ⟨nl :: q, rfl⟩
  | @char y t w hy _ ht ih =>
    intro p heq
    rcases p with _ | ⟨z, p⟩
    · -- only the newline is left
      obtain ⟨rfl, rfl⟩ := List.cons.inj heq
      rcases ht.inv with ⟨h1, -⟩ | ⟨t', h1, -⟩ | ⟨t', w', h1, rfl, -, h2⟩ | ⟨z, t', w', h1, -, h2, -⟩ |
        ⟨m, j, r, h1, hm, -⟩
      · cases h1
      · cases h1
      · obtain rfl : t' = [] := (List.cons.inj h1).2.symm
        obtain rfl := List.sublist_nil.1 h2.sublist
        exact ⟨[], rfl⟩
      · exact absurd (List.cons.inj h1).1.symm h2
      · have hlen := congrArg List.length h1
        simp only [List.length_cons, List.length_nil, List.length_append, List.length_replicate] at hlen
        omega
    · obtain ⟨q, rfl⟩ := ih (List.cons.inj heq).2
      exact ⟨y :: q, rfl⟩
  | @run m j r w _ _ _ ih =>
    intro p heq
    have hsplit : (List.replicate m c ++ nl :: List.replicate j nl) ++ r = p ++ [x, nl] := by
      rw [← heq]
      simp
    obtain ⟨p', hp'⟩ := suffix_close (by simp [hxn, hxc]) hsplit
    exact ih hp'

/-- **Squeezing leaves no empty line**, but at the start. -/
theorem Squeeze.no_empty_line (h : Squeeze c s w) :
    (∀ l ∈ (lines nl w).tail, l ≠ []) ∧ (s.head? ≠ some nl → ∀ l ∈ lines nl w, l ≠ []) := by
  induction h with
  | nil => simp
  | blank _ ih => exact ⟨ih.1, fun h => absurd rfl h⟩
  | newline ht _ ih =>
    refine ⟨?_, fun h => absurd rfl h⟩
    rw [lines_sep_cons, List.tail_cons]
    exact ih.2 ht
  | char hx _ _ ih =>
    rw [lines_cons hx]
    refine ⟨ih.1, fun _ => ?_⟩
    simpa using ih.1
  | run _ hr _ ih =>
    have hall := ih.2 hr
    exact ⟨fun l hl => hall l (List.mem_of_mem_tail hl), fun _ => hall⟩

/-- **The post-processing of a text** with a character to keep, and a newline at its end: the text is
cut after the last such character and squeezed. -/
theorem postProcess_squeeze {p y : WStr} {x : WChar} (hx : ¬ (x = nl ∨ x = c))
    (hy : ∀ z ∈ y, z = nl ∨ z = c) :
    ∃ w out, Squeeze c (p ++ [x, nl]) w ∧ Ended c (p ++ [x, nl]) ∧
      postProcess c (p ++ x :: (y ++ [nl])) = .ok out ∧ lines nl out = lines nl w := by
  have hy' : ∀ z ∈ y ++ [nl], z = nl ∨ z = c := by
    intro z hz
    rcases List.mem_append.1 hz with hz | hz
    · exact hy z hz
    · exact Or.inl (List.mem_singleton.1 hz)
  have hchomp : pstringChomp c (p ++ x :: (y ++ [nl])) = .ok (p ++ [x, nl]) := by
    rw [chomp_split hx hy']
    rcases y with _ | ⟨z, y⟩
    · rfl
    · rw [if_pos (by simp)]
  have hend := chomp_ended hchomp
  obtain ⟨w, out, hw, hout, hcut⟩ := compress_squeeze hend
  refine ⟨w, out, hw, hend, by rw [postProcess, hchomp]; exact hout, ?_⟩
  obtain ⟨q, rfl⟩ := hw.close hx rfl
  rcases hcut with rfl | rfl
  · rfl
  · have hlast : (q ++ [x, nl]).dropLast = q ++ [x] := by
      rw [List.dropLast_append_of_ne_nil (by simp)]
      rfl
    rw [hlast, lines_close fun h => hx (Or.inl h)]

/-- A line that is not blank: its stem, and the `c` at its end. -/
theorem nonblank_split (h : nonblank c l = true) : ∃ a z k, l = a ++ [z] ++ List.replicate k c ∧ z ≠ c := by
  obtain ⟨u, k, rfl, hu⟩ := line_split (c := c) l
  rcases hu with rfl | ⟨a, z, rfl, hz⟩
  · simp [nonblank] at h
  · exact ⟨a, z, k, rfl, hz⟩

theorem head_append_cons (p : WStr) (x : WChar) (y y' : WStr) : (p ++ x :: y).head? = (p ++ x :: y').head? := by
  cases p <;> rfl

/-- The last line that is not blank decides where the text is cut: the lines after it go, and the
lines before it are exposed as they were. -/
theorem exposed_cut {pre post : List WStr} {p q : WStr} (hp : nonblank c p = true) (hq : nonblank c q = true)
    (hpost : ∀ l ∈ post, nonblank c l = false) :
    exposed c false false (pre ++ p :: post) = exposed c true false (pre ++ [q]) := by
  have hne : ∀ l, nonblank c l = true → l ≠ [c] := by
    rintro l hl rfl
    simp [nonblank] at hl
  have hlater : ((p :: post).any (nonblank c) || false) = ([q].any (nonblank c) || true) := by simp [hp]
  have hlast : ∀ joined, exposed c false joined (p :: post) = false := by
    intro joined
    rw [exposed, exposed_blank _ hpost]
    simp [hne p hp]
  have hlast' : ∀ joined, exposed c true joined [q] = false := by
    intro joined
    simp [exposed, hne q hq]
  rw [exposed_append, exposed_append, hlater, hlast, hlast']

/-- After the stem of a line there are only characters to remove, when the lines after it are blank. -/
theorem unlines_cut (pre : List WStr) {post : List WStr} (a : WStr) (z : WChar) (k : Nat)
    (hpost : ∀ l ∈ post, nonblank c l = false) :
    ∃ y, unlines nl (pre ++ (a ++ [z] ++ List.replicate k c) :: post) =
      (unlines nl pre ++ a) ++ z :: (y ++ [nl]) ∧
      ∀ x ∈ y, x = nl ∨ x = c := by
  obtain ⟨y, hy⟩ : ∃ y, List.replicate k c ++ nl :: unlines nl post = y ++ [nl] := by
    rcases unlines_last post with h0 | ⟨q, hq⟩
    · exact ⟨List.replicate k c, by rw [h0]⟩
    · exact ⟨List.replicate k c ++ nl :: q, by rw [hq]; simp⟩
  refine ⟨y, ?_, ?_⟩
  · rw [← hy, unlines_append]
    simp [unlines]
  · intro x hx
    have hmem : x ∈ List.replicate k c ++ nl :: unlines nl post := by
      rw [hy]
      exact List.mem_append_left _ hx
    simp only [List.mem_append, List.mem_replicate, List.mem_cons, unlines, List.mem_flatMap,
      List.not_mem_nil, or_false] at hmem
    rcases hmem with ⟨-, rfl⟩ | rfl | ⟨l, hl, hx | rfl⟩
    · exact Or.inr rfl
    · exact Or.inl rfl
    · have hblank := hpost l hl
      simp only [nonblank, List.any_eq_false, decide_eq_true_eq, not_not] at hblank
      exact Or.inr (hblank x hx)
    · exact Or.inl rfl

/-- **What is shown of a text of lines** has no blank line exactly when no line is exposed. -/
theorem postProcess_lines (hc : c ≠ nl) (hnl : ∀ l ∈ ls, nl ∉ l) (hhead : (unlines nl ls).head? ≠ some nl)
    (h : ∃ l ∈ ls, nonblank c l = true) :
    ∃ out, postProcess c (unlines nl ls) = .ok out ∧
      ((∀ l ∈ lines nl out, nonblank c l = true) ↔ exposed c false false ls = false) := by
  -- the last line that is not blank, and its stem
  obtain ⟨pre, p, post, rfl, hp, hpost⟩ := last_of h
  have hpost' : ∀ l ∈ post, nonblank c l = false := by simpa using hpost
  obtain ⟨a, z, k, rfl, hz⟩ := nonblank_split hp
  have hline : nl ∉ a ++ [z] ++ List.replicate k c := hnl _ (by simp)
  have hstem : nl ∉ a ++ [z] := fun h => hline (List.mem_append_left _ h)
  have hzn : z ≠ nl := by
    rintro rfl
    exact hstem (by simp)
  obtain ⟨y, htext, hy⟩ := unlines_cut pre a z k hpost'
  rw [htext] at hhead ⊢
  obtain ⟨w, out, hw, hend, hout, hshown⟩ := postProcess_squeeze (not_or.2 ⟨hzn, hz⟩) hy
  refine ⟨out, hout, ?_⟩
  -- the lines that are squeezed
  have hlines : lines nl ((unlines nl pre ++ a) ++ [z, nl]) = pre ++ [a ++ [z]] := by
    have hkept : (unlines nl pre ++ a) ++ [z, nl] = unlines nl (pre ++ [a ++ [z]]) := by
      rw [unlines_append]
      simp [unlines]
    rw [hkept, lines_unlines]
    intro l hl
    rcases List.mem_append.1 hl with hl | hl
    · exact hnl l (List.mem_append_left _ hl)
    · rw [List.mem_singleton.1 hl]
      exact hstem
  rw [head_append_cons _ _ _ [nl]] at hhead
  have hq : nonblank c (a ++ [z]) = true := by simp [nonblank, hz]
  have hsq := squeezeLines_nonblank (c := c) (pre ++ [a ++ [z]]) false
  rw [hshown, squeeze_lines hc _ (Nat.le_refl _) hhead hend hw, hlines, exposed_cut hp hq hpost']
  simpa using hsq

/-- With newlines for indent characters, no line that is shown is blank. -/
theorem postProcess_newlines {t : WStr} (hhead : t.head? ≠ some nl) (hlast : ∃ q, t = q ++ [nl])
    (h : ∃ x ∈ t, x ≠ nl) :
    ∃ out, postProcess nl t = .ok out ∧ ∀ l ∈ lines nl out, nonblank nl l = true := by
  obtain ⟨p, x, y, rfl, hx, hy⟩ := last_of h
  obtain ⟨q, hq⟩ := hlast
  obtain ⟨y', rfl⟩ : ∃ y', y = y' ++ [nl] := by
    rcases List.eq_nil_or_concat' y with rfl | ⟨y', z, rfl⟩
    · exact absurd (by simpa using (List.append_inj' hq rfl).2) hx
    · exact ⟨y', by rw [not_not.1 (hy z (by simp))]⟩
  obtain ⟨w, out, hw, -, hout, hshown⟩ := postProcess_squeeze (c := nl) (p := p) (x := x) (y := y')
    (by simpa using hx)
    fun z hz => Or.inl (not_not.1 (hy z (List.mem_append_left _ hz)))
  refine ⟨out, hout, ?_⟩
  rw [head_append_cons _ _ _ [nl]] at hhead
  rw [hshown]
  intro l hl
  have hne := hw.no_empty_line.2 hhead l hl
  have hnl := sep_notMem_of_mem_lines hl
  obtain ⟨z, l, rfl⟩ := List.exists_cons_of_ne_nil hne
  have hz : z ≠ nl := by
    rintro rfl
    exact hnl List.mem_cons_self
  simp [nonblank, hz]

/-! ## The lines of a document -/

variable {cfg : Config}

/-- The line that closes a group. An empty group has none. -/
def closingLines (cfg : Config) (depth : Nat) : (kids : Calls) → List WStr
  | .nil => []
  | _ => [lineAt cfg depth []]

/-- **The lines of a call tree**: those of the entries, more than one where the separator has newlines,
and those of the openings and closings of groups. -/
def Calls.layout (cfg : Config) (depth : Nat) : Calls → List WStr
  | .nil => []
  | .entry name value next =>
    lines nl (lineAt cfg depth (cfg.wideName name ++ (cfg.sepText ++ value)) ++ [nl]) ++ next.layout cfg depth
  | .group g kids next =>
    lineAt cfg depth (cfg.wideName g.name ++ lit ":") ::
      (kids.layout cfg (depth + 1) ++ (closingLines cfg depth kids ++ next.layout cfg depth))

/-- Whether the closing of a group is exposed in a call tree, with a call after it in the tree or `later`. -/
def Calls.exposes (cfg : Config) (later : Bool) (depth : Nat) : Calls → Bool
  | .nil => false
  | .entry _ _ next => next.exposes cfg later depth
  | .group _ kids next =>
    decide (depth = 1 ∧ cfg.indentAmount = 1 ∧ kids ≠ .nil) && (decide (next ≠ .nil) || later) &&
        !(kids.render cfg (depth + 1)).getLast?.any (Frayed cfg.indentUnit ·) ||
      (kids.exposes cfg (decide (next ≠ .nil) || later) (depth + 1) || next.exposes cfg later depth)

section Document

variable (hf : cfg.outputFormat = .text)

include hf

/-- The closing of a group adds its line, if there is one. -/
theorem closeLine_layout {depth : Nat} {k : Int}
    (hind : indentText cfg k = List.replicate (depth * cfg.indentAmount.toNat) cfg.indentUnit) {kids : Calls}
    (hkids : callsText cfg .opened k kids ++ [nl] = nl :: unlines nl ls) :
    callsText cfg .opened k kids ++ closeLine cfg k kids ++ [nl] =
      nl :: unlines nl (ls ++ closingLines cfg depth kids) := by
  have hlast : unlines nl [lineAt cfg depth []] = indentText cfg k ++ [nl] := by
    rw [hind]
    simp [unlines, lineAt]
  have hclosing : callsText cfg .opened k kids ++ ([nl] ++ indentText cfg k) ++ [nl] =
      nl :: unlines nl (ls ++ [lineAt cfg depth []]) := by
    rw [unlines_append, hlast, ← List.cons_append, ← hkids]
    simp
  cases kids with
  | nil =>
    have hempty : closeLine cfg k .nil = [] := by simp [closeLine, emptyLine, hf]
    rw [hempty, List.append_nil, hkids]
    simp [closingLines]
  | entry name value next => exact hclosing
  | group g kids next => exact hclosing

/-- **The text of a call tree is its lines**, on a new line. -/
theorem callsText_layout (ha : 0 ≤ cfg.indentAmount) (c : Calls) : c.Textual cfg →
    ∀ pos {k} depth, pos ≠ .fresh → kidIndent cfg pos k = (depth : Nat) * cfg.indentAmount →
      callsText cfg pos k c ++ [nl] = nl :: unlines nl (c.layout cfg depth) := by
  induction c with
  | nil =>
    intro _ pos k depth _ _
    rfl
  | entry name value next ih =>
    intro htree pos k depth hpos hk
    obtain ⟨he, -, htn⟩ := htree.entry
    have hnext := ih htn .after (k := kidIndent cfg pos k) depth (by decide) (by simpa [kidIndent] using hk)
    have hline : indentText cfg (kidIndent cfg pos k) ++ (cfg.wideName name ++ (cfg.sepText ++ value)) =
        lineAt cfg depth (cfg.wideName name ++ (cfg.sepText ++ value)) := by
      rw [indentText_depth ha hk]
      rfl
    calc callsText cfg pos k (.entry name value next) ++ [nl]
        = nl :: ((indentText cfg (kidIndent cfg pos k) ++ (cfg.wideName name ++ (cfg.sepText ++ value))) ++
            (callsText cfg .after (kidIndent cfg pos k) next ++ [nl])) := by
          simp [callsText, leadText_text hf hpos, entryText_text hf he]
      _ = nl :: unlines nl ((Calls.entry name value next).layout cfg depth) := by
          rw [hline, hnext, Calls.layout, unlines_append, unlines_lines_close]
          simp
  | group g kids next ihk ihn =>
    intro htree pos k depth hpos hk
    obtain ⟨hopen, hend, -, htk, htn⟩ := htree.group hf
    have hnext := ihn htn .after (k := kidIndent cfg pos k) depth (by decide) (by simpa [kidIndent] using hk)
    have hkids := ihk htk .opened (k := kidIndent cfg pos k) (depth + 1) (by decide)
      (by rw [hk, kidIndent, if_pos rfl, Int.natCast_succ, Int.add_mul, Int.one_mul])
    have hind := indentText_depth ha hk
    have hline : indentText cfg (kidIndent cfg pos k) ++ (cfg.wideName g.name ++ lit ":") =
        lineAt cfg depth (cfg.wideName g.name ++ lit ":") := by
      rw [hind]
      rfl
    have hgroup := closeLine_layout hf hind hkids
    calc callsText cfg pos k (.group g kids next) ++ [nl]
        = nl :: ((indentText cfg (kidIndent cfg pos k) ++ (cfg.wideName g.name ++ lit ":")) ++
            (callsText cfg .opened (kidIndent cfg pos k) kids ++ closeLine cfg (kidIndent cfg pos k) kids ++
              (callsText cfg .after (kidIndent cfg pos k) next ++ [nl]))) := by
          simp [callsText, leadText_text hf hpos, hopen, hend]
      _ = nl :: (lineAt cfg depth (cfg.wideName g.name ++ lit ":") ++
            ((callsText cfg .opened (kidIndent cfg pos k) kids ++
              closeLine cfg (kidIndent cfg pos k) kids ++ [nl]) ++
              unlines nl (next.layout cfg depth))) := by
          rw [hline, hnext]
          simp
      _ = nl :: unlines nl ((Calls.group g kids next).layout cfg depth) := by
          rw [hgroup]
          simp [Calls.layout, unlines]

/-- **The document of a call tree is its lines**, and it starts with a name. -/
theorem document_layout (ha : 0 ≤ cfg.indentAmount) {c : Calls} (hc : c ≠ .nil) (htree : c.Textual cfg) :
    callsText cfg .fresh 0 c ++ [nl] = unlines nl (c.layout cfg 0) ∧
      ∃ name rest, unlines nl (c.layout cfg 0) = cfg.wideName name ++ rest ∧ GoodName cfg name := by
  have hafter := callsText_layout hf ha c htree .after (k := 0) 0 (by decide) (by simp [kidIndent])
  -- the first call has no newline before it
  have hlead : leadText cfg .after 0 = nl :: leadText cfg .fresh 0 := leadText_text hf (by decide) 0
  have hstart : callsText cfg .after 0 c = nl :: callsText cfg .fresh 0 c := by
    cases c with
    | nil => exact absurd rfl hc
    | entry name value next => simp only [callsText, hlead, List.cons_append]; rfl
    | group g kids next => simp only [callsText, hlead, List.cons_append]; rfl
  have hdoc : callsText cfg .fresh 0 c ++ [nl] = unlines nl (c.layout cfg 0) := by
    rw [hstart, List.cons_append] at hafter
    exact (List.cons.inj hafter).2
  refine ⟨hdoc, ?_⟩
  rw [← hdoc]
  have hfirst : leadText cfg .fresh 0 = [] := indentText_zero
  cases c with
  | nil => exact absurd rfl hc
  | entry name value next =>
    obtain ⟨he, ho, -⟩ := htree.entry
    refine ⟨name, cfg.sepText ++ value ++ callsText cfg .after (kidIndent cfg .fresh 0) next ++ [nl], ?_, ho.1⟩
    simp [callsText, hfirst, entryText_text hf he]
  | group g kids next =>
    obtain ⟨hopen, -, hname, -, -⟩ := htree.group hf
    have hk : kidIndent cfg .fresh 0 = 0 := rfl
    refine ⟨g.name, lit ":" ++ callsText cfg .opened 0 kids ++ closeLine cfg 0 kids ++ endText cfg g ++
      callsText cfg .after 0 next ++ [nl], ?_, hname⟩
    simp [callsText, hfirst, hopen, hk]

/-- No line of a call tree has a newline. -/
theorem layout_plain (hu : cfg.indentUnit ≠ nl) (c : Calls) : ∀ depth, c.Textual cfg →
    ∀ l ∈ c.layout cfg depth, nl ∉ l := by
  induction c with
  | nil => intro depth _ l hl; cases hl
  | entry name value next ih =>
    intro depth htree l hl
    rcases List.mem_append.1 hl with hl | hl
    · exact sep_notMem_of_mem_lines hl
    · exact ih depth htree.entry.2.2 l hl
  | group g kids next ihk ihn =>
    intro depth htree l hl
    obtain ⟨-, -, hname, htk, htn⟩ := htree.group hf
    have hcolon : nl ∉ lit ":" := by decide
    simp only [Calls.layout, List.mem_cons, List.mem_append] at hl
    rcases hl with rfl | hl | hl | hl
    · exact lineAt_plain hu depth (by simp [hname.1, hcolon])
    · exact ihk _ htk l hl
    · cases kids with
      | nil => cases hl
      | entry name value next => rw [List.mem_singleton.1 hl]; exact lineAt_plain hu depth (by simp)
      | group g kids next => rw [List.mem_singleton.1 hl]; exact lineAt_plain hu depth (by simp)
    · exact ihn depth htn l hl

end Document

/-! ## Exposed closings -/

theorem exposed_cons (hl : l ≠ [c]) (later joined : Bool) :
    exposed c later joined (l :: ls) = exposed c later (joins c joined l) ls := by
  simp [exposed, hl]

theorem not_blank_of_nonblank (h : nonblank c l = true) : ¬ Blank c l := by
  obtain ⟨x, hx, hxc⟩ := List.any_eq_true.1 h
  exact fun hb => by simp [hb.all x hx] at hxc

theorem ne_single_of_nonblank (h : nonblank c l = true) : l ≠ [c] := by
  rintro rfl
  simp [nonblank] at h

/-- The lines that go have no part in the joins. -/
theorem foldl_joins_filter (ls : List WStr) (joined : Bool) :
    ls.foldl (joins c) joined = (ls.filter (keeps c)).foldl (joins c) joined := by
  induction ls generalizing joined with
  | nil => rfl
  | cons l ls ih =>
    by_cases hb : Blank c l
    · rw [List.filter_cons_of_neg (by simp [keeps, hb]), List.foldl_cons, ih]
      simp [joins, hb]
    · rw [List.filter_cons_of_pos (by simp [keeps, hb]), List.foldl_cons, List.foldl_cons, ih]

/-- Of lines that are kept it is the last one that takes the next line with it, or not. -/
theorem foldl_joins_last (h : ∀ l ∈ ls, nonblank c l = true) (hne : ls ≠ []) (joined : Bool) :
    ls.foldl (joins c) joined = ls.getLast?.any (Frayed c ·) := by
  obtain ⟨ls', l, rfl⟩ := (List.eq_nil_or_concat' ls).resolve_left hne
  have hb := not_blank_of_nonblank (h l (by simp))
  rw [List.foldl_append]
  simp [joins, hb]

/-- The line of an entry, when the separator has no newline. -/
theorem entry_lines (hu : cfg.indentUnit ≠ nl) (hsep : nl ∉ cfg.sepText) {name : MbStr} {value : WStr}
    (ho : (Event.entry name value).OneLine cfg) (depth : Nat) :
    lines nl (lineAt cfg depth (cfg.wideName name ++ (cfg.sepText ++ value)) ++ [nl]) =
      [lineAt cfg depth (cfg.wideName name ++ (cfg.sepText ++ value))] := by
  have hplain : nl ∉ cfg.wideName name ++ (cfg.sepText ++ value) := by simp [ho.1.1, hsep, ho.2]
  rw [lines_append_sep (lineAt_plain hu depth hplain)]
  rfl

theorem closingLines_of_ne {kids : Calls} (h : kids ≠ .nil) (depth : Nat) :
    closingLines cfg depth kids = [lineAt cfg depth []] := by
  cases kids with
  | nil => exact absurd rfl h
  | entry name value next => rfl
  | group g kids next => rfl

theorem closing_blank (depth : Nat) : nonblank cfg.indentUnit (lineAt cfg depth []) = false := by
  simp [nonblank, lineAt]

section Tree

variable (hf : cfg.outputFormat = .text)

include hf

theorem render_nonblank (c : Calls) : ∀ depth, c.Textual cfg →
    ∀ l ∈ c.render cfg depth, nonblank cfg.indentUnit l = true := by
  induction c with
  | nil => intro depth _ l hl; cases hl
  | entry name value next ih =>
    intro depth htree l hl
    obtain ⟨-, ho, htn⟩ := htree.entry
    rcases List.mem_cons.1 hl with rfl | hl
    · rw [List.append_assoc]
      exact lineAt_nonblank ho.1 depth _
    · exact ih depth htn l hl
  | group g kids next ihk ihn =>
    intro depth htree l hl
    obtain ⟨-, -, hname, htk, htn⟩ := htree.group hf
    simp only [Calls.render, List.mem_cons, List.mem_append] at hl
    rcases hl with rfl | hl | hl
    · exact lineAt_nonblank hname depth _
    · exact ihk _ htk l hl
    · exact ihn depth htn l hl

variable (hu : cfg.indentUnit ≠ nl) (hsep : nl ∉ cfg.sepText)

include hu hsep

/-- A text that has a call has a line that is not blank. -/
theorem layout_nonblank {c : Calls} (htree : c.Textual cfg) (depth : Nat) :
    (c.layout cfg depth).any (nonblank cfg.indentUnit) = decide (c ≠ .nil) := by
  cases c with
  | nil => rfl
  | entry name value next =>
    have ho := htree.entry.2.1
    have hline := lineAt_nonblank ho.1 depth (cfg.sepText ++ value)
    rw [Calls.layout, entry_lines hu hsep ho]
    simp [hline]
  | group g kids next =>
    obtain ⟨-, -, hname, -, -⟩ := htree.group hf
    have hline := lineAt_nonblank hname depth (lit ":")
    rw [Calls.layout]
    simp [hline]

/-- Below depth one the closings go, and what is kept is the rendering. -/
theorem layout_keeps (ha : 1 ≤ cfg.indentAmount) (c : Calls) : ∀ depth, 2 ≤ depth → c.Textual cfg →
    (c.layout cfg depth).filter (keeps cfg.indentUnit) = c.render cfg depth := by
  have hkeeps : ∀ l, nonblank cfg.indentUnit l = true → keeps cfg.indentUnit l = true := fun l hl => by
    simpa [keeps] using not_blank_of_nonblank hl
  induction c with
  | nil => intro depth _ _; rfl
  | entry name value next ih =>
    intro depth hdepth htree
    obtain ⟨-, ho, htn⟩ := htree.entry
    have hline := hkeeps _ (lineAt_nonblank ho.1 depth (cfg.sepText ++ value))
    have hnext := ih depth hdepth htn
    rw [Calls.layout, entry_lines hu hsep ho, List.filter_append, hnext, Calls.render, List.append_assoc]
    simp [hline]
  | group g kids next ihk ihn =>
    intro depth hdepth htree
    obtain ⟨-, -, hname, htk, htn⟩ := htree.group hf
    have hline := hkeeps _ (lineAt_nonblank hname depth (lit ":"))
    have hkids := ihk (depth + 1) (by omega) htk
    have hnext := ihn depth hdepth htn
    have hclosing : (closingLines cfg depth kids).filter (keeps cfg.indentUnit) = [] := by
      by_cases hnil : kids = .nil
      · rw [hnil]
        rfl
      · have hwide : 2 * 1 ≤ depth * cfg.indentAmount.toNat := Nat.mul_le_mul hdepth (by omega)
        have hb : Blank cfg.indentUnit (lineAt cfg depth []) := by
          refine Or.inr ⟨?_, ?_⟩
          · simpa [lineAt] using hwide
          · simp [lineAt]
        rw [closingLines_of_ne hnil]
        simp [keeps, hb]
    rw [Calls.layout, List.filter_cons_of_pos hline, List.filter_append, List.filter_append,
      hkids, hclosing, hnext, List.nil_append]
    rfl

/-- **The lines that are exposed**, where the separator has no newline: the closings at depth one of
groups that are not empty, when the indent is by one character, a call comes later, and the last line
of the group is not frayed. -/
theorem exposed_layout (ha : 1 ≤ cfg.indentAmount) (c : Calls) :
    ∀ later joined depth, c.Textual cfg →
      exposed cfg.indentUnit later joined (c.layout cfg depth) = c.exposes cfg later depth := by
  induction c with
  | nil => intro later joined depth _; rfl
  | entry name value next ih =>
    intro later joined depth htree
    obtain ⟨-, ho, htn⟩ := htree.entry
    have hline := ne_single_of_nonblank (lineAt_nonblank ho.1 depth (cfg.sepText ++ value))
    rw [Calls.layout, entry_lines hu hsep ho, List.singleton_append, exposed_cons hline, Calls.exposes]
    exact ih _ _ _ htn
  | group g kids next ihk ihn =>
    intro later joined depth htree
    obtain ⟨-, -, hname, htk, htn⟩ := htree.group hf
    have hline := ne_single_of_nonblank (lineAt_nonblank hname depth (lit ":"))
    have hlater := layout_nonblank hf hu hsep htn depth
    have hnext := fun joined => ihn later joined depth htn
    by_cases hnil : kids = .nil
    · subst hnil
      rw [Calls.layout, exposed_cons hline]
      simp [Calls.layout, closingLines, Calls.exposes, hnext]
    rw [Calls.layout, exposed_cons hline, exposed_append, ihk _ _ _ htk, closingLines_of_ne hnil,
      List.singleton_append, List.any_cons, closing_blank, Bool.false_or, hlater, exposed, hnext, hlater]
    by_cases hd : depth = 1 ∧ cfg.indentAmount = 1
    · -- the line of one indent character, after the calls of the group
      obtain ⟨rfl, ha1⟩ := hd
      have hone1 : lineAt cfg 1 [] = [cfg.indentUnit] := by simp [lineAt, ha1]
      have hlast : ∀ joined, (kids.layout cfg (1 + 1)).foldl (joins cfg.indentUnit) joined =
          (kids.render cfg (1 + 1)).getLast?.any (Frayed cfg.indentUnit ·) := by
        intro joined
        have hne : kids.render cfg (1 + 1) ≠ [] := by
          cases kids with
          | nil => exact absurd rfl hnil
          | entry name value next => exact List.cons_ne_nil _ _
          | group g kids next => exact List.cons_ne_nil _ _
        rw [foldl_joins_filter, layout_keeps hf hu hsep ha kids _ (by decide) htk]
        exact foldl_joins_last (render_nonblank hf kids _ htk) hne joined
      rw [hlast, hone1, Calls.exposes]
      simp only [ha1]
      cases kids.exposes cfg (decide (next ≠ .nil) || later) (1 + 1) <;>
        cases (kids.render cfg (1 + 1)).getLast?.any (Frayed cfg.indentUnit ·) <;> simp [hnil]
    · have hclose : lineAt cfg depth [] ≠ [cfg.indentUnit] := by
        intro h
        have hlen : depth * cfg.indentAmount.toNat = 1 := by simpa [lineAt] using congrArg List.length h
        have h1 := Nat.eq_one_of_mul_eq_one_right hlen
        have h2 := Nat.eq_one_of_mul_eq_one_left hlen
        exact hd ⟨h1, by omega⟩
      have hd' : ¬ (depth = 1 ∧ cfg.indentAmount = 1 ∧ kids ≠ .nil) := fun h => hd ⟨h.1, h.2.1⟩
      rw [Calls.exposes]
      simp [hclose, hd']

end Tree

/-! ## The output -/

/-- A text that starts with the name of a call: no newline comes first, and there is a character that
is neither a newline nor the indent character. -/
theorem GoodName.starts {name : MbStr} (h : GoodName cfg name) (rest : WStr) :
    (cfg.wideName name ++ rest).head? ≠ some nl ∧
      ∃ x ∈ cfg.wideName name ++ rest, x ≠ nl ∧ x ≠ cfg.indentUnit := by
  obtain ⟨hplain, hnb⟩ := h
  constructor
  · cases hw : cfg.wideName name with
    | nil => simp [hw, nonblank] at hnb
    | cons x w =>
      rw [hw] at hplain
      simp only [List.cons_append, List.head?_cons, ne_eq, Option.some.injEq]
      rintro rfl
      exact hplain List.mem_cons_self
  · obtain ⟨x, hx, hxu⟩ : ∃ x ∈ cfg.wideName name, x ≠ cfg.indentUnit := by simpa [nonblank] using hnb
    refine ⟨x, List.mem_append_left _ hx, ?_, hxu⟩
    rintro rfl
    exact hplain hx

/-- The output has no blank line when there is a call, and no line is exposed. -/
theorem shownText_exposed (hf : cfg.outputFormat = .text) (ha : 1 ≤ cfg.indentAmount)
    (hu : cfg.indentUnit = cfg.wideIndentChar)
    (hdec : (cfg.locale.mbsrtowcs cfg.textSeparator).isSome) {c : Calls} (htree : c.Textual cfg)
    {es : List Event} (hes : eraseObjects es = c.events) :
    (∃ out, shownText cfg es = .ok out ∧ ∀ l ∈ lines nl out, nonblank cfg.wideIndentChar l = true) ↔
      c ≠ .nil ∧ (cfg.wideIndentChar = nl ∨ exposed cfg.wideIndentChar false false (c.layout cfg 0) = false) := by
  have ha' : 0 ≤ cfg.indentAmount := by omega
  obtain ⟨s, hs, -, hs'⟩ := run_text hf ha' hdec htree.fits htree.encodable hes
  rw [shownText_run (Or.inl hf) ha' hs, hs', ← hu]
  by_cases hc : c = .nil
  · -- the newline of the footer is an empty line
    subst hc
    have hempty : callsText cfg .fresh 0 .nil ++ [nl] = [nl] := rfl
    rw [hempty, postProcess_nl]
    simp [nonblank]
  obtain ⟨hdoc, name, rest, hname, hgood⟩ := document_layout hf ha' hc htree
  obtain ⟨hhead, x, hx, hxn, hxu⟩ := hgood.starts rest
  rw [← hname] at hhead hx
  rw [hdoc]
  by_cases hun : cfg.indentUnit = nl
  · obtain ⟨out, hout, hall⟩ := postProcess_newlines hhead ⟨_, hdoc.symm⟩ ⟨x, hx, hxn⟩
    rw [hun]
    exact ⟨fun _ => ⟨hc, Or.inl rfl⟩, fun _ => ⟨out, hout, hall⟩⟩
  · have hline : ∃ l ∈ c.layout cfg 0, nonblank cfg.indentUnit l = true := by
      obtain ⟨l, hl, hxl⟩ := List.mem_flatMap.1 hx
      refine ⟨l, hl, List.any_eq_true.2 ⟨x, ?_, by simpa using hxu⟩⟩
      simpa [hxn] using hxl
    obtain ⟨out, hout, hall⟩ := postProcess_lines hun (layout_plain hf hun c 0 htree) hhead hline
    constructor
    · rintro ⟨out', hout', hlines⟩
      obtain rfl : out = out' := Except.ok.inj (hout.symm.trans hout')
      exact ⟨hc, Or.inr (hall.1 hlines)⟩
    · rintro ⟨-, hexp⟩
      exact ⟨out, hout, hall.2 (hexp.resolve_left hun)⟩

theorem exposes_wide (ha : cfg.indentAmount ≠ 1) (c : Calls) :
    ∀ later depth, c.exposes cfg later depth = false := by
  induction c with
  | nil => intro later depth; rfl
  | entry name value next ih => intro later depth; exact ih later depth
  | group g kids next ihk ihn =>
    intro later depth
    rw [Calls.exposes, ihk, ihn]
    simp [ha]

/-- **With an indent of two or more the output has no blank line**, for every separator without a newline. -/
theorem shownText_wide (hf : cfg.outputFormat = .text) (ha : 2 ≤ cfg.indentAmount)
    (hu : cfg.indentUnit = cfg.wideIndentChar) (hdec : (cfg.locale.mbsrtowcs cfg.textSeparator).isSome)
    (hsep : nl ∉ cfg.sepText) {c : Calls} (hc : c ≠ .nil) (htree : c.Textual cfg)
    {es : List Event} (hes : eraseObjects es = c.events) :
    ∃ out, shownText cfg es = .ok out ∧ ∀ l ∈ lines nl out, nonblank cfg.wideIndentChar l = true := by
  have h := shownText_exposed hf (by omega) hu hdec htree hes
  refine h.2 ⟨hc, ?_⟩
  by_cases hun : cfg.indentUnit = nl
  · exact Or.inl (hu ▸ hun)
  · have hexp := exposed_layout hf hun hsep (by omega) c false false 0 htree
    rw [exposes_wide (by omega), hu] at hexp
    exact Or.inr hexp

/-- **The output in text format has no blank line** exactly when there is a call, and either the indent
character is the newline or no line of one indent character is exposed. Where the separator has no
newline, those are the closings of `Calls.exposes`. -/
theorem shownText_nonblank (hf : cfg.outputFormat = .text) (ha : 1 ≤ cfg.indentAmount)
    (hu : cfg.indentUnit = cfg.wideIndentChar)
    (hdec : (cfg.locale.mbsrtowcs cfg.textSeparator).isSome) (c : Calls) (hfit : c.fits .text false)
    (henc : c.Encodable cfg) (hone : ∀ e ∈ c.events, e.OneLine cfg) (es : List Event)
    (hes : eraseObjects es = c.events) :
    ((∃ out, shownText cfg es = .ok out ∧ ∀ l ∈ lines nl out, nonblank cfg.wideIndentChar l = true) ↔
      c ≠ .nil ∧ (cfg.wideIndentChar = nl ∨ exposed cfg.wideIndentChar false false (c.layout cfg 0) = false)) ∧
    (nl ∉ cfg.sepText →
      ((∃ out, shownText cfg es = .ok out ∧ ∀ l ∈ lines nl out, nonblank cfg.wideIndentChar l = true) ↔
        c ≠ .nil ∧ (cfg.wideIndentChar = nl ∨ c.exposes cfg false 0 = false))) := by
  have htree : c.Textual cfg := ⟨hfit, henc, hone⟩
  have h := shownText_exposed hf ha hu hdec htree hes
  refine ⟨h, fun hsep => ?_⟩
  rw [h, ← hu]
  by_cases hun : cfg.indentUnit = nl
  · simp only [hun, true_or]
  · rw [exposed_layout hf hun hsep ha c false false 0 htree]

/-- With an indent of one, the closing of a section leaves a line of one blank. -/
theorem shownText_nonblank_single :
    let cfg : Config := { indentAmount := 1, locale := posixLocale }
    let c : Calls := .group (.sect (bytes "process"))
      (.group (.sect (bytes "user")) (.entry (bytes "uid") (lit "0") .nil)
        (.group (.sect (bytes "group")) (.entry (bytes "gid") (lit "0") .nil) .nil)) .nil
    (c.fits .text false ∧ c.Encodable cfg ∧ ∀ e ∈ c.events, e.OneLine cfg) ∧
      shownText cfg c.events = .ok (lit "process:\n user:\n  uid: 0\n \n group:\n  gid: 0\n") ∧
      ¬ ∃ out, shownText cfg c.events = .ok out ∧ ∀ l ∈ lines nl out, nonblank 0x20 l = true := by
  intro cfg c
  have h : shownText cfg c.events = .ok (lit "process:\n user:\n  uid: 0\n \n group:\n  gid: 0\n") := by decide
  refine ⟨⟨by decide, by decide, by decide⟩, h, ?_⟩
  rintro ⟨out, hout, hall⟩
  rw [h, Except.ok.injEq] at hout
  rw [← hout] at hall
  exact absurd hall (by decide)

/-- With an indent of one, a value that ends in two blanks takes the closing with it. -/
theorem shownText_nonblank_frayed :
    let cfg : Config := { indentAmount := 1, locale := posixLocale }
    let c : Calls := .group (.sect (bytes "process"))
      (.group (.sect (bytes "user")) (.entry (bytes "uid") (lit "0  ") .nil)
        (.group (.sect (bytes "group")) (.entry (bytes "gid") (lit "0") .nil) .nil)) .nil
    ∃ out, shownText cfg c.events = .ok out ∧ ∀ l ∈ lines nl out, nonblank 0x20 l = true := by
  intro cfg c
  have hsep : nl ∉ cfg.sepText := by decide
  have hexp : c.exposes cfg false 0 = false := by decide
  have h := (shownText_nonblank rfl (by decide) rfl (by decide) c (by decide) (by decide) (by decide) c.events
    (by decide)).2 hsep
  exact h.2 ⟨by decide, Or.inr hexp⟩

end Procenv
