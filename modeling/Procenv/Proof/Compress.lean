import Procenv.Proof.Pstring
import Mathlib.Data.List.DropRight
import Mathlib.Data.List.Induction

/-!
# The lines that `pstring_compress` keeps

A line with a character other than the remove character must survive, and an empty
line, or a line of two or more remove characters, must go (`Thinned`). The copy loop
does so unless a line that must survive ends in two remove characters (`Frayed`):
these are taken for a line of their own, and the line is joined with the next one.

* `squeezeLines`: squeezing as a function of lines, with an equation for each kind of line.
* `squeeze_lines`: squeezing a text is `squeezeLines` of its lines, from the start of a line.
* `Squeezed`: which of the lines are kept.
* `compress_lines`: **the copy loop thins the lines exactly when no line is frayed**.
-/

namespace Procenv

open Text

variable {c : WChar} {s t w l : WStr}

/-! ## Lines -/

/-- A line with a character other than `c` that ends in two `c`. -/
def Frayed (c : WChar) (l : WStr) : Prop := (∃ x ∈ l, x ≠ c) ∧ [c, c] <:+ l

/-- An empty line, or one of two or more `c`. -/
def Blank (c : WChar) (l : WStr) : Prop := l = [] ∨ (2 ≤ l.length ∧ ∀ x ∈ l, x = c)

instance : Decidable (Frayed c l) :=
  decidable_of_iff (l.any (· ≠ c) = true ∧ [c, c] <:+ l) (by simp [Frayed])

instance : Decidable (Blank c l) :=
  decidable_of_iff (l = [] ∨ (2 ≤ l.length ∧ l.all (· = c) = true)) (by simp [Blank])

/-- **The lines `ls'` are the lines `ls` without blank ones**: a line with a character other than
`c` is kept, and a blank line is kept only if it is the first one of all. -/
inductive Thinned (c : WChar) : (first : Bool) → (ls ls' : List WStr) → Prop
  | nil {first} : Thinned c first [] []
  | keep {first l ls ls'} : (first = false → ¬ Blank c l) → Thinned c false ls ls' →
      Thinned c first (l :: ls) (l :: ls')
  | drop {first l ls ls'} : (∀ x ∈ l, x = c) → Thinned c false ls ls' → Thinned c first (l :: ls) ls'

theorem replicate_of_all {l : WStr} (h : ∀ x ∈ l, x = c) : l = List.replicate l.length c :=
  List.eq_replicate_of_mem h

theorem suffix_two_replicate {m : Nat} (h : 2 ≤ m) : [c, c] <:+ List.replicate m c := by
  obtain ⟨k, rfl⟩ : ∃ k, m = k + 2 := ⟨m - 2, by omega⟩
  exact ⟨List.replicate k c, by rw [← List.replicate_append_replicate]; rfl⟩

/-- A line ends in a run of `c`, after nothing or another character. -/
theorem line_split (l : WStr) :
    ∃ u k, l = u ++ List.replicate k c ∧ (u = [] ∨ ∃ u' z, u = u' ++ [z] ∧ z ≠ c) := by
  induction l using List.reverseRecOn with
  | nil => exact ⟨[], 0, rfl, Or.inl rfl⟩
  | append_singleton l x ih =>
    by_cases hx : x = c
    · obtain ⟨u, k, rfl, hu⟩ := ih
      exact ⟨u, k + 1, by rw [List.replicate_succ', hx, List.append_assoc], hu⟩
    · exact ⟨l ++ [x], 0, by simp, Or.inr ⟨l, x, rfl, hx⟩⟩

/-- A frayed line is some text that ends in another character, and two or more `c`. -/
theorem Frayed.split (h : Frayed c l) : ∃ u z k, l = (u ++ [z]) ++ List.replicate k c ∧ z ≠ c ∧ 2 ≤ k := by
  obtain ⟨⟨x, hx, hxc⟩, hsuf⟩ := h
  obtain ⟨u, k, rfl, hu⟩ := line_split (c := c) l
  rcases hu with rfl | ⟨u', z, rfl, hz⟩
  · rw [List.nil_append] at hx
    exact absurd (List.mem_replicate.1 hx).2 hxc
  · refine ⟨u', z, k, rfl, hz, ?_⟩
    by_contra hk
    obtain ⟨q, hq⟩ := hsuf
    obtain rfl | rfl : k = 0 ∨ k = 1 := by omega
    · have := congrArg List.getLast? hq
      simp at this
      exact hz this.symm
    · have : q ++ [c] ++ [c] = u' ++ [z] ++ [c] := by simpa using hq
      have := List.append_cancel_right this
      have := congrArg List.getLast? this
      simp at this
      exact hz this.symm

/-! ## Squeezing line by line -/

/-- What stands in a run has no other character. -/
theorem mem_run {v q : WStr} {m : Nat} (hv : nl ∉ v) (h : v ++ t = List.replicate m c ++ nl :: q) :
    ∀ x ∈ v, x = c := by
  induction v generalizing m with
  | nil => simp
  | cons y v ih =>
    simp only [List.mem_cons, not_or] at hv
    rcases m with _ | m
    · exact absurd (List.cons.inj h).1.symm hv.1
    · simp only [List.replicate_succ, List.cons_append, List.cons.injEq] at h
      intro x hx
      rcases List.mem_cons.1 hx with rfl | hx
      · exact h.1
      · exact ih hv.2 h.2 x hx

/-- A line that does not end in two `c` starts no run. -/
theorem not_blankRun (hc : c ≠ nl) (hl : nl ∉ l) (h2 : ¬ [c, c] <:+ l) :
    ∀ v, v ≠ [] → v <:+ l → ¬ BlankRun c (v ++ nl :: t) := by
  rintro v - hv ⟨m, r, hm, heq⟩
  have hnv : nl ∉ v := fun h => hl (hv.mem h)
  have hall := replicate_of_all (mem_run hnv heq)
  rw [hall] at heq hv
  have := (run_unique (by simpa using hc.symm) (by simpa using hc.symm) heq).1
  exact h2 ((suffix_two_replicate (by omega)).trans hv)

/-- A text that ends in another character starts no run. -/
theorem not_blankRun_of_last {u : WStr} {z : WChar} (hz : z ≠ c) (hu : nl ∉ u ++ [z]) :
    ∀ v, v ≠ [] → v <:+ u ++ [z] → ¬ BlankRun c (v ++ t) := by
  rintro v hv hvu ⟨m, q, -, heq⟩
  rcases List.eq_nil_or_concat' v with rfl | ⟨v', y, rfl⟩
  · exact absurd rfl hv
  · have hy : y = z := by
      obtain ⟨p, hp⟩ := hvu
      rw [← List.append_assoc] at hp
      simpa using (List.append_inj' hp rfl).2
    exact hz (mem_run (fun h => hu (hvu.mem h)) heq z (by simp [hy]))

/-- The first line of a text at the start of a line, with the newlines after it. -/
theorem first_line (s : WStr) (hs : s ≠ []) :
    nl ∉ s ∨ ∃ l j r, s = l ++ nl :: (List.replicate j nl ++ r) ∧ nl ∉ l ∧ r.head? ≠ some nl := by
  by_cases hn : nl ∈ s
  · right
    obtain ⟨l, t, rfl, hl⟩ := List.eq_append_cons_of_mem hn
    obtain ⟨j, hj, hh⟩ := skipNewlines_eq (s := t)
    exact ⟨l, j, skipNewlines t, by rw [← hj], hl, hh⟩
  · exact Or.inl hn

/-- The lines that the copy loop keeps. -/
def keeps (c : WChar) (l : WStr) : Bool := decide (¬ Blank c l)

/-- The lines that must survive. -/
def survivor (c : WChar) (l : WStr) : Bool := l.any (· ≠ c)

theorem keeps_of_end (hne : l ≠ []) (h2 : ¬ [c, c] <:+ l) : keeps c l = true := by
  simp only [keeps, Blank, decide_eq_true_eq, not_or, not_and]
  refine ⟨hne, fun hlen hall => h2 ?_⟩
  rw [replicate_of_all hall]
  exact suffix_two_replicate hlen

/-- A blank line has no character that must survive. -/
theorem Blank.all (h : Blank c l) : ∀ x ∈ l, x = c := by
  rcases h with rfl | ⟨-, hall⟩
  · simp
  · exact hall

theorem Blank.not_frayed (h : Blank c l) : ¬ Frayed c l := by
  rintro ⟨⟨x, hx, hxc⟩, -⟩
  exact hxc (h.all x hx)

/-! ## Squeezing as a function of lines -/

/-- A line without the `c` at its end. -/
def stem (c : WChar) (l : WStr) : WStr := l.rdropWhile (· = c)

theorem stem_run {z : WChar} (hz : z ≠ c) (u : WStr) (k : Nat) :
    stem c (u ++ [z] ++ List.replicate k c) = u ++ [z] := by
  induction k with
  | zero =>
    rw [List.replicate_zero, List.append_nil]
    exact List.rdropWhile_concat_neg _ _ _ (by simpa using hz)
  | succ k ih =>
    rw [List.replicate_succ', ← List.append_assoc]
    exact (List.rdropWhile_concat_pos _ _ _ (by simp)).trans ih

/-- **Squeezing, line by line**: a blank line goes, a line that ends in two `c` loses its end and is
joined with what is left of the lines after it, and any other line stays. -/
def squeezeLines (c : WChar) : List WStr → List WStr
  | [] => []
  | l :: ls =>
    if Blank c l then squeezeLines c ls
    else if [c, c] <:+ l then (stem c l ++ (squeezeLines c ls).headD []) :: (squeezeLines c ls).tail
    else l :: squeezeLines c ls

section SqueezeLines

variable {ls ls' : List WStr}

/-- A blank line is dropped. -/
theorem squeezeLines_drop (hl : Blank c l) : squeezeLines c (l :: ls) = squeezeLines c ls := by
  rw [squeezeLines, if_pos hl]

theorem squeezeLines_blanks (j : Nat) : squeezeLines c (List.replicate j [] ++ ls) = squeezeLines c ls := by
  induction j with
  | zero => rfl
  | succ j ih =>
    rw [List.replicate_succ, List.cons_append, squeezeLines_drop (Or.inl rfl)]
    exact ih

/-- A line that does not end in two `c` is copied. -/
theorem squeezeLines_copy (hne : l ≠ []) (h2 : ¬ [c, c] <:+ l) :
    squeezeLines c (l :: ls) = l :: squeezeLines c ls := by
  have hkeep : ¬ Blank c l := by simpa [keeps] using keeps_of_end hne h2
  rw [squeezeLines, if_neg hkeep, if_neg h2]

/-- A frayed line loses its end and is joined with the first line written after it. -/
theorem squeezeLines_join {u : WStr} {z : WChar} {k : Nat} (hz : z ≠ c) (hk : 2 ≤ k) :
    squeezeLines c ((u ++ [z] ++ List.replicate k c) :: ls) =
      (u ++ [z] ++ (squeezeLines c ls).headD []) :: (squeezeLines c ls).tail := by
  have hsuf : [c, c] <:+ u ++ [z] ++ List.replicate k c :=
    (suffix_two_replicate hk).trans (List.suffix_append ..)
  have hkeep : ¬ Blank c (u ++ [z] ++ List.replicate k c) := fun hb => hz (hb.all z (by simp))
  rw [squeezeLines, if_neg hkeep, if_pos hsuf, stem_run hz]

end SqueezeLines

/-- **Squeezing a text is squeezing its lines**, from the start of a line. -/
theorem squeeze_lines (hc : c ≠ nl) (n : Nat) :
    ∀ {s w : WStr}, s.length ≤ n → s.head? ≠ some nl → Ended c s → Squeeze c s w →
      lines nl w = squeezeLines c (lines nl s) := by
  -- the induction is on the length, since a step goes on after a whole line
  induction n with
  | zero =>
    intro s w hlen _ _ h
    obtain rfl : s = [] := List.eq_nil_of_length_eq_zero (by omega)
    obtain rfl := List.sublist_nil.1 h.sublist
    rfl
  | succ n ih =>
    intro s w hlen hhead hend h
    by_cases hs : s = []
    · exact ih (by simp [hs]) hhead hend h
    rcases first_line s hs with hn | ⟨l, j, r, rfl, hl, hr⟩
    · -- the last line, without a newline
      have h2 : ¬ [c, c] <:+ s := by
        rintro ⟨p, hp⟩
        have := hend p [c, c] hp.symm (by simp)
        simp at this
      have hrun : ∀ v, v ≠ [] → v <:+ s → ¬ BlankRun c (v ++ []) := by
        rintro v - hv ⟨m, r, -, heq⟩
        rw [List.append_nil] at heq
        exact hn (hv.mem (by rw [heq]; simp))
      obtain ⟨w', rfl, hw'⟩ := Squeeze.copy (c := c) (t := []) (u := s) hn hrun (by rwa [List.append_nil])
      obtain rfl := List.sublist_nil.1 hw'.sublist
      rw [List.append_nil, lines_single hn hs, squeezeLines_copy hs h2]
      rfl
    · have hlines : lines nl (l ++ nl :: (List.replicate j nl ++ r)) =
        l :: (List.replicate j [] ++ lines nl r) := by
        rw [lines_append_sep hl, lines_seps]
      have hlne : l ≠ [] := by
        rintro rfl
        simp at hhead
      have hlen' : r.length ≤ n := by
        simp only [List.length_append, List.length_cons, List.length_replicate] at hlen
        omega
      have hendr : Ended c r := by
        refine Ended.suffix (p := l ++ nl :: List.replicate j nl) ?_
        simpa using hend
      rw [hlines]
      by_cases h2 : [c, c] <:+ l
      · by_cases hall : ∀ x ∈ l, x = c
        · -- a line of two or more `c` is dropped
          have hlen2 : 2 ≤ l.length := h2.length_le
          rw [replicate_of_all hall] at h
          rw [squeezeLines_drop (Or.inr ⟨hlen2, hall⟩), squeezeLines_blanks]
          exact ih hlen' hr hendr (h.drop hc hlen2 hr)
        · -- a frayed line loses its end
          have hfr : Frayed c l := ⟨by simpa using hall, h2⟩
          obtain ⟨u, z, k, rfl, hz, hk⟩ := hfr.split
          have hnu : nl ∉ u ++ [z] := fun h' => hl (by simp only [List.mem_append] at h' ⊢; tauto)
          rw [List.append_assoc] at h
          obtain ⟨w', rfl, hw'⟩ := Squeeze.copy hnu (not_blankRun_of_last hz hnu) h
          have hrest := ih hlen' hr hendr (hw'.drop hc hk hr)
          rw [lines_append hnu (by simp), squeezeLines_join hz hk, squeezeLines_blanks, hrest]
      · -- any other line is copied
        obtain ⟨w', rfl, hw'⟩ := Squeeze.copy hl (not_blankRun hc hl h2) h
        obtain ⟨w'', rfl, hw''⟩ := hw'.newlines hc hr
        have hrest := ih hlen' hr hendr hw''
        rw [lines_append_sep hl, squeezeLines_copy hlne h2, squeezeLines_blanks, hrest]

/-! ## The lines that are kept -/

/-- **What comes of the lines `ls`**: without frayed lines the blank ones go; with one of them, the
lines that must survive do not. The first line written is no run of two or more `c`. -/
structure Squeezed (c : WChar) (ls ls' : List WStr) : Prop where
  kept : (∀ l ∈ ls, ¬ Frayed c l) → ls' = ls.filter (keeps c)
  lost : (∃ l ∈ ls, Frayed c l) → ls'.filter (survivor c) ≠ ls.filter (survivor c)
  first : ∀ k, 2 ≤ k → ls'.headD [] ≠ List.replicate k c

section Squeezed

variable {ls ls' : List WStr}

theorem Squeezed.nil : Squeezed c [] [] := by
  refine ⟨fun _ => rfl, fun ⟨l, hl, _⟩ => by simp at hl, fun k hk => ?_⟩
  obtain ⟨k, rfl⟩ : ∃ j, k = j + 1 := ⟨k - 1, by omega⟩
  simp [List.replicate_succ]

/-- A blank line is dropped. -/
theorem Squeezed.drop (h : Squeezed c ls ls') (hl : Blank c l) : Squeezed c (l :: ls) ls' := by
  have hkeep : keeps c l = false := by simpa [keeps] using hl
  have hsurv : survivor c l = false := by simpa [survivor] using hl.all
  refine ⟨fun hfr => ?_, ?_, h.first⟩
  · rw [List.filter_cons_of_neg (by simp [hkeep])]
    exact h.kept fun x hx => hfr x (List.mem_cons_of_mem l hx)
  · rintro ⟨x, hx, hfr⟩
    rw [List.filter_cons_of_neg (by simp [hsurv])]
    rcases List.mem_cons.1 hx with rfl | hx
    · exact absurd hfr hl.not_frayed
    · exact h.lost ⟨x, hx, hfr⟩

/-- A line that does not end in two `c` is copied. -/
theorem Squeezed.copy (h : Squeezed c ls ls') (hne : l ≠ []) (h2 : ¬ [c, c] <:+ l) :
    Squeezed c (l :: ls) (l :: ls') := by
  refine ⟨fun hfr => ?_, ?_, fun k hk heq => ?_⟩
  · rw [List.filter_cons_of_pos (keeps_of_end hne h2), h.kept fun x hx => hfr x (List.mem_cons_of_mem l hx)]
  · rintro ⟨x, hx, hfr⟩ heq
    rcases List.mem_cons.1 hx with rfl | hx
    · exact h2 hfr.2
    · -- the line is on both sides, whether or not it must survive
      refine h.lost ⟨x, hx, hfr⟩ ?_
      cases hsurv : survivor c l with
      | true =>
        rw [List.filter_cons_of_pos hsurv, List.filter_cons_of_pos hsurv] at heq
        exact (List.cons.inj heq).2
      | false =>
        rwa [List.filter_cons_of_neg (by simp [hsurv]), List.filter_cons_of_neg (by simp [hsurv])] at heq
  · rw [List.headD_cons] at heq
    exact h2 (heq ▸ suffix_two_replicate hk)

/-- A frayed line loses its end and is joined with the first line written after it: since that one
is no run of `c`, the line is not what it was. -/
theorem Squeezed.join (h : Squeezed c ls ls') {u : WStr} {z : WChar} {k : Nat} (hz : z ≠ c) (hk : 2 ≤ k) :
    Squeezed c ((u ++ [z] ++ List.replicate k c) :: ls) ((u ++ [z] ++ ls'.headD []) :: ls'.tail) := by
  have hfr : Frayed c (u ++ [z] ++ List.replicate k c) :=
    ⟨⟨z, by simp, hz⟩, (suffix_two_replicate hk).trans (List.suffix_append ..)⟩
  have hsurv : ∀ v, survivor c (u ++ [z] ++ v) = true := fun v => by simp [survivor, hz]
  refine ⟨fun hnf => absurd hfr (hnf _ List.mem_cons_self), fun _ heq => ?_, fun k' _ heq => ?_⟩
  · rw [List.filter_cons_of_pos (hsurv _), List.filter_cons_of_pos (hsurv _)] at heq
    exact h.first k hk (List.append_cancel_left (List.cons.inj heq).1)
  · rw [List.headD_cons] at heq
    have hmem : z ∈ List.replicate k' c := by
      rw [← heq]
      simp
    exact hz (List.mem_replicate.1 hmem).2

/-- Squeezed lines keep what they should, one kind of line at a time. -/
theorem squeezeLines_squeezed (ls : List WStr) : Squeezed c ls (squeezeLines c ls) := by
  induction ls with
  | nil => exact .nil
  | cons l ls ih =>
    by_cases hb : Blank c l
    · rw [squeezeLines_drop hb]
      exact ih.drop hb
    have hne : l ≠ [] := fun h0 => hb (Or.inl h0)
    by_cases h2 : [c, c] <:+ l
    · have hfr : Frayed c l := by
        refine ⟨?_, h2⟩
        by_contra hall
        exact hb (Or.inr ⟨h2.length_le, by simpa using hall⟩)
      obtain ⟨u, z, k, rfl, hz, hk⟩ := hfr.split
      rw [squeezeLines_join hz hk]
      exact ih.join hz hk
    · rw [squeezeLines_copy hne h2]
      exact ih.copy hne h2

end Squeezed

/-! ## The copy loop -/

theorem thinned_filter (first : Bool) (ls : List WStr) : Thinned c first ls (ls.filter (keeps c)) := by
  induction ls generalizing first with
  | nil => exact .nil
  | cons l ls ih =>
    cases hk : keeps c l with
    | true =>
      rw [List.filter_cons_of_pos hk]
      exact .keep (fun _ => by simpa [keeps] using hk) (ih false)
    | false =>
      rw [List.filter_cons_of_neg (by simp [hk])]
      have hb : Blank c l := by simpa [keeps] using hk
      exact .drop hb.all (ih false)

/-- Thinned lines are those that must survive, up to lines of `c`. -/
theorem Thinned.survivors {first : Bool} {ls ls' : List WStr} (h : Thinned c first ls ls') :
    ls'.filter (survivor c) = ls.filter (survivor c) := by
  induction h with
  | nil => rfl
  | keep _ _ ih => simp only [List.filter_cons, ih]
  | drop hl _ ih =>
    rw [ih, List.filter_cons_of_neg]
    simpa [survivor] using hl

/-- **The copy loop of `pstring_compress` on a chomped text** keeps every line with another
character as it is and drops the blank ones after the first, exactly when no line is frayed. -/
theorem compress_lines (hc : c ≠ nl) (hs : pstringChomp c t = .ok s) :
    ∃ out count blanks, compressCopy c s = .ok (out, count, blanks) ∧
      (Thinned c true (lines nl s) (lines nl out) ↔ ∀ l ∈ lines nl s, ¬ Frayed c l) := by
  have hend := chomp_ended hs
  obtain ⟨w, count, blanks, hrun, hw, -⟩ := compressCopy_squeeze hend
  refine ⟨w, count, blanks, hrun, ?_⟩
  by_cases hhead : s.head? = some nl
  · -- newlines at the start of the text leave an empty first line
    obtain ⟨t', rfl⟩ : ∃ t', s = nl :: t' := by
      cases s with
      | nil => simp at hhead
      | cons x t' => simp only [List.head?_cons, Option.some.injEq] at hhead; exact ⟨t', by rw [hhead]⟩
    obtain ⟨j, hj, hr⟩ := skipNewlines_eq (s := t')
    rw [hj] at hw hend ⊢
    obtain ⟨w', rfl, hw'⟩ := hw.newlines hc hr
    have hendr : Ended c (skipNewlines t') :=
      Ended.suffix (p := nl :: List.replicate j nl) (by simpa using hend)
    have hrest : Squeezed c (List.replicate j [] ++ lines nl (skipNewlines t')) (lines nl w') := by
      rw [squeeze_lines hc _ (Nat.le_refl _) hr hendr hw', ← squeezeLines_blanks j]
      exact squeezeLines_squeezed _
    rw [lines_sep_cons, lines_sep_cons, lines_seps]
    constructor
    · intro hth l hl hfr
      rcases List.mem_cons.1 hl with rfl | hl
      · exact Blank.not_frayed (Or.inl rfl) hfr
      · refine hrest.lost ⟨l, hl, hfr⟩ ?_
        have := hth.survivors
        rwa [List.filter_cons_of_neg (by simp [survivor]), List.filter_cons_of_neg (by simp [survivor])] at this
    · intro hfr
      rw [hrest.kept fun l hl => hfr l (List.mem_cons_of_mem _ hl)]
      exact .keep (by simp) (thinned_filter _ _)
  · have hlines : Squeezed c (lines nl s) (lines nl w) := by
      rw [squeeze_lines hc _ (Nat.le_refl _) hhead hend hw]
      exact squeezeLines_squeezed _
    constructor
    · intro hth l hl hfr
      exact hlines.lost ⟨l, hl, hfr⟩ hth.survivors
    · intro hfr
      rw [hlines.kept hfr]
      exact thinned_filter _ _

/-- A line that ends in two blanks. -/
theorem compress_lines_joined :
    pstringChomp 32 (lit "a: 1  \nb: 2\n\n") = .ok (lit "a: 1  \nb: 2\n") ∧
      compressCopy 32 (lit "a: 1  \nb: 2\n") = .ok (lit "a: 1b: 2\n", 0, 1) ∧
      ¬ Thinned 32 true (lines nl (lit "a: 1  \nb: 2\n")) (lines nl (lit "a: 1b: 2\n")) := by
  refine ⟨by decide, by decide, fun h => ?_⟩
  exact absurd h.survivors (by decide)

/-- Lines without such an end, with an empty line and a line of blanks. -/
theorem compress_lines_thinned :
    ∃ out count blanks, compressCopy 32 (lit "a \n\n  \nb\n") = .ok (out, count, blanks) ∧
      Thinned 32 true (lines nl (lit "a \n\n  \nb\n")) (lines nl out) := by
  obtain ⟨out, count, blanks, h1, h2⟩ := compress_lines (c := 32) (t := lit "a \n\n  \nb\n\n")
    (s := lit "a \n\n  \nb\n") (by decide) (by decide)
  exact ⟨out, count, blanks, h1, h2.2 (by decide)⟩

end Procenv
