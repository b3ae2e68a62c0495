import Procenv.Data.Outcome
import Procenv.Proof.Compress
import Procenv.Proof.Crumb

/-!
# The lines of crumb output

In crumb format a document has a line for every entry, but values are not encoded,
and `pstring_chomp` and `pstring_compress` run over it before it is shown. The lines
shown are those of the entries only if no value has a newline and the indent
characters at the ends of the lines are left alone.

* `output_lines`: when the post-processing of a text of lines gives the lines back.
* `crumb_output`: **the output has one line per entry, the entry's own, exactly for
  the call trees in `OneLinePerEntry`**.
-/

namespace Procenv

open Text

variable {u : WChar} {ls : List WStr}

/-! ## Texts of lines -/

/-- The newlines of a text of lines are at the ends of its lines. -/
theorem unlines_split (hnl : ∀ l ∈ ls, nl ∉ l) {p r : WStr} (h : unlines nl ls = p ++ nl :: r) :
    ∃ ls₁ l ls₂, ls = ls₁ ++ l :: ls₂ ∧ p = unlines nl ls₁ ++ l ∧ r = unlines nl ls₂ := by
  induction ls generalizing p with
  | nil => simp [unlines] at h
  | cons l ls ih =>
    have hl := hnl l List.mem_cons_self
    have hcons : unlines nl (l :: ls) = l ++ nl :: unlines nl ls := by simp [unlines]
    rw [hcons] at h
    by_cases hp : nl ∈ p
    · -- the newline is in a later line
      obtain ⟨a, b, rfl, ha⟩ := List.eq_append_cons_of_mem hp
      rw [List.append_assoc, List.cons_append] at h
      have h1 := upto_unique (d := nl) (fun x hx hxn => hl (hxn ▸ hx)) (fun x hx hxn => ha (hxn ▸ hx)) h
      obtain ⟨ls₁, l', ls₂, rfl, rfl, hr⟩ := ih (fun x hx => hnl x (List.mem_cons_of_mem _ hx)) h1.2
      refine ⟨l :: ls₁, l', ls₂, rfl, ?_, hr⟩
      rw [← h1.1]
      simp [unlines]
    · have h1 := upto_unique (d := nl) (fun x hx hxn => hl (hxn ▸ hx)) (fun x hx hxn => hp (hxn ▸ hx)) h
      exact ⟨[], l, ls, rfl, by simp [unlines, h1.1], h1.2.symm⟩

/-- The character before a text of lines, if any, is a newline. -/
theorem unlines_last (ls : List WStr) : unlines nl ls = [] ∨ ∃ q, unlines nl ls = q ++ [nl] := by
  rcases List.eq_nil_or_concat' ls with rfl | ⟨ls, l, rfl⟩
  · exact Or.inl rfl
  · exact Or.inr ⟨_, unlines_concat ls l⟩

/-- A text of lines that are not empty has no empty line. -/
theorem unlines_no_blank (hne : ∀ l ∈ ls, l ≠ []) (hnl : ∀ l ∈ ls, nl ∉ l) {p q : WStr} :
    unlines nl ls ≠ p ++ nl :: nl :: q := by
  intro h
  obtain ⟨ls₁, l, ls₂, rfl, -, hr⟩ := unlines_split hnl h
  rcases ls₂ with _ | ⟨l', ls₂⟩
  · simp [unlines] at hr
  · have hl' := hnl l' (by simp)
    rcases l' with _ | ⟨x, l'⟩
    · exact hne [] (by simp) rfl
    · rw [show unlines nl ((x :: l') :: ls₂) = x :: (l' ++ nl :: unlines nl ls₂) by simp [unlines]] at hr
      exact hl' (by simp [(List.cons.inj hr).1])

/-- A text of lines has a run of two or more `u` only at the end of a line. -/
theorem unlines_no_run (hu : u ≠ nl) (hne : ∀ l ∈ ls, l ≠ []) (hnl : ∀ l ∈ ls, nl ∉ l)
    (h2 : ∀ l ∈ ls, ¬ [u, u] <:+ l) {p r : WStr} (h : unlines nl ls = p ++ r) : ¬ BlankRun u r := by
  rintro ⟨m, q, hm, rfl⟩
  obtain ⟨k, rfl⟩ : ∃ k, m = k + 2 := ⟨m - 2, by omega⟩
  have hrep : List.replicate (k + 2) u = List.replicate k u ++ [u] ++ [u] := by
    rw [List.replicate_succ', List.replicate_succ']
  rw [← List.append_assoc] at h
  obtain ⟨ls₁, l, ls₂, rfl, hp, -⟩ := unlines_split hnl h
  -- the last two characters before the newline are those of the line
  rcases List.eq_nil_or_concat' l with rfl | ⟨a, x, rfl⟩
  · exact hne [] (by simp) rfl
  · rw [hrep, ← List.append_assoc, ← List.append_assoc, ← List.append_assoc] at hp
    obtain ⟨h1, hx⟩ := List.append_inj' hp rfl
    obtain rfl : u = x := by simpa using hx
    rcases List.eq_nil_or_concat' a with rfl | ⟨b, y, rfl⟩
    · rw [List.append_nil] at h1
      rcases unlines_last ls₁ with h3 | ⟨q', h3⟩
      · rw [h3] at h1
        simp at h1
      · rw [h3] at h1
        have := (List.append_inj' h1 rfl).2
        exact hu (by simpa using this)
    · rw [← List.append_assoc] at h1
      have hy := (List.append_inj' h1 rfl).2
      obtain rfl : u = y := by simpa using hy
      exact h2 (b ++ [u] ++ [u]) (by simp) ⟨b, by simp⟩

/-! ## Chomping and compressing texts of lines -/

theorem chomp_concat {q : WStr} {x : WChar} (hx : ¬ (x = nl ∨ x = u)) :
    pstringChomp u (q ++ [x, nl, nl]) = .ok (q ++ [x, nl]) := by
  rw [chomp_split (y := [nl, nl]) hx (by simp), if_pos (by decide)]

/-- What is shown is left over from the text. -/
theorem compress_sublist {s out : WStr} (hend : Ended u s) (h : pstringCompress u s = .ok out) :
    ∃ w, Squeeze u s w ∧ out.Sublist w := by
  obtain ⟨w, out', hw, hout, hcut⟩ := compress_squeeze hend
  obtain rfl : out' = out := Except.ok.inj (hout.symm.trans h)
  refine ⟨w, hw, ?_⟩
  rcases hcut with rfl | rfl
  · exact List.Sublist.refl _
  · exact List.dropLast_sublist w

/-- The post-processing of a text. -/
def postProcess (u : WChar) (t : WStr) : Except Halt WStr := (pstringChomp u t).bind (pstringCompress u)

/-- The indent characters at the ends of the lines are left alone. -/
structure Untrimmed (u : WChar) (ls : List WStr) : Prop where
  last : ∀ l ∈ ls.getLast?, ¬ [u] <:+ l
  others : ∀ l ∈ ls.dropLast, ¬ [u, u] <:+ l

theorem postProcess_id (hne : ∀ l ∈ ls, l ≠ []) (hnl : ∀ l ∈ ls, nl ∉ l) (h0 : ls ≠ []) (h : Untrimmed u ls) :
    postProcess u (unlines nl ls ++ [nl]) = .ok (unlines nl ls) := by
  obtain ⟨ls', l, rfl⟩ : ∃ ls' l, ls = ls' ++ [l] :=
    (List.eq_nil_or_concat' ls).resolve_left h0
  obtain ⟨a, x, rfl⟩ : ∃ a x, l = a ++ [x] :=
    (List.eq_nil_or_concat' l).resolve_left (hne l (by simp))
  have hxu : x ≠ u := by
    rintro rfl
    exact h.last _ (by simp) ⟨a, rfl⟩
  have hxn : x ≠ nl := by
    rintro rfl
    exact hnl (a ++ [nl]) (by simp) (by simp)
  have hdoc : unlines nl (ls' ++ [a ++ [x]]) ++ [nl] = (unlines nl ls' ++ a) ++ [x, nl, nl] := by
    rw [unlines_concat]
    simp
  have hs : unlines nl (ls' ++ [a ++ [x]]) = (unlines nl ls' ++ a) ++ [x, nl] := by
    rw [unlines_concat]
    simp
  have h2 : ∀ l ∈ ls' ++ [a ++ [x]], ¬ [u, u] <:+ l := by
    intro l hl
    rcases List.mem_append.1 hl with hl | hl
    · exact h.others l (by simpa using hl)
    · rw [List.mem_singleton.1 hl]
      rintro ⟨p, hp⟩
      have : p ++ [u] ++ [u] = a ++ [x] := by simpa using hp
      exact hxu (by simpa using (List.append_inj' this rfl).2.symm)
  have hid := compressLoop_id (c := u) ((unlines nl (ls' ++ [a ++ [x]])).length + 1)
    (s := unlines nl (ls' ++ [a ++ [x]])) [] 0 (by
      intro p r hpr
      refine ⟨?_, fun q hq => unlines_no_blank hne hnl (hq ▸ hpr)⟩
      by_cases hu : u = nl
      · rintro ⟨m, r', hm, rfl⟩
        obtain ⟨m, rfl⟩ : ∃ k, m = k + 2 := ⟨m - 2, by omega⟩
        rw [hu, List.replicate_succ, List.replicate_succ] at hpr
        exact unlines_no_blank hne hnl hpr
      · exact unlines_no_run hu hne hnl h2 hpr) (by omega)
  rw [postProcess, hdoc, chomp_concat (by simp [hxn, hxu]), ← hs]
  simp only [Except.bind, pstringCompress, compressCopy, hid, bind, pure, Except.pure]
  simp

/-- A text is at most a newline shorter than its lines. -/
theorem unlines_lines_length (out : WStr) :
    (unlines nl (lines nl out)).length ≤ out.length + 1 ∧
      (out.length < (unlines nl (lines nl out)).length → unlines nl (lines nl out) = out ++ [nl]) := by
  rcases lines_join (n := nl) out with h | h
  · rw [h]
    exact ⟨by omega, fun h' => by omega⟩
  · rw [h]
    exact ⟨by simp, fun _ => rfl⟩

/-- A text without lines is shown as an empty line. -/
theorem postProcess_nl (u : WChar) : postProcess u [nl] = .ok [nl] := by
  by_cases hu : nl = u
  · subst hu
    decide
  · simp [postProcess, pstringChomp, pstringCompress, compressCopy, compressLoop, compressRound,
      skipBlanks, skipRun, hu, Except.bind, bind, pure, Except.pure]

/-- When at most a newline is missing from the output, the last line does not end in the indent
character. -/
theorem last_ne_of_shown {s out a : WStr} {x : WChar} (hxn : x ≠ nl)
    (hs : pstringChomp u (a ++ [x, nl, nl]) = .ok s) (hc : pstringCompress u s = .ok out)
    (hlen : (a ++ [x, nl]).length ≤ out.length + 1)
    (hlast : out.length < (a ++ [x, nl]).length → a ++ [x, nl] = out ++ [nl]) : x ≠ u := by
  rintro rfl
  -- the last line loses its end, and what is left is too short
  obtain ⟨w, hw, hsub⟩ := compress_sublist (chomp_ended hs) hc
  have hle := (hsub.trans hw.sublist).length_le
  rcases chomp_eq hs with ⟨h1, -⟩ | ⟨p, x', y, h1, hx', -, h2⟩
  · simp only [List.length_append, List.length_cons] at h1
    omega
  · have hy3 : 3 ≤ y.length := by
      by_contra hlt
      have hsuf : (x' :: y) <:+ [x, nl, nl] := by
        refine List.suffix_of_suffix_length_le ⟨p, rfl⟩ (h1 ▸ ⟨_, rfl⟩) ?_
        simp only [List.length_cons, List.length_nil]
        omega
      have hmem : x' ∈ [x, nl, nl] := hsuf.mem List.mem_cons_self
      simp only [List.mem_cons, List.not_mem_nil, or_false] at hmem
      rcases hmem with rfl | rfl | rfl
      · exact hx' (Or.inr rfl)
      · exact hx' (Or.inl rfl)
      · exact hx' (Or.inl rfl)
    rw [if_pos (by omega)] at h2
    have hchomped : s.length = p.length + 2 := by
      rw [h2]
      simp
    have htext := congrArg List.length h1
    simp only [List.length_append, List.length_cons, List.length_nil] at htext hlen hlast
    -- so the output is the chomped text, which ends elsewhere
    have hout : out = s := (hsub.trans hw.sublist).eq_of_length_le (by omega)
    have hend := hlast (by omega)
    rw [hout, h2] at hend
    have h3 : a ++ [x] ++ [nl] = p ++ [x'] ++ [nl] ++ [nl] := by simpa using hend
    have h4 := List.append_cancel_right h3
    exact hxn (by simpa using (List.append_inj' h4 rfl).2)

/-- When at most a newline is missing from the output, no line ends in two indent characters. -/
theorem no_run_of_shown {s out p q : WStr} (hu : u ≠ nl) (hend : Ended u s) (hc : pstringCompress u s = .ok out)
    (hlen : s.length ≤ out.length + 1) : s ≠ p ++ (List.replicate 2 u ++ nl :: q) := by
  intro hrun
  obtain ⟨w, hw, hsub⟩ := compress_sublist hend hc
  have h1 := hw.length_run hu (Nat.le_refl 2) hrun
  have h2 := hsub.length_le
  omega

/-- **The post-processing of a text of lines gives the lines back exactly when there are lines and
the indent characters at their ends are left alone.** -/
theorem output_lines (hne : ∀ l ∈ ls, l ≠ []) (hnl : ∀ l ∈ ls, nl ∉ l) :
    (∃ out, postProcess u (unlines nl ls ++ [nl]) = .ok out ∧ lines nl out = ls) ↔
      ls ≠ [] ∧ Untrimmed u ls := by
  constructor
  · rintro ⟨out, hout, hlines⟩
    have h0 : ls ≠ [] := by
      rintro rfl
      rw [show unlines nl [] ++ [nl] = [nl] from rfl, postProcess_nl, Except.ok.injEq] at hout
      subst hout
      simp at hlines
    refine ⟨h0, ?_⟩
    have hlen := unlines_lines_length out
    rw [hlines] at hlen
    obtain ⟨s, hs, hc⟩ := Outcome.ok_of_bind hout
    -- the text up to its last character, which is in the last line
    obtain ⟨ls', l, rfl⟩ : ∃ ls' l, ls = ls' ++ [l] := (List.eq_nil_or_concat' ls).resolve_left h0
    obtain ⟨a, x, rfl⟩ : ∃ a x, l = a ++ [x] := (List.eq_nil_or_concat' l).resolve_left (hne l (by simp))
    have hxn : x ≠ nl := by
      rintro rfl
      exact hnl (a ++ [nl]) (by simp) (by simp)
    have htext : unlines nl (ls' ++ [a ++ [x]]) = (unlines nl ls' ++ a) ++ [x, nl] := by
      rw [unlines_concat]
      simp
    have hdoc : (unlines nl ls' ++ a) ++ [x, nl] ++ [nl] = (unlines nl ls' ++ a) ++ [x, nl, nl] := by simp
    rw [htext] at hlen hs
    rw [hdoc] at hs
    have hlast : x ≠ u := last_ne_of_shown hxn hs hc hlen.1 hlen.2
    refine ⟨?_, ?_⟩
    · intro l' hl'
      have hl : l' = a ++ [x] := by simpa using hl'.symm
      rw [hl]
      rintro ⟨p, hp⟩
      exact hlast (by simpa using (List.append_inj' hp rfl).2.symm)
    · rintro l' hl' ⟨b, rfl⟩
      have hmem : b ++ [u, u] ∈ ls' := by simpa using hl'
      have hu : u ≠ nl := by
        rintro rfl
        exact hnl _ (List.mem_append_left _ hmem) (by simp)
      -- chomping takes the last newline only
      have hchomped := hs
      rw [chomp_concat (by simp [hxn, hlast]), Except.ok.injEq] at hchomped
      obtain ⟨ls₁, ls₂, rfl⟩ := List.append_of_mem hmem
      refine no_run_of_shown (p := unlines nl ls₁ ++ b) (q := unlines nl (ls₂ ++ [a ++ [x]])) hu
        (chomp_ended hs) hc
        (hchomped ▸ hlen.1) ?_
      rw [← hchomped, ← htext, List.append_assoc, unlines_append]
      simp [unlines, List.replicate]
  · rintro ⟨h0, h⟩
    exact ⟨_, postProcess_id hne hnl h0 h, lines_unlines hnl⟩

/-! ## Crumb output -/

/-- What is shown of a run with a display option, in the formats that are compressed. -/
def shownText (cfg : Config) (es : List Event) : Except Halt WStr :=
  (runDocument cfg es).bind fun s => postProcess cfg.wideIndentChar s.doc

/-- In the formats without a root the header writes nothing, and the footer a newline. -/
theorem shownText_run {cfg : Config} (hf : cfg.outputFormat = .text ∨ cfg.outputFormat = .crumb)
    (ha : 0 ≤ cfg.indentAmount) {es : List Event} {s : OutState} (hs : runEvents cfg es {} = .ok s) :
    shownText cfg es = postProcess cfg.wideIndentChar (s.doc ++ [nl]) := by
  have hhead : masterHeader cfg {} = .ok {} := by
    rcases hf with hf | hf <;> simp [masterHeader, hf, commonAssert_ok ha, bind, Except.bind, pure, Except.pure]
  have hfoot : masterFooter cfg s = .ok (s.wappend [nl]) := by
    rcases hf with hf | hf <;> simp [masterFooter, hf, commonAssert_ok ha, bind, Except.bind, pure, Except.pure]
  simp only [shownText, runDocument, hhead, hs, hfoot, bind, Except.bind, OutState.wappend]

/-- The values of the entries, in call order. -/
def Calls.values : Calls → List WStr
  | .nil => []
  | .entry _ value next => value :: next.values
  | .group _ kids next => kids.values ++ next.values

/-- The names of a call have no newline. -/
def Event.PlainName (cfg : Config) : Event → Prop
  | .entry name _ | .sectionOpen name | .containerOpen name => nl ∉ cfg.crumbName name
  | _ => True

instance (cfg : Config) : DecidablePred (Event.PlainName cfg) := fun e =>
  match e with
  | .entry name _ | .sectionOpen name | .containerOpen name =>
    inferInstanceAs (Decidable (nl ∉ cfg.crumbName name))
  | .sectionClose | .containerClose | .objectOpen _ | .objectClose _ => inferInstanceAs (Decidable True)

/-- **The call trees whose output is line-parseable**: there is an entry, no value has a newline, the
last line does not end in the indent character, and no other line ends in two of them. -/
structure OneLinePerEntry (cfg : Config) (c : Calls) : Prop where
  entry : c.values ≠ []
  plain : ∀ v ∈ c.values, nl ∉ v
  ends : Untrimmed cfg.wideIndentChar (c.crumbLines cfg [])

variable {cfg : Config}

/-- The lines of a call tree are as many as its values, are not empty, and have a newline only where
a value has one. -/
theorem crumbLines_values (hf : cfg.outputFormat = .crumb) (hsep : nl ∉ cfg.crumbName cfg.crumbSeparator)
    (htsep : nl ∉ cfg.crumbName cfg.textSeparator) (c : Calls) :
    ∀ (path : List MbStr), c.fits .crumb false → c.Encodable cfg → (∀ e ∈ c.events, e.PlainName cfg) →
      (∀ name ∈ path, nl ∉ cfg.crumbName name) →
      (c.crumbLines cfg path).length = c.values.length ∧ (∀ l ∈ c.crumbLines cfg path, l ≠ []) ∧
        ((∀ l ∈ c.crumbLines cfg path, nl ∉ l) ↔ ∀ v ∈ c.values, nl ∉ v) := by
  induction c with
  | nil => intro path _ _ _ _; simp [Calls.crumbLines, Calls.values]
  | entry name value next ih =>
    intro path hfit henc hplain hpath
    have hn : nl ∉ cfg.crumbName name := (Calls.all_entry hplain).1
    obtain ⟨h1, h2, h3⟩ := ih path (fits_entry hfit).2 henc.entry.2 (Calls.all_entry hplain).2 hpath
    have he : (Event.entry name value).Encodable cfg := henc.entry.1
    have hpt : nl ∉ cfg.pathText path := by
      intro h
      obtain ⟨n, hn, hmem⟩ := List.mem_flatMap.1 h
      rcases List.mem_append.1 hmem with h | h
      · exact hpath n hn h
      · exact hsep h
    -- `char_to_wchar` refuses the empty name
    have hne : cfg.crumbName name ≠ [] := by
      obtain ⟨r, hr⟩ := Option.isSome_iff_exists.1 he.1
      obtain ⟨w, hw, -⟩ := encodeName_eq hr
      have hmb := (crumbName_eq hf he.1).2
      unfold charToWchar at hw
      rw [hmb] at hw
      intro h0
      rw [h0] at hw
      simp at hw
    refine ⟨by simp [Calls.crumbLines, Calls.values, h1], ?_, ?_⟩
    · intro l hl
      rcases List.mem_cons.1 hl with rfl | hl
      · simp [Config.crumbLine, hne]
      · exact h2 l hl
    · simp only [Calls.crumbLines, Calls.values, List.forall_mem_cons, h3]
      simp [Config.crumbLine, hpt, hn, htsep]
  | group g kids next ihk ihn =>
    intro path hfit henc hplain hpath
    obtain ⟨hg, hfk, hfn⟩ := fits_group hfit
    rw [isArray_false (by decide)] at hfk
    obtain ⟨hopen, hpk, hpn⟩ := Calls.all_group hplain
    have hname : nl ∉ cfg.crumbName g.name := by
      cases g with
      | sect name => exact hopen
      | cont name => exact hopen
      | object => simp [Group.isObject] at hg
    obtain ⟨h1, h2, h3⟩ := ihk (path ++ [g.name]) hfk henc.group.2.1 hpk (by
        intro n hn
        rcases List.mem_append.1 hn with hn | hn
        · exact hpath n hn
        · rw [List.mem_singleton.1 hn]
          exact hname)
    obtain ⟨h4, h5, h6⟩ := ihn path hfn henc.group.2.2 hpn hpath
    refine ⟨by simp [Calls.crumbLines, Calls.values, h1, h4], ?_, ?_⟩
    · intro l hl
      rcases List.mem_append.1 hl with hl | hl
      · exact h2 l hl
      · exact h5 l hl
    · simp only [Calls.crumbLines, Calls.values, List.forall_mem_append, h3, h6]

/-- **The output has one line per entry**, the path, name, separator and value of the entry, exactly
when there is an entry, no value has a newline, and the ends of the lines are left alone. -/
theorem crumb_output (hf : cfg.outputFormat = .crumb) (ha : 0 ≤ cfg.indentAmount)
    (hdsep : (cfg.locale.mbsrtowcs cfg.crumbSeparator).isSome)
    (hdtsep : (cfg.locale.mbsrtowcs cfg.textSeparator).isSome)
    (hsep : nl ∉ cfg.crumbName cfg.crumbSeparator) (htsep : nl ∉ cfg.crumbName cfg.textSeparator) (c : Calls)
    (hfit : c.fits .crumb false) (hbare : c.bareEntry = false) (henc : c.Encodable cfg)
    (hplain : ∀ e ∈ c.events, e.PlainName cfg) (es : List Event) (hes : eraseObjects es = c.events) :
    (∃ out, shownText cfg es = .ok out ∧ lines nl out = c.crumbLines cfg []) ↔ OneLinePerEntry cfg c := by
  obtain ⟨s, hs, hF⟩ := run_crumbs hf ha hdsep hdtsep hes hfit hbare henc
  obtain ⟨hlen, hne, hnl⟩ := crumbLines_values hf hsep htsep c [] hfit henc hplain (by simp)
  have hshown : shownText cfg es = postProcess cfg.wideIndentChar (unlines nl (c.crumbLines cfg []) ++ [nl]) := by
    rw [shownText_run (Or.inr hf) ha hs, hF.doc]
  have hempty : c.crumbLines cfg [] ≠ [] ↔ c.values ≠ [] := by
    rw [← List.length_pos_iff, ← List.length_pos_iff, hlen]
  rw [hshown]
  constructor
  · rintro ⟨out, hout, hlines⟩
    have hplain' : ∀ l ∈ c.crumbLines cfg [], nl ∉ l := fun l hl =>
      sep_notMem_of_mem_lines (hlines ▸ hl)
    obtain ⟨h0, hends⟩ := (output_lines hne hplain').1 ⟨out, hout, hlines⟩
    exact ⟨hempty.1 h0, hnl.1 hplain', hends⟩
  · rintro ⟨h0, hplain', hends⟩
    exact (output_lines hne (hnl.2 hplain')).2 ⟨hempty.2 h0, hends⟩

/-- A value with a newline makes two lines of its entry, and an entry whose value ends in two blanks
is joined with the next one. -/
theorem crumb_output_joined :
    let cfg : Config := { outputFormat := .crumb, locale := posixLocale }
    let c : Calls := .group (.sect (bytes "environment"))
      (.entry (bytes "A") (lit "x  ") (.entry (bytes "B") (lit "y\nz") .nil)) .nil
    shownText cfg c.events = .ok (lit "environment:A: xenvironment:B: y\nz\n") ∧
      ¬ ∃ out, shownText cfg c.events = .ok out ∧ lines nl out = c.crumbLines cfg [] := by
  intro cfg c
  have h : shownText cfg c.events = .ok (lit "environment:A: xenvironment:B: y\nz\n") := by decide
  refine ⟨h, ?_⟩
  rintro ⟨out, hout, hlines⟩
  rw [h, Except.ok.injEq] at hout
  rw [← hout] at hlines
  exact absurd hlines (by decide)

/-- A value with one blank at its end and runs of blanks inside. -/
theorem crumb_output_environment :
    let cfg : Config := { outputFormat := .crumb, locale := posixLocale }
    let es : List Event := [.sectionOpen (bytes "env"), .entry (bytes "A") (lit "x  y "), .objectOpen false,
      .entry (bytes "B") (lit "z"), .sectionClose]
    ∃ out, shownText cfg es = .ok out ∧ lines nl out = [lit "env:A: x  y ", lit "env:B: z"] := by
  intro cfg es
  let c : Calls := .group (.sect (bytes "env"))
    (.entry (bytes "A") (lit "x  y ") (.entry (bytes "B") (lit "z") .nil)) .nil
  have h : OneLinePerEntry cfg c := ⟨by decide, by decide, by decide, by decide⟩
  exact (crumb_output rfl (by decide) (by decide) (by decide) (by decide) (by decide) c (by decide)
    (by decide) (by decide) (by decide) es (by decide)).2 h

end Procenv
