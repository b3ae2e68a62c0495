import Procenv.Proof.Append
import Procenv.Proof.Finish

/-!
# Documents on their way out: text and length

`pstring_chomp` and `pstring_compress` work on the buffer of the document and its
length. What chomping leaves holds its text as before. Compressing computes the new
length from its two counters, and is right exactly when it has nothing to do: every
time something was counted the new length is too small for the text or too large,
and runs of blank lines can be removed without being counted.

* `chomp_holds`: **chomping a buffer is chomping its text.**
* `compress_refines`: **compressing a buffer leaves what compressing its text leaves.**
* `compressLoop_lossless`: the copy loop keeps every character only of a text without empty
  lines and without runs of the remove character up to a newline.
* `compress_keeps_iff`: **when compressing leaves the text that was kept, and its length.**
* `compress_finished`: **JSON and XML documents are not changed by compressing.**
-/

namespace Procenv

open Text Data Outcome

variable {c u : WChar} {s t : WStr} {d d' : Pstring}

/-! ## Chomping -/

theorem chompCells_map (rev : WStr) (n : Nat) : chompCells c (rev.map some) n = chompScan c rev n := by
  induction rev generalizing n with
  | nil => rfl
  | cons x rev ih =>
    rw [List.map_cons, chompCells, chompScan]
    split
    · exact ih (n + 1)
    · rfl

/-- The two stores that end the text after `a`. -/
theorem store_end (a r : WStr) (x y : WChar) (rest : Buffer WChar) :
    (Buffer.store ((a ++ x :: y :: r).map some ++ rest) a.length nl).bind (·.store (a.length + 1) 0) =
      some ((a ++ [nl]).map some ++ some 0 :: (r.map some ++ rest)) := by
  have h₁ : Buffer.store ((a ++ x :: y :: r).map some ++ rest) a.length nl =
      some (a.map some ++ some nl :: some y :: (r.map some ++ rest)) := by
    rw [Buffer.store, if_pos (by simp)]
    simp
  rw [h₁, Option.bind_some, Buffer.store, if_pos (by simp)]
  simp

/-- **Chomping a buffer is chomping its text.** -/
theorem chomp_holds (c : WChar) (h : d.Holds t) :
    match pstringChomp c t with
    | .ok s => ∃ d', d.chomp c = .ok d' ∧ d'.Holds s ∧ (d'.buf = [] ↔ d.buf = [])
    | .error e => d.chomp c = .error e := by
  unfold pstringChomp Pstring.chomp
  rw [h.len]
  by_cases hlen : t.length < 2
  · simp only [if_pos hlen]
    exact ⟨d, rfl, h, Iff.rfl⟩
  have hb : d.buf ≠ [] := h.buf_ne_nil (by rintro rfl; simp at hlen)
  obtain ⟨rest, hrest⟩ := h.buf hb
  have hcells : (d.buf.take t.length).reverse = t.reverse.map some := by
    rw [hrest, List.take_append_of_le_length (by simp), List.take_of_length_le (by simp), List.map_reverse]
  have hbound : ¬ d.buf.length < t.length := by
    rw [hrest]
    simp
  simp only [if_neg hlen, if_neg hbound, hcells, chompCells_map, bind, Except.bind]
  cases hk : chompScan c t.reverse 0 with
  | error e => rfl
  | ok k =>
    obtain ⟨y, x, p, hrev, -, -, hk'⟩ := chompScan_eq hk
    simp only
    by_cases hgt : k > 1
    · -- the text up to the first character that goes, and the two cells that are overwritten
      obtain ⟨a, y₁, y₂, r, rfl, ha⟩ : ∃ a y₁ y₂ r, t = a ++ y₁ :: y₂ :: r ∧
        t.length - (k - 1) = a.length + 1 := by
        have ht : t = (p.reverse ++ [x]) ++ y.reverse := by
          have := congrArg List.reverse hrev
          simpa using this
        rcases hy : y.reverse with _ | ⟨y₁, _ | ⟨y₂, r⟩⟩
        · have := congrArg List.length hy
          simp only [List.length_reverse, List.length_nil] at this
          omega
        · have := congrArg List.length hy
          simp only [List.length_reverse, List.length_cons, List.length_nil] at this
          omega
        · refine ⟨p.reverse ++ [x], y₁, y₂, r, by rw [ht, hy], ?_⟩
          have h₁ := congrArg List.length hy
          have h₂ := congrArg List.length ht
          simp only [List.length_append, List.length_reverse, List.length_cons, List.length_nil] at h₁ h₂ ⊢
          omega
      have hstores := store_end a r y₁ y₂ (some 0 :: rest)
      rw [← hrest] at hstores
      obtain ⟨b₁, h₁, h₂⟩ := Option.bind_eq_some_iff.1 hstores
      have hzero : 0 ∉ a ++ [nl] := by
        have := h.noZero
        simp only [List.mem_append, List.mem_singleton, not_or] at this ⊢
        exact ⟨this.1, by decide⟩
      have htake : ((a ++ y₁ :: y₂ :: r).take (a.length + 1)).set a.length nl = a ++ [nl] := by
        rw [List.take_length_add_append]
        simp
      simp only [if_pos hgt, ha, Nat.add_sub_cancel, htake, h₁, h₂, access, pure, Except.pure]
      refine ⟨_, rfl, ⟨?_, by simp⟩, iff_of_false (by simp) hb⟩
      rw [Pstring.content, if_neg (by simp)]
      exact Buffer.string_map hzero _
    · simp only [if_neg hgt, pure, Except.pure]
      exact ⟨d, rfl, h, Iff.rfl⟩

/-! ## Compressing -/

/-- No empty line, and no run of `c` up to a newline. -/
def NoBlank (c : WChar) (s : WStr) : Prop := ∀ p r, s = p ++ r → ¬ BlankRun c r ∧ ∀ q, r ≠ nl :: nl :: q

theorem noBlank_iff : NoBlank c s ↔ ¬ [nl, nl] <:+: s ∧ ¬ [c, c, nl] <:+: s := by
  constructor
  · intro h
    refine ⟨?_, ?_⟩
    · rintro ⟨p, q, rfl⟩
      exact (h p (nl :: nl :: q) (by simp)).2 q rfl
    · rintro ⟨p, q, rfl⟩
      exact (h p (c :: c :: nl :: q) (by simp)).1 ⟨2, q, Nat.le_refl 2, rfl⟩
  · rintro ⟨h₁, h₂⟩ p r rfl
    refine ⟨?_, ?_⟩
    · rintro ⟨m, q, hm, rfl⟩
      obtain ⟨k, rfl⟩ : ∃ k, m = k + 2 := ⟨m - 2, by omega⟩
      exact h₂ ⟨p ++ List.replicate k c, q, by rw [← List.replicate_append_replicate]; simp [List.replicate]⟩
    · rintro q rfl
      exact h₁ ⟨p, q, by simp⟩

/-- A round leaves an end of the text, and where it leaves all of it, no blank line starts. -/
theorem compressRound_suffix (s : WStr) (count blanks : Nat) {r : WStr} {again : Bool} {count' blanks' : Nat}
    (h : compressRound c s count blanks = ⟨r, again, count', blanks'⟩) :
    r <:+ s ∧ (again = true → r.length < s.length) ∧
      (r.length = s.length → r = s ∧ ¬ BlankRun c s ∧ ∀ q, s ≠ nl :: nl :: q) := by
  obtain ⟨start, b', hsb, -, hlen, hnn, ⟨p, hp⟩, -⟩ := skipBlanks_eq (c := c) (s := s) (w := []) blanks
  obtain ⟨m, q, hrun, hstart, hq⟩ := skipRun_eq (c := c) (s := start) 0
  have hsuf : start <:+ s := ⟨p, hp.symm⟩
  have hstartlen := congrArg List.length hstart
  simp only [List.length_append, List.length_replicate] at hstartlen
  simp only [compressRound, hsb, hrun, Nat.zero_add] at h
  by_cases hm : m ≠ 0 ∧ q.head? = some nl ∧ m ≠ 1
  · -- the run is skipped, with the newline after it
    have hskip : skipNewlines q <:+ q := by
      obtain ⟨j, hj, -⟩ := skipNewlines_eq (s := q)
      exact ⟨_, hj.symm⟩
    have hr : r = skipNewlines q := by
      rw [if_pos hm.1, if_pos hm.2] at h
      split at h
      · exact (Round.mk.inj h).1.symm
      · exact (Round.mk.inj h).1.symm
    have hle := hskip.length_le
    rw [hr]
    exact ⟨hskip.trans (List.IsSuffix.trans ⟨_, hstart.symm⟩ hsuf), fun _ => by omega, fun h => by omega⟩
  · obtain ⟨rfl, rfl⟩ : start = r ∧ false = again := by
      split at h
      · rename_i hm0
        rw [if_neg fun hrm => hm ⟨hm0, hrm⟩] at h
        exact ⟨(Round.mk.inj h).1, (Round.mk.inj h).2.1⟩
      · exact ⟨(Round.mk.inj h).1, (Round.mk.inj h).2.1⟩
    refine ⟨hsuf, by simp, fun heq => ?_⟩
    obtain rfl := hsuf.eq_of_length heq
    refine ⟨rfl, ?_, hnn⟩
    rintro ⟨k, q', hk, hq'⟩
    by_cases hc : c = nl
    · obtain ⟨k, rfl⟩ : ∃ j, k = j + 2 := ⟨k - 2, by omega⟩
      rw [hc, List.replicate_succ, List.replicate_succ] at hq'
      exact hnn _ hq'
    · obtain ⟨rfl, rfl⟩ := run_unique hq (by simpa using Ne.symm hc) (hstart.symm.trans hq')
      exact hm ⟨by omega, rfl, by omega⟩

/-- The copy loop writes no more than it reads, and nothing else. -/
theorem compressLoop_bound (fuel : Nat) {s out out' : WStr} {count blanks count' blanks' : Nat}
    (h : compressLoop c fuel s out count blanks = .ok (out', count', blanks')) :
    out'.length ≤ out.length + s.length ∧ ∀ x ∈ out', x ∈ out ∨ x ∈ s := by
  induction fuel generalizing s out count blanks with
  | zero => cases h
  | succ fuel ih =>
    rcases s with _ | ⟨x, s⟩
    · simp only [compressLoop, Except.ok.injEq, Prod.mk.injEq] at h
      rw [← h.1]
      exact ⟨by simp, fun y hy => Or.inl hy⟩
    · rw [compressLoop] at h
      split at h
      · rename_i r count₁ blanks₁ hround
        obtain ⟨hlen, hmem⟩ := ih h
        have hsuf := (compressRound_suffix _ _ _ hround).1
        refine ⟨by have := hsuf.length_le; omega, fun y hy => (hmem y hy).imp id fun hy => hsuf.mem hy⟩
      · rename_i y r count₁ blanks₁ hround
        obtain ⟨hlen, hmem⟩ := ih h
        have hsuf := (compressRound_suffix _ _ _ hround).1
        have hle := hsuf.length_le
        simp only [List.length_append, List.length_cons, List.length_nil] at hlen hle ⊢
        refine ⟨by omega, fun z hz => ?_⟩
        rcases hmem z hz with hz | hz
        · rcases List.mem_append.1 hz with hz | hz
          · exact Or.inl hz
          · exact Or.inr (hsuf.mem (by simp [List.mem_singleton.1 hz]))
        · exact Or.inr (hsuf.mem (by simp [hz]))
      · cases h

/-- **The copy loop keeps every character only of a text without blank lines.** -/
theorem compressLoop_lossless (fuel : Nat) {s out out' : WStr} {count blanks count' blanks' : Nat}
    (h : compressLoop c fuel s out count blanks = .ok (out', count', blanks'))
    (hlen : out'.length = out.length + s.length) : NoBlank c s := by
  induction fuel generalizing s out count blanks with
  | zero => cases h
  | succ fuel ih =>
    rcases s with _ | ⟨x, s⟩
    · intro p r hpr
      obtain ⟨rfl, rfl⟩ := List.append_eq_nil_iff.1 hpr.symm
      exact ⟨by rintro ⟨m, q, -, h⟩; simp at h, by simp⟩
    · rw [compressLoop] at h
      split at h
      · rename_i r count₁ blanks₁ hround
        have h₁ := (compressLoop_bound fuel h).1
        have h₂ := (compressRound_suffix _ _ _ hround).2.1 rfl
        omega
      · rename_i y r count₁ blanks₁ hround
        have h₁ := (compressLoop_bound fuel h).1
        obtain ⟨hsuf, -, h₃⟩ := compressRound_suffix _ _ _ hround
        have h₂ := hsuf.length_le
        simp only [List.length_append, List.length_cons, List.length_nil] at h₁ h₂ h₃ hlen
        obtain ⟨heq, hnb, hnn⟩ := h₃ (by omega)
        obtain ⟨rfl, rfl⟩ := List.cons.inj heq
        have hrest := ih h (by simp; omega)
        -- the text itself, or one that starts after the character that was copied
        intro p q hpq
        rcases p with _ | ⟨z, p⟩
        · rw [List.nil_append] at hpq
          rw [← hpq]
          exact ⟨hnb, hnn⟩
        · exact hrest p q (List.cons.inj hpq).2
      · cases h

/-- The cell of the new terminator is the last one that is left. -/
theorem store_last (b : Buffer WChar) {n : Nat} (hn : n < b.length) :
    (b.realloc (n + 1)).store n 0 = some (b.take n ++ [some 0]) := by
  have hrealloc : b.realloc (n + 1) = b.take n ++ [b[n]] := by
    rw [Buffer.realloc, Nat.sub_eq_zero_of_le hn, List.replicate_zero, List.append_nil,
      List.take_succ_eq_append_getElem hn]
  have hlen : (b.take n).length = n := by
    rw [List.length_take]
    omega
  rw [hrealloc, Buffer.store, if_pos (by rw [List.length_append, hlen]; exact Nat.lt_succ_self n),
    List.set_append_right _ _ (Nat.le_of_eq hlen), hlen, Nat.sub_self, List.set_cons_zero]

/-- **Compressing a buffer leaves what compressing its text leaves**; of its length this says
nothing. -/
theorem compress_refines (c : WChar) (h : d.Holds t) (hb : d.buf ≠ []) :
    match pstringCompress c t with
    | .ok s => ∃ d', d.compress c = .ok d' ∧ d'.content = some s
    | .error e => d.compress c = .error e := by
  unfold pstringCompress Pstring.compress
  simp only [if_neg hb, h.string hb, access, bind, Except.bind, pure, Except.pure]
  cases hcopy : compressCopy c t with
  | error e => rfl
  | ok kept =>
    obtain ⟨out, count, blanks⟩ := kept
    obtain ⟨rest, hrest⟩ := h.buf hb
    have hbuf : t.length < d.buf.length := by
      rw [hrest]
      simp
    -- what is kept fits where the text was, and is a string
    obtain ⟨hlen, hmem⟩ := compressLoop_bound _ hcopy
    have hzero : 0 ∉ out := fun h0 => h.noZero ((hmem 0 h0).resolve_left (by simp))
    rw [List.length_nil, Nat.zero_add] at hlen
    obtain ⟨b, hstore, hb', hstr⟩ : ∃ b, d.buf.storeAll 0 (out ++ [0]) = some b ∧ b.length = d.buf.length ∧
        b.string 0 = some out := by
      have hfits : 0 + (out ++ [(0 : WChar)]).length ≤ d.buf.length := by
        simp only [List.length_append, List.length_cons, List.length_nil]
        omega
      refine ⟨_, Buffer.storeAll_eq hfits, ?_, ?_⟩
      · simp only [List.length_append, List.length_map, List.length_take, List.length_drop, List.length_cons,
          List.length_nil] at hfits ⊢
        omega
      · simpa using Buffer.string_map hzero (d.buf.drop (0 + (out ++ [(0 : WChar)]).length))
    simp only [hstore]
    by_cases hcount : blanks ≠ 0 ∨ count ≠ 0
    · simp only [if_pos hcount, h.len]
      rcases hnew : t.length - (blanks + count) with _ | n
      · simp [Buffer.store]
      · have hn : n < b.length := by omega
        rw [if_neg (Nat.succ_ne_zero n), Nat.add_sub_cancel, store_last b hn]
        refine ⟨_, rfl, ?_⟩
        rw [Pstring.content, if_neg (by simp)]
        exact Buffer.string_cut hstr n
    · have hne : b ≠ [] := List.ne_nil_of_length_pos (by omega)
      simp only [if_neg hcount]
      refine ⟨_, rfl, ?_⟩
      rw [Pstring.content, if_neg hne]
      exact hstr

/-- **Nothing changes in a document without blank lines.** -/
theorem compress_noBlank (h : d.Holds t) (hb : d.buf ≠ []) (hn : NoBlank c t) :
    compressCopy c t = .ok (t, 0, 0) ∧ d.compress c = .ok d := by
  have hcopy : compressCopy c t = .ok (t, 0, 0) := by
    rw [compressCopy, compressLoop_id (t.length + 1) [] 0 hn (by omega)]
    rfl
  obtain ⟨rest, hrest⟩ := h.buf hb
  have hstore : d.buf.storeAll 0 (t ++ [0]) = some d.buf := by
    rw [hrest, Buffer.storeAll_eq (by simp)]
    have hdrop : (t.map some ++ some 0 :: rest).drop (0 + (t ++ [(0 : WChar)]).length) = rest := by
      rw [show t.map some ++ some 0 :: rest = (t ++ [(0 : WChar)]).map some ++ rest by simp, Nat.zero_add,
        ← List.length_map some, List.drop_left]
    rw [hdrop]
    simp
  refine ⟨hcopy, ?_⟩
  simp only [Pstring.compress, if_neg hb, h.string hb, hcopy, hstore, access, bind,
    Except.bind, pure, Except.pure]
  rw [if_neg (by simp)]

/-- When the text kept is there after compressing, with its length, nothing was removed. -/
theorem compress_holds_noBlank (h : d.Holds t) {out : WStr} {count blanks : Nat}
    (hcopy : compressCopy c t = .ok (out, count, blanks)) (hcomp : d.compress c = .ok d') (hout : d'.Holds out) :
    d.buf ≠ [] ∧ NoBlank c t := by
  have hb : d.buf ≠ [] := by
    intro hb
    rw [Pstring.compress, if_pos hb] at hcomp
    cases hcomp
  refine ⟨hb, ?_⟩
  unfold Pstring.compress at hcomp
  rw [if_neg hb] at hcomp
  obtain ⟨text, htext, hcomp⟩ := ok_of_bind hcomp
  obtain rfl := Option.some.inj ((h.string hb).symm.trans (access_ok htext))
  obtain ⟨r, hr, hcomp⟩ := ok_of_bind hcomp
  obtain rfl := Except.ok.inj (hcopy.symm.trans hr)
  obtain ⟨buf, -, hcomp⟩ := ok_of_bind hcomp
  simp only at hcomp
  split at hcomp
  · -- the new length leaves no cell for the terminator, or is not that of the text
    exfalso
    obtain ⟨buf', hstore, hcomp⟩ := ok_of_bind hcomp
    obtain rfl := Except.ok.inj hcomp
    obtain ⟨hpos, hlen⟩ := Buffer.length_store (access_ok hstore)
    rw [Buffer.length_realloc] at hlen
    have hcont := hout.content
    rw [Pstring.content, if_neg (List.ne_nil_of_length_pos (Nat.zero_lt_of_lt hpos))] at hcont
    have hlt := Buffer.length_lt_of_string hcont
    have hout' := hout.len
    simp only at hout' hlt
    omega
  · obtain rfl := Except.ok.inj hcomp
    have hlen : out.length = t.length := hout.len.symm.trans h.len
    exact compressLoop_lossless _ hcopy (by simpa using hlen)

/-- **After compressing, the buffer holds what the copy loop kept, with its length, exactly when there
is nothing to remove**: the document is not empty and has no two newlines in a row and no two remove
characters before a newline. -/
theorem compress_keeps_iff {as : List Appending} (hz : ∀ a ∈ as, 0 ∉ a.appended) {d₀ : Pstring}
    (happ : as.foldlM Appending.run (some pstringNew) = .ok (some d₀)) (hchomp : d₀.chomp c = .ok d) :
    ∃ text, d.Holds text ∧
      ((∃ out count blanks d', compressCopy c text = .ok (out, count, blanks) ∧ d.compress c = .ok d' ∧
          d'.Holds out) ↔
        d.buf ≠ [] ∧ ¬ [nl, nl] <:+: text ∧ ¬ [c, c, nl] <:+: text) := by
  obtain ⟨d₁, hd₁, hholds⟩ := appends_holds holds_new hz happ
  obtain rfl := Option.some.inj hd₁
  have h := chomp_holds c hholds
  split at h
  · rename_i text htext
    obtain ⟨d₂, hd₂, htextd, -⟩ := h
    obtain rfl := Except.ok.inj (hchomp.symm.trans hd₂)
    refine ⟨text, htextd, ?_⟩
    rw [← noBlank_iff]
    constructor
    · rintro ⟨out, count, blanks, d', hcopy, hcomp, hout⟩
      exact compress_holds_noBlank htextd hcopy hcomp hout
    · rintro ⟨hb, hn⟩
      obtain ⟨hcopy, hcomp⟩ := compress_noBlank htextd hb hn
      exact ⟨text, 0, 0, d, hcopy, hcomp, htextd⟩
  · rw [hchomp] at h
    cases h

/-- Two lines are kept. -/
theorem compress_keeps_two :
    ∃ d₀ d, [Appending.text (lit "a\n"), .text (lit "b\n")].foldlM Appending.run (some pstringNew) =
      .ok (some d₀) ∧
      d₀.chomp 32 = .ok d ∧ ∃ out count blanks d', compressCopy 32 (lit "a\nb\n") = .ok (out, count, blanks) ∧
        d.compress 32 = .ok d' ∧ d'.Holds out := by
  have happ : [Appending.text (lit "a\n"), .text (lit "b\n")].foldlM Appending.run (some pstringNew) =
      .ok (some (.ofText (lit "a\nb\n"))) := rfl
  have hchomp : (Pstring.ofText (lit "a\nb\n")).chomp 32 = .ok (.ofText (lit "a\nb\n")) := rfl
  obtain ⟨text, htext, h⟩ := compress_keeps_iff (by decide) happ hchomp
  obtain rfl : text = lit "a\nb\n" := Option.some.inj (htext.content.symm.trans (by decide))
  exact ⟨_, _, happ, hchomp, h.2 (by decide)⟩

/-- An empty line in the document: the last newline is overwritten, and the length counts it. -/
theorem compress_cuts_last :
    ∃ d₀ d d', [Appending.text (lit "a\n"), .text (lit "\nb\n")].foldlM Appending.run (some pstringNew) =
      .ok (some d₀) ∧
      d₀.chomp 32 = .ok d ∧ d.Holds (lit "a\n\nb\n") ∧
      compressCopy 32 (lit "a\n\nb\n") = .ok (lit "a\nb\n", 0, 1) ∧ d.compress 32 = .ok d' ∧
      d'.content = some (lit "a\nb") ∧ d'.len = 4 :=
  ⟨.ofText (lit "a\n\nb\n"), .ofText (lit "a\n\nb\n"), ⟨(lit "a\nb").map some ++ [some 0], 4, 16⟩, rfl, rfl,
    ⟨by decide, rfl⟩, rfl, rfl, by decide, rfl⟩

/-! ## JSON and XML documents -/

theorem Settled.noBlank (h : Settled u t) : NoBlank u t := fun _ _ hpr => h.no_run hpr

variable {cfg : Config}

/-- **Compressing does not change a JSON or XML document**, neither its text nor its length: the two
ways out of `main` show the same. -/
theorem compress_finished (hf : cfg.outputFormat = .json ∨ cfg.outputFormat = .xml)
    (hctl : ∀ c : WChar, c.val < 0x20 → cfg.locale.iswprint c = false)
    (hu : cfg.indentChar = bytes " " ∧ cfg.wideIndentChar = 0x20 ∨
      cfg.indentChar = bytes "\t" ∧ cfg.wideIndentChar = 0x09)
    (ha : 0 < cfg.indentAmount) {calls : Calls} (hne : calls ≠ .nil) (hfit : calls.fits cfg.outputFormat false)
    (henc : calls.Encodable cfg) {es : List Event}
    (hes : if cfg.outputFormat = .json then es = calls.events else eraseObjects es = calls.events) :
    ∃ s, runDocument cfg es = .ok s ∧
      ∀ (as : List Appending) (d₀ : Pstring), (∀ a ∈ as, 0 ∉ a.appended) → as.flatMap Appending.appended = s.doc →
        as.foldlM Appending.run (some pstringNew) = .ok (some d₀) →
        ∃ d, d₀.chomp cfg.wideIndentChar = .ok d ∧ d.compress cfg.wideIndentChar = .ok d ∧ d.Holds s.doc := by
  have hunit : cfg.indentUnit = cfg.wideIndentChar ∧ Json.isWs cfg.wideIndentChar = true ∧
    cfg.wideIndentChar ≠ nl := by
    rcases hu with ⟨h₁, h₂⟩ | ⟨h₁, h₂⟩
    · rw [Config.indentUnit, if_pos h₁, h₂]
      exact ⟨rfl, rfl, by decide⟩
    · rw [Config.indentUnit, if_neg (by rw [h₁]; decide), h₂]
      exact ⟨rfl, rfl, by decide⟩
  obtain ⟨hunit, hws, hun⟩ := hunit
  rw [← hunit] at hws hun ⊢
  obtain ⟨s, t, hrun, hdoc, hsolid⟩ := run_solid hf (hctl nl (by decide)) hws hun (by omega) hne hfit henc hes
  refine ⟨s, hrun, fun as d₀ hz hflat happ => ?_⟩
  obtain ⟨d₁, hd₁, hholds⟩ := appends_holds holds_new hz happ
  obtain rfl := Option.some.inj hd₁
  rw [List.nil_append, hflat, hdoc] at hholds
  have hchomp := chomp_holds cfg.indentUnit hholds
  rw [chomp_settled hsolid.ends] at hchomp
  obtain ⟨d, hd, hdh, -⟩ := hchomp
  exact ⟨d, hd, (compress_noBlank hdh (hdh.buf_ne_nil (by simp)) hsolid.newline.noBlank).2, hdoc ▸ hdh⟩

/-- A JSON document of one section. -/
theorem compress_finished_section :
    let cfg : Config := { outputFormat := .json, locale := posixLocale, indentAmount := 1 }
    let calls : Calls := .group (.sect (bytes "a")) (.entry (bytes "b") (lit "c") .nil) .nil
    ∃ s d₀ d, runDocument cfg calls.events = .ok s ∧
      [Appending.text s.doc].foldlM Appending.run (some pstringNew) = .ok (some d₀) ∧
      d₀.chomp 0x20 = .ok d ∧ d.compress 0x20 = .ok d ∧ d.Holds s.doc := by
  intro cfg calls
  obtain ⟨s, hs, h⟩ := compress_finished (show cfg.outputFormat = .json ∨ cfg.outputFormat = .xml from Or.inl rfl)
    posixLocale_standard.cntrl (Or.inl ⟨rfl, rfl⟩) (by decide) (show calls ≠ .nil by decide)
    (by decide) (by decide)
    (show if cfg.outputFormat = .json then calls.events = calls.events
      else eraseObjects calls.events = calls.events
      from rfl)
  have hdoc : (runDocument cfg calls.events).map (·.doc) =
      .ok (lit "\x7b\n \"a\" : \x7b\n  \"b\" : \"c\"\n \x7d\n\x7d\n") := by decide +kernel
  rw [hs] at hdoc
  have hz : ∀ t ∈ [s.doc], 0 ∉ t := by
    intro t ht
    rw [List.mem_singleton.1 ht, show s.doc = _ from Except.ok.inj hdoc]
    simp [lit, CodePoint.ofChar]
  obtain ⟨d₀, happ, -⟩ := texts_run holds_new hz
  obtain ⟨d, hd⟩ := h [.text s.doc] d₀ (by simpa [Appending.appended] using hz)
    (by simp [Appending.appended]) happ
  exact ⟨s, d₀, d, hs, happ, hd⟩

end Procenv
