import Procenv.Model.InPlace
import Procenv.Proof.Length

/-!
# Chomping and compressing stay in the buffer

The functions that work by index are those that work on texts: `PointsTo` relates an index
to the text that starts there, and each loop follows the one on texts. The copy loop writes
behind what it reads, so that the cells from `src` on are always those of the start.

* `chompAt_eq`, `compressAt_eq`: **the functions by index are those on texts**.
* `chompAt_compressAt`: **no access is out of bounds** in a document that is not blank.
-/

namespace Procenv

open Text Data

variable {c x : WChar} {s t out : WStr} {d d' : Pstring} {fn : String} {buf : Buffer WChar} {len i j : Nat}

/-! ## Indices -/

/-- The cells from `i` on are the end `s` of a string of length `len`, and its terminator. -/
structure PointsTo (buf : Buffer WChar) (len i : Nat) (s : WStr) : Prop where
  cells : ∃ rest, buf.drop i = s.map some ++ some 0 :: rest
  bound : i + s.length = len

theorem PointsTo.next (h : PointsTo buf len i (x :: s)) : PointsTo buf len (i + 1) s := by
  obtain ⟨rest, hcells⟩ := h.cells
  refine ⟨⟨rest, ?_⟩, ?_⟩
  · rw [← List.drop_drop, hcells]
    rfl
  · have hbound := h.bound
    simp only [List.length_cons] at hbound
    omega

/-- Reading at an index gives the first character of the text, or its terminator. -/
theorem PointsTo.read (h : PointsTo buf len i s) : readCell fn len buf i = .ok (s.headD 0) := by
  obtain ⟨rest, hcells⟩ := h.cells
  have hcell : buf[i]? = some (some (s.headD 0)) := by
    have hget : buf[i]? = (buf.drop i)[0]? := by simp
    rw [hget, hcells]
    cases s <;> rfl
  have hle : i ≤ len := by
    have hbound := h.bound
    omega
  rw [readCell, if_pos hle, hcell]
  rfl

/-- The cells before `i` do not matter. -/
theorem PointsTo.congr {buf' : Buffer WChar} (h : PointsTo buf len i s) (hdrop : buf'.drop i = buf.drop i) :
    PointsTo buf' len i s := by
  refine ⟨?_, h.bound⟩
  rw [hdrop]
  exact h.cells

theorem skipBlanksAt_eq (fuel : Nat) (h : PointsTo buf len i s) (hlen : s.length < fuel) (b : Nat) :
    ∃ j, skipBlanksAt len buf fuel i b = .ok (j, (skipBlanks s b).2) ∧ PointsTo buf len j (skipBlanks s b).1 := by
  induction fuel generalizing s i b with
  | zero => omega
  | succ fuel ih =>
    rw [skipBlanksAt, h.read]
    rcases s with _ | ⟨x, s⟩
    · exact ⟨i, rfl, h⟩
    · by_cases hx : x = nl
      · subst hx
        simp only [List.headD_cons, ne_eq, not_true_eq_false, if_false, bind, Except.bind, h.next.read]
        rcases s with _ | ⟨y, s⟩
        · exact ⟨i, rfl, h⟩
        · by_cases hy : y = nl
          · subst hy
            obtain ⟨j, hrun, hj⟩ := ih h.next (by simpa using hlen) (b + 1)
            exact ⟨j, hrun, hj⟩
          · simp only [List.headD_cons, skipBlanks, hy, and_false, not_false_eq_true, if_true, if_false]
            exact ⟨i, rfl, h⟩
      · have hskip : skipBlanks (x :: s) b = (x :: s, b) := by
          cases s <;> simp [skipBlanks, hx]
        rw [hskip]
        simp only [List.headD_cons, bind, Except.bind, ne_eq, hx, not_false_eq_true, if_true]
        exact ⟨i, rfl, h⟩

theorem skipCharsAt_eq (hx : x ≠ 0) {m : Nat} (hs : s.head? ≠ some x) (fuel : Nat)
    (h : PointsTo buf len i (List.replicate m x ++ s)) (hlen : m + s.length < fuel) (k : Nat) :
    skipCharsAt len x buf fuel i k = .ok (i + m, k + m) ∧ PointsTo buf len (i + m) s := by
  induction m generalizing i k fuel with
  | zero =>
    obtain ⟨fuel, rfl⟩ : ∃ f, fuel = f + 1 := ⟨fuel - 1, by omega⟩
    rw [List.replicate_zero, List.nil_append] at h
    have hhead : s.headD 0 ≠ x := by
      cases s with
      | nil => exact Ne.symm hx
      | cons y s => simpa using hs
    rw [skipCharsAt, h.read]
    simp only [bind, Except.bind, ne_eq, hhead, not_false_eq_true, if_true]
    exact ⟨rfl, h⟩
  | succ m ih =>
    obtain ⟨fuel, rfl⟩ : ∃ f, fuel = f + 1 := ⟨fuel - 1, by omega⟩
    rw [List.replicate_succ, List.cons_append] at h
    obtain ⟨hrun, hend⟩ := ih fuel h.next (by omega) (k + 1)
    have hi : i + (m + 1) = i + 1 + m := by omega
    have hk : k + (m + 1) = k + 1 + m := by omega
    rw [skipCharsAt, h.read, hi, hk]
    simp only [List.headD_cons, bind, Except.bind, ne_eq, not_true_eq_false, if_false]
    exact ⟨hrun, hend⟩

/-- **A round by index** is a round on the text. -/
theorem compressRoundAt_eq (hc : c ≠ 0) (h : PointsTo buf len i s) (count blanks : Nat) :
    let round := compressRound c s count blanks
    ∃ j, compressRoundAt len c buf i count blanks = .ok (j, round.again, round.count, round.blanks) ∧
      PointsTo buf len j round.src := by
  have hfuel : ∀ {i s}, PointsTo buf len i s → s.length < len + 1 := by
    intro i s h
    have hbound := h.bound
    omega
  obtain ⟨start, hblanks, hstart⟩ := skipBlanksAt_eq (len + 1) h (hfuel h) blanks
  obtain ⟨m, r, hrun, hsplit, hr⟩ := skipRun_eq (c := c) (s := (skipBlanks s blanks).1) 0
  have hstart' := hstart
  rw [hsplit] at hstart
  have hlen := hfuel hstart
  rw [List.length_append, List.length_replicate] at hlen
  obtain ⟨hchars, hend⟩ := skipCharsAt_eq hc hr (len + 1) hstart hlen count
  simp only [compressRoundAt, compressRound, hblanks, hrun, hchars, bind, Except.bind, Nat.zero_add]
  by_cases hm : m = 0
  · subst hm
    simp only [Nat.add_zero, ne_eq, not_true_eq_false, if_false]
    exact ⟨start, rfl, hstart'⟩
  have hmoved : start + m ≠ start := by omega
  rw [if_pos hmoved, if_pos hm, hend.read]
  have hcond : (r.headD 0 = nl ∧ start + m ≠ start + 1) ↔ (r.head? = some nl ∧ m ≠ 1) := by
    cases r with
    | nil => simp [show (0 : WChar) ≠ nl by decide]
    | cons y r => simp
  simp only [hcond]
  by_cases hrm : r.head? = some nl ∧ m ≠ 1
  · rw [if_pos hrm, if_pos hrm]
    obtain ⟨k, hk, hskip⟩ := skipNewlines_eq (s := r)
    rw [hk] at hend
    have hlen' := hfuel hend
    rw [List.length_append, List.length_replicate] at hlen'
    obtain ⟨hnewlines, hend'⟩ := skipCharsAt_eq (by decide) hskip (len + 1) hend hlen' 0
    have hhead : (skipNewlines r).headD 0 = c ↔ (skipNewlines r).head? = some c := by
      cases skipNewlines r with
      | nil => simp [Ne.symm hc]
      | cons y q => simp
    simp only [hnewlines, hend'.read, hhead]
    by_cases hrc : (skipNewlines r).head? = some c
    · simp only [if_pos hrc]
      exact ⟨_, rfl, hend'⟩
    · simp only [if_neg hrc]
      exact ⟨_, rfl, hend'⟩
  · rw [if_neg hrm, if_neg hrm]
    exact ⟨start, rfl, hstart'⟩

/-! ## The copy -/

/-- What `n` characters written from the start leave of the cells. -/
theorem set_written {cells : Buffer WChar} (h : out.length < cells.length) (x : WChar) :
    (out.map some ++ cells.drop out.length).set out.length (some x) =
      (out ++ [x]).map some ++ cells.drop (out ++ [x]).length := by
  have hlen : (out.map some).length = out.length := List.length_map some
  have hcells : cells.drop out.length = cells[out.length] :: cells.drop (out.length + 1) :=
    List.drop_eq_getElem_cons h
  rw [List.set_append_right _ _ (Nat.le_of_eq hlen), hlen, Nat.sub_self, hcells, List.set_cons_zero]
  simp

/-- **The copy loop by index** writes what the loop on texts keeps over the start of the cells. -/
theorem compressLoopAt_eq (hc : c ≠ 0) (cells : Buffer WChar) (fuel : Nat) :
    ∀ {s out out' : WStr} {i count blanks count' blanks' : Nat}, 0 ∉ s →
      PointsTo (out.map some ++ cells.drop out.length) len i s → out.length ≤ i →
      compressLoop c fuel s out count blanks = .ok (out', count', blanks') →
      compressLoopAt len c fuel (out.map some ++ cells.drop out.length) out.length i count blanks =
        .ok (out'.map some ++ cells.drop out'.length, out'.length, count', blanks') := by
  induction fuel with
  | zero => intro s out out' i count blanks count' blanks' _ _ _ h; cases h
  | succ fuel ih =>
    intro s out out' i count blanks count' blanks' hz h hle hrun
    rw [compressLoopAt, h.read]
    rcases s with _ | ⟨x, s⟩
    · obtain ⟨rfl, rfl, rfl⟩ : out = out' ∧ count = count' ∧ blanks = blanks' := by
        simpa [compressLoop] using hrun
      rfl
    have hx : x ≠ 0 := by
      rintro rfl
      exact hz List.mem_cons_self
    obtain ⟨j, hround, hj⟩ := compressRoundAt_eq hc h count blanks
    simp only [List.headD_cons, bind, Except.bind, if_neg hx, hround]
    rw [compressLoop] at hrun
    rcases hr : compressRound c (x :: s) count blanks with ⟨r, again, count₁, blanks₁⟩
    obtain ⟨hsuf, -, -⟩ := compressRound_suffix _ _ _ hr
    rw [hr] at hrun hj
    have hzr : 0 ∉ r := fun h0 => hz (hsuf.mem h0)
    have hij : i ≤ j := by
      have h₁ := h.bound
      have h₂ := hj.bound
      have h₃ := hsuf.length_le
      simp only at h₂
      omega
    cases again with
    | true => exact ih hzr hj (by omega) hrun
    | false =>
      rcases r with _ | ⟨y, r⟩
      · cases hrun
      · -- the character goes to a cell that is read no more
        have hnext := hj.next
        have hjlen : j < len := by
          have hbound := hnext.bound
          omega
        have hcells : out.length < cells.length := by
          obtain ⟨rest, hrest⟩ := hj.cells
          have hlen := congrArg List.length hrest
          simp only [List.length_drop, List.length_append, List.length_map, List.length_cons] at hlen
          omega
        have hstore : Buffer.store (out.map some ++ cells.drop out.length) out.length y =
            some ((out ++ [y]).map some ++ cells.drop (out ++ [y]).length) := by
          rw [Buffer.store, if_pos (by simp; omega), set_written hcells]
        have hdrop : ((out ++ [y]).map some ++ cells.drop (out ++ [y]).length).drop (j + 1) =
            (out.map some ++ cells.drop out.length).drop (j + 1) := by
          rw [← set_written hcells, List.drop_set_of_lt (by omega)]
        simp only [Bool.false_eq_true, if_false, hj.read, List.headD_cons, writeCell,
          if_pos (show out.length ≤ len by omega), hstore, access]
        have hsucc : out.length + 1 = (out ++ [y]).length := by simp
        rw [hsucc]
        exact ih (fun h0 => hzr (List.mem_cons_of_mem _ h0)) (hnext.congr hdrop) (by simp; omega) hrun

/-- **Compressing by index** is compressing, where the copy ends: no access is out of bounds. -/
theorem compressAt_eq (hc : c ≠ 0) (h : d.Holds t) (hb : d.buf ≠ []) {kept : WStr × Nat × Nat}
    (hcopy : compressCopy c t = .ok kept) : ∃ d', d.compressAt c = .ok d' ∧ d.compress c = .ok d' := by
  obtain ⟨out, count, blanks⟩ := kept
  obtain ⟨rest, hrest⟩ := h.buf hb
  have hstart : PointsTo d.buf d.len 0 t := ⟨⟨rest, by rw [List.drop_zero, hrest]⟩, by rw [h.len, Nat.zero_add]⟩
  obtain ⟨hcounts, -, hpos⟩ := compressLoop_counts _ hcopy
  simp only [List.length_nil, Nat.zero_add, Nat.add_zero] at hcounts hpos
  have hloop : compressLoopAt d.len c (d.len + 1) d.buf 0 0 0 0 =
      .ok (out.map some ++ d.buf.drop out.length, out.length, count, blanks) := by
    rw [compressCopy, ← h.len] at hcopy
    exact @compressLoopAt_eq c d.len hc d.buf (d.len + 1) t [] out 0 0 0 count blanks h.noZero hstart
      (Nat.le_refl 0) hcopy
  -- the terminator
  have hcells : out.length < d.buf.length := by
    have hlen := congrArg List.length hrest
    simp only [List.length_append, List.length_map, List.length_cons] at hlen
    omega
  have hend : Buffer.store (out.map some ++ d.buf.drop out.length) out.length 0 =
      some ((out ++ [0]).map some ++ d.buf.drop (out ++ [0]).length) := by
    rw [Buffer.store, if_pos (by simp; omega), set_written hcells]
  have hstores : d.buf.storeAll 0 (out ++ [0]) =
    some ((out ++ [0]).map some ++ d.buf.drop (out ++ [0]).length) := by
    rw [Buffer.storeAll_eq (by simp; omega), List.take_zero, List.nil_append, Nat.zero_add]
  have hout : out.length ≤ d.len := by
    rw [h.len]
    omega
  simp only [Pstring.compressAt, Pstring.compress, if_neg hb, hloop, writeCell, if_pos hout, hend,
    h.string hb, hcopy, hstores, access, bind, Except.bind, pure, Except.pure]
  generalize ((out ++ [0]).map some ++ d.buf.drop (out ++ [0]).length : Buffer WChar) = b
  by_cases hcount : blanks ≠ 0 ∨ count ≠ 0
  · -- something is left of the text, so that the new length is not zero
    have ht : t ≠ [] := by
      rintro rfl
      simp only [List.length_nil] at hcounts
      omega
    have hleft := hpos ht
    obtain ⟨n, hn⟩ : ∃ n, d.len - (blanks + count) = n + 1 := by
      refine ⟨d.len - (blanks + count) - 1, ?_⟩
      rw [h.len]
      omega
    have hfits : ¬ d.len ≤ blanks + count := by omega
    have hlast : n ≤ d.len := by omega
    have hstore : Buffer.store (b.realloc (n + 1)) n 0 = some ((b.realloc (n + 1)).set n (some 0)) := by
      rw [Buffer.store, if_pos (by simp)]
    simp only [if_pos hcount, if_neg hfits, hn, Nat.add_sub_cancel, if_pos hlast, hstore]
    exact ⟨_, rfl, rfl⟩
  · simp only [if_neg hcount]
    exact ⟨_, rfl, rfl⟩

/-! ## Chomping -/

theorem chompLoopAt_eq (h : d.Holds t) (hb : d.buf ≠ []) (p : Nat) (hp : p ≤ t.length) (n : Nat) :
    chompLoopAt c d.len d.buf p n = chompScan c (t.take p).reverse n := by
  induction p generalizing n with
  | zero => rfl
  | succ p ih =>
    obtain ⟨rest, hrest⟩ := h.buf hb
    have hcell : d.buf[p]? = some (some t[p]) := by
      rw [hrest, List.getElem?_append_left (by simp; omega)]
      simp
    have hread : readCell "pstring_chomp" d.len d.buf p = .ok t[p] := by
      rw [readCell, if_pos (by rw [h.len]; omega), hcell]
      rfl
    have htake : (t.take (p + 1)).reverse = t[p] :: (t.take p).reverse := by
      rw [List.take_succ_eq_append_getElem hp]
      simp
    rw [chompLoopAt, hread, htake, chompScan]
    simp only [bind, Except.bind]
    split
    · exact ih (by omega) (n + 1)
    · rfl

/-- **Chomping by index** is chomping. -/
theorem chompAt_eq (c : WChar) (h : d.Holds t) : d.chompAt c = d.chomp c := by
  unfold Pstring.chompAt Pstring.chomp
  by_cases hlen : d.len < 2
  · simp only [if_pos hlen]
  have hb : d.buf ≠ [] := h.buf_ne_nil (by rintro rfl; rw [h.len] at hlen; simp at hlen)
  obtain ⟨rest, hrest⟩ := h.buf hb
  have hbuf : ¬ d.buf.length < d.len := by
    rw [hrest, h.len]
    simp
  have hcells : (d.buf.take d.len).reverse = t.reverse.map some := by
    rw [hrest, h.len, List.take_append_of_le_length (by simp), List.take_of_length_le (by simp), List.map_reverse]
  have hloop : chompLoopAt c d.len d.buf d.len 0 = chompScan c t.reverse 0 := by
    have hall := @chompLoopAt_eq c t d h hb t.length (Nat.le_refl _) 0
    rwa [List.take_length, ← h.len] at hall
  simp only [if_neg hlen, if_neg hbuf, hcells, chompCells_map, hloop, bind, Except.bind]
  cases hk : chompScan c t.reverse 0 with
  | error e => rfl
  | ok k =>
    simp only
    by_cases hgt : k > 1
    · have h₁ : d.len - (k - 1) - 1 ≤ d.len := by omega
      have h₂ : d.len - (k - 1) ≤ d.len := by omega
      simp only [if_pos hgt, writeCell, if_pos h₁, if_pos h₂]
    · simp only [if_neg hgt]

/-- What chomping leaves of a text with another character: it is not empty, and not longer. -/
theorem chomp_ok (hx : ∃ x ∈ t, x ≠ nl ∧ x ≠ c) :
    ∃ s, pstringChomp c t = .ok s ∧ s ≠ [] ∧ s.length ≤ t.length := by
  obtain ⟨p, x, y, rfl, hx, hy⟩ := last_other (t := t) (c := c) (by simpa only [not_or] using hx)
  refine ⟨_, chomp_split hx hy, ?_⟩
  split
  · refine ⟨by simp, ?_⟩
    simp only [List.length_append, List.length_cons, List.length_nil]
    omega
  · exact ⟨by simp, Nat.le_refl _⟩

/-- **Chomping and compressing stay in the buffer**: a document with a character besides newlines and
indent characters is chomped and compressed, both by index, with every access between the start of the
document and its terminator. -/
theorem chompAt_compressAt (hc : c ≠ 0) (h : d.Holds t) (hx : ∃ x ∈ t, x ≠ nl ∧ x ≠ c) :
    ∃ d₁ d₂, d.chompAt c = .ok d₁ ∧ d₁.len ≤ d.len ∧ d₁.compressAt c = .ok d₂ := by
  obtain ⟨s, hs, hne, hle⟩ := chomp_ok hx
  have hchomp := chomp_holds c h
  rw [hs] at hchomp
  obtain ⟨d₁, hd₁, hholds, -⟩ := hchomp
  obtain ⟨w, count, blanks, hkept, -⟩ := compressCopy_squeeze (chomp_ended hs)
  obtain ⟨d₂, hd₂, -⟩ := compressAt_eq hc hholds (hholds.buf_ne_nil hne) hkept
  refine ⟨d₁, d₂, ?_, ?_, hd₂⟩
  · rw [chompAt_eq c h, hd₁]
  · rw [hholds.len, h.len]
    exact hle

theorem chompAt_compressAt_blank :
    ∃ d₁ d₂, (Pstring.ofText (lit "a\n  \nb\n\n ")).chompAt 0x20 = .ok d₁ ∧
      d₁.len ≤ (Pstring.ofText (lit "a\n  \nb\n\n ")).len ∧ d₁.compressAt 0x20 = .ok d₂ :=
  chompAt_compressAt (by decide) (holds_ofText (by decide)) ⟨0x61, by decide, by decide, by decide⟩

end Procenv
