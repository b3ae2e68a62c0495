import Procenv.Model.Translate
import Procenv.Proof.Append
import Procenv.Proof.Encode

/-!
# `output_translate` is a substitution

The buffer of the result has room for the text with all replacements and its terminator
(`length_translate`). The second loop keeps the buffer as the text so far and zeros behind
it (`zeros`): the next chunk is appended where the zeros start.

* `cat_zeros`: appending in front of the zeros.
* `translateCells_eq`: the second loop.
* `outputTranslatePstring_refines`: **the whole function**.
-/

namespace Procenv

open Text Data

variable {fmt : OutputFormat} {s t out : WStr} {k : Nat}

/-- A text in a buffer of `n` cells, with zeros behind it. -/
def zeros (n : Nat) (out : WStr) : Buffer WChar := out.map some ++ List.replicate (n - out.length) (some 0)

theorem length_zeros {n : Nat} (h : out.length ≤ n) : (zeros n out).length = n := by
  simp only [zeros, List.length_append, List.length_map, List.length_replicate]
  omega

theorem zeros_string {n : Nat} (h : out.length < n) (h0 : 0 ∉ out) :
    Buffer.string 0 (zeros n out) = some out := by
  obtain ⟨k, hk⟩ : ∃ k, n - out.length = k + 1 := ⟨n - out.length - 1, by omega⟩
  rw [zeros, hk, List.replicate_succ]
  exact Buffer.string_map h0 _

/-- The cells behind the text are zeros. -/
theorem zeros_last {n : Nat} (h : out.length < n) : (zeros n out)[n - 1]? = some (some 0) := by
  rw [zeros, List.getElem?_append_right (by simp; omega), List.getElem?_replicate, if_pos (by simp; omega)]

/-- **Appending in front of the zeros.** -/
theorem cat_zeros {n : Nat} (src : WStr) (amount : Nat) (h : out.length + (src.take amount).length < n) :
    (zeros n out).cat 0 out.length src amount = some (zeros n (out ++ src.take amount)) := by
  have hcut : (zeros n out).cat 0 out.length src amount =
    (zeros n out).cat 0 out.length (src.take amount) amount := by
    simp [Buffer.cat, List.take_take]
  have hdrop : (zeros n out).drop out.length = some 0 :: List.replicate (n - out.length - 1) (some 0) := by
    obtain ⟨k, hk⟩ : ∃ k, n - out.length = k + 1 := ⟨n - out.length - 1, by omega⟩
    have hlen : (out.map some).length = out.length := List.length_map some
    rw [zeros, hk, ← hlen, List.drop_left]
    rfl
  rw [hcut, Buffer.cat_eq hdrop (List.length_take_le _ _) (by rw [length_zeros (by omega)]; exact h)]
  congr 1
  have hlen : (out.map some).length = out.length := List.length_map some
  have htake : (zeros n out).take out.length = out.map some := by
    rw [zeros, ← hlen, List.take_left]
  have hrest : (zeros n out).drop (out.length + ((src.take amount).length + 1)) =
      List.replicate (n - (out.length + ((src.take amount).length + 1))) (some 0) := by
    rw [zeros, ← hlen, List.drop_length_add_append, List.drop_replicate]
    congr 1
    omega
  rw [htake, hrest, zeros, List.map_append, List.map_append, List.append_assoc,
    List.append_assoc, List.append_assoc]
  congr 2
  rw [List.length_append]
  have hsucc : n - (out.length + (src.take amount).length) =
    n - (out.length + ((src.take amount).length + 1)) + 1 := by
    omega
  rw [hsucc, List.replicate_succ]
  rfl

theorem assertTerminator_zeros {n : Nat} (h : out.length < n) : assertTerminator (zeros n out) n = .ok () := by
  rw [assertTerminator, zeros_last h]
  rfl

/-! ## The first loop -/

theorem translateExtra_cons (c : WChar) (s : WStr) :
    translateExtra fmt (c :: s) = translateExtraChar fmt c + translateExtra fmt s := by
  simp [translateExtra, translateExtraChar]

theorem translateCount_eq (h0 : 0 ∉ s) (rest : Buffer WChar) (extra : Nat) :
    translateCount fmt (s.map some ++ some 0 :: rest) extra = .ok (extra + translateExtra fmt s) := by
  induction s generalizing extra with
  | nil => simp [translateCount, translateExtra]
  | cons c s ih =>
    rw [List.mem_cons, not_or] at h0
    have hc : c ≠ 0 := Ne.symm h0.1
    rw [List.map_cons, List.cons_append, translateCount, if_neg hc, ih h0.2, translateExtra_cons, Nat.add_assoc]

/-- The characters counted are those that the replacements need. -/
theorem translateExtraChar_eq {c : WChar} (hc : c ≠ 0) :
    (translateChar fmt c).length = 1 + translateExtraChar fmt c := by
  -- a character has one entry at most, apart from the terminators
  cases fmt with
  | text | crumb => simp [translateChar, translateExtraChar, translateTable]
  | json =>
    by_cases h1 : c = 34
    · subst h1
      rfl
    · by_cases h2 : c = 92
      · subst h2
        rfl
      · simp [translateChar, translateExtraChar, translateTable, hc, h1, h2]
  | xml =>
    by_cases h1 : c = 39
    · subst h1
      rfl
    · by_cases h2 : c = 34
      · subst h2
        rfl
      · by_cases h3 : c = 38
        · subst h3
          rfl
        · by_cases h4 : c = 60
          · subst h4
            rfl
          · by_cases h5 : c = 62
            · subst h5
              rfl
            · simp [translateChar, translateExtraChar, translateTable, hc, h1, h2, h3, h4, h5]

theorem length_translate (h0 : 0 ∉ s) :
    (s.flatMap (translateChar fmt)).length = s.length + translateExtra fmt s := by
  induction s with
  | nil => rfl
  | cons c s ih =>
    rw [List.mem_cons, not_or] at h0
    rw [List.flatMap_cons, List.length_append, ih h0.2, translateExtraChar_eq (Ne.symm h0.1), translateExtra_cons,
      List.length_cons]
    omega

/-! ## The second loop -/

theorem translateCat_zeros {n : Nat} (out src : WStr) {amount : Nat} (hamount : amount ≤ src.length)
    (h : out.length + amount < n) (size : Nat) :
    translateCat ⟨zeros n out, out.length, size⟩ src amount =
      .ok ⟨zeros n (out ++ src.take amount), (out ++ src.take amount).length, size⟩ := by
  have hlen : (src.take amount).length = amount := List.length_take_of_le hamount
  rw [translateCat, cat_zeros src amount (by rw [hlen]; exact h)]
  simp [access, hlen]

/-- The string from a cell of the input on. -/
theorem string_drop {buf : Buffer WChar} {a b : WStr} (h : Buffer.string 0 buf = some (a ++ b)) :
    Buffer.string 0 (buf.drop a.length) = some b := by
  obtain ⟨h0, rest, rfl⟩ := Buffer.string_eq_some.1 h
  have hlen : (a.map some).length = a.length := List.length_map some
  rw [List.map_append, List.append_assoc, ← hlen, List.drop_left]
  exact Buffer.string_map (fun hb => h0 (List.mem_append_right _ hb)) rest

/-- A match has a text, which is the replacement. -/
theorem translate_match {c : WChar} (hc : c ≠ 0) {e : TranslateMapEntry}
    (he : (translateTable fmt).find? (fun e => c = e.fromChar) = some e) :
    e.toText = some (translateChar fmt c) := by
  have hfrom : c = e.fromChar := by simpa using List.find?_some he
  have hlen := translateTable_entry (List.mem_of_find?_eq_some he) (hfrom ▸ hc)
  cases htext : e.toText with
  | none => simp [htext] at hlen
  | some text => simp [translateChar, he, htext]

/-- **The second loop.** Up to `done` the text is translated and in the result; the characters of `chunk`
stay as they are and are not copied yet; `todo` is still to read. -/
theorem translateCells_eq {buf rest : Buffer WChar} {n : Nat} (size : Nat) (hbuf : Buffer.string 0 buf = some s)
    (hroom : (s.flatMap (translateChar fmt)).length < n)
    {done chunk todo : WStr} (hall : done ++ chunk ++ todo = s)
    (hchunk : chunk.flatMap (translateChar fmt) = chunk) :
    ∃ done' chunk', done' ++ chunk' = s ∧ chunk'.flatMap (translateChar fmt) = chunk' ∧
      translateCells fmt buf (todo.map some ++ some 0 :: rest) (done ++ chunk).length done.length
          ⟨zeros n (done.flatMap (translateChar fmt)), (done.flatMap (translateChar fmt)).length, size⟩ =
        .ok (s.length, done'.length,
          ⟨zeros n (done'.flatMap (translateChar fmt)), (done'.flatMap (translateChar fmt)).length, size⟩) := by
  induction todo generalizing done chunk with
  | nil =>
    rw [List.append_nil] at hall
    exact ⟨done, chunk, hall, hchunk, by rw [← hall]; simp [translateCells]⟩
  | cons c todo ih =>
    have hc : c ≠ 0 := by
      rintro rfl
      exact (Buffer.string_eq_some.1 hbuf).1 (by rw [← hall]; simp)
    rw [List.map_cons, List.cons_append, translateCells, if_neg hc]
    cases he : (translateTable fmt).find? (fun e => c = e.fromChar) with
    | none =>
      -- the character joins the chunk
      have hself : translateChar fmt c = [c] := by rw [translateChar, he]
      obtain ⟨done', chunk', hsplit, hchunk', hrun⟩ :=
        @ih done (chunk ++ [c]) (by simpa using hall) (by simp [hchunk, hself])
      have hnext : (done ++ (chunk ++ [c])).length = (done ++ chunk).length + 1 := by simp [Nat.add_assoc]
      rw [hnext] at hrun
      exact ⟨done', chunk', hsplit, hchunk', hrun⟩
    | some e =>
      -- the chunk and the replacement are copied
      have htranslated : (done ++ chunk ++ [c]).flatMap (translateChar fmt) =
          done.flatMap (translateChar fmt) ++ chunk ++ translateChar fmt c := by simp [hchunk]
      obtain ⟨done', chunk', hsplit, hchunk', hrun⟩ :=
        @ih (done ++ chunk ++ [c]) [] (by simpa using hall) rfl
      refine ⟨done', chunk', hsplit, hchunk', ?_⟩
      have hstring : Buffer.string 0 (buf.drop done.length) = some (chunk ++ c :: todo) := by
        apply string_drop
        rw [hbuf, ← hall, List.append_assoc]
      have hfits : (done.flatMap (translateChar fmt)).length + chunk.length +
        (translateChar fmt c).length < n := by
        have hall' : done ++ chunk ++ [c] ++ todo = s := by simpa using hall
        rw [← hall', List.flatMap_append, htranslated] at hroom
        simp only [List.length_append] at hroom
        omega
      have hchunkLe : chunk.length ≤ (chunk ++ c :: todo).length := by simp
      have hchunkFits : (done.flatMap (translateChar fmt)).length + chunk.length < n := by omega
      have hcopy := translateCat_zeros _ _ hchunkLe hchunkFits size
      have hreplace := translateCat_zeros (done.flatMap (translateChar fmt) ++ chunk) (translateChar fmt c)
        (Nat.le_refl _) (by rw [List.length_append]; exact hfits) size
      rw [List.take_left] at hcopy
      rw [List.take_length] at hreplace
      have hamount : (done ++ chunk).length - done.length = chunk.length := by simp
      have hnext : (done ++ chunk ++ [c]).length = (done ++ chunk).length + 1 := by simp [Nat.add_assoc]
      rw [List.append_nil, htranslated, hnext] at hrun
      simp only [hstring, access, translate_match hc he, hamount, hcopy, hreplace, bind, Except.bind]
      exact hrun

theorem zero_notMem_translate (h0 : 0 ∉ s) : 0 ∉ s.flatMap (translateChar fmt) := by
  intro hmem
  obtain ⟨c, hc, hzero⟩ := List.mem_flatMap.1 hmem
  exact zero_notMem_translateChar (fun hc0 => h0 (hc0 ▸ hc)) hzero

/-- **The cells hold the translation**, whether there is something to translate or not. -/
theorem outputTranslatePstring_refines (hfmt : fmt = .xml ∨ fmt = .json) {pstr : Pstring}
    (hbuf : Buffer.string 0 pstr.buf = some s) (hlen : pstr.len = s.length + 1) :
    ∃ result, outputTranslatePstring fmt pstr = .ok result ∧
      Buffer.string 0 result.buf = some (outputTranslate fmt s) ∧
      result.len = (outputTranslate fmt s).length + 1 ∧
      result.len ≤ result.buf.length ∧ result.size = result.buf.length * sizeofWchar := by
  obtain ⟨h0, rest, hcells⟩ := Buffer.string_eq_some.1 hbuf
  rw [outputTranslate_eq h0]
  have hne : pstr.buf ≠ [] := by simp [hcells]
  have hformat : ¬ (fmt = .text ∨ fmt = .crumb) := by
    rintro (rfl | rfl) <;> rcases hfmt with h | h <;> cases h
  have hcount : translateCount fmt pstr.buf 0 = .ok (translateExtra fmt s) := by
    rw [hcells, translateCount_eq h0, Nat.zero_add]
  have hlength : (s.flatMap (translateChar fmt)).length = s.length + translateExtra fmt s := length_translate h0
  by_cases hextra : translateExtra fmt s = 0
  · -- the shortcut
    have hself : s.flatMap (translateChar fmt) = s := by
      rw [List.flatMap_congr (translateChar_of_extra h0 hextra)]
      simp
    rw [hself]
    refine ⟨pstringCreate s, ?_, Buffer.string_map h0 [], Nat.add_comm 1 _, ?_, ?_⟩
    · simp only [outputTranslatePstring, hformat, hne, hcount, hextra, hbuf, access, if_false, if_true, bind,
        Except.bind, pure, Except.pure]
    · simp [pstringCreate, Nat.add_comm]
    · simp [pstringCreate, Nat.add_comm]
  · -- the cells of the result, with the one for the terminator
    have hn : pstr.len + translateExtra fmt s = (s.flatMap (translateChar fmt)).length + 1 := by omega
    generalize hcellsLen : pstr.len + translateExtra fmt s = n at hn
    have hroom : (s.flatMap (translateChar fmt)).length < n := by omega
    have hzeros : List.replicate n (some 0) = zeros n [] := by simp [zeros]
    obtain ⟨done, chunk, hall, hchunk, hrun⟩ :=
      @translateCells_eq fmt s pstr.buf rest n (n * sizeofWchar) hbuf hroom [] [] s rfl rfl
    have hloop : translateCells fmt pstr.buf pstr.buf 0 0 ⟨List.replicate n (some 0), 0, n * sizeofWchar⟩ =
        .ok (s.length, done.length, ⟨zeros n (done.flatMap (translateChar fmt)),
          (done.flatMap (translateChar fmt)).length, n * sizeofWchar⟩) := by
      rw [← hcells] at hrun
      rw [hzeros]
      exact hrun
    -- the chunk behind the last match
    have htranslated : done.flatMap (translateChar fmt) ++ chunk = s.flatMap (translateChar fmt) := by
      rw [← hall, List.flatMap_append, hchunk]
    have hstring : Buffer.string 0 (pstr.buf.drop done.length) = some chunk := string_drop (by rw [hbuf, hall])
    have hamount : s.length - done.length = chunk.length := by rw [← hall]; simp
    have hfits : (done.flatMap (translateChar fmt)).length + chunk.length < n := by
      rw [← List.length_append, htranslated]
      exact hroom
    have hcopy := translateCat_zeros _ chunk (Nat.le_refl _) hfits (n * sizeofWchar)
    rw [List.take_length, htranslated] at hcopy
    have hbegin : assertTerminator (List.replicate n (some 0)) n = .ok () := by
      rw [hzeros]
      exact assertTerminator_zeros (Nat.lt_of_le_of_lt (Nat.zero_le _) hroom)
    refine ⟨⟨zeros n (s.flatMap (translateChar fmt)), (s.flatMap (translateChar fmt)).length + 1,
      n * sizeofWchar⟩,
      ?_, zeros_string hroom (zero_notMem_translate h0), rfl, ?_, ?_⟩
    · simp only [outputTranslatePstring, hformat, hne, hcount, hextra, hcellsLen, hbegin, hloop,
        hstring, hamount, hcopy, assertTerminator_zeros hroom, access, if_false, bind,
        Except.bind, pure, Except.pure]
    · rw [length_zeros (Nat.le_of_lt hroom)]
      exact hroom
    · rw [length_zeros (Nat.le_of_lt hroom)]

/-- **What `output_translate` returns**: the text with every character replaced by its entry of the table
or left as it is, with its length, in a buffer that has room for it. -/
theorem outputTranslatePstring_eq (hfmt : fmt = .xml ∨ fmt = .json) {pstr : Pstring}
    (hbuf : Buffer.string 0 pstr.buf = some s) (hlen : pstr.len = s.length + 1) :
    ∃ result, outputTranslatePstring fmt pstr = .ok result ∧
      Buffer.string 0 result.buf = some (s.flatMap (translateChar fmt)) ∧
      result.len = (s.flatMap (translateChar fmt)).length + 1 ∧
      result.len ≤ result.buf.length ∧ result.size = result.buf.length * sizeofWchar := by
  have h0 : 0 ∉ s := (Buffer.string_eq_some.1 hbuf).1
  rw [← outputTranslate_eq h0]
  exact outputTranslatePstring_refines hfmt hbuf hlen

/-- Two replacements next to each other at the end. -/
theorem outputTranslatePstring_eq_adjacent :
    ∃ result, outputTranslatePstring .xml (pstringCreate (lit "a<&")) = .ok result ∧
      Buffer.string 0 result.buf = some (lit "a&lt;&amp;") ∧ result.len = 11 ∧
      result.len ≤ result.buf.length ∧ result.size = result.buf.length * sizeofWchar := by
  have htext : (lit "a<&").flatMap (translateChar .xml) = lit "a&lt;&amp;" := by decide
  have hbuf : Buffer.string 0 (pstringCreate (lit "a<&")).buf = some (lit "a<&") := by decide
  have hresult := outputTranslatePstring_eq (Or.inl rfl) hbuf rfl
  rwa [htext] at hresult

end Procenv
