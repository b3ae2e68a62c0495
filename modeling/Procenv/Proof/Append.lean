import Procenv.Data.Outcome
import Procenv.Model.Append

/-!
# What the append functions leave

A document holds a text when the text is the string in its buffer and its length the
number of characters (`Pstring.Holds`). Appending keeps that, and the new text is the
old one followed by what was appended; a `pstring` whose length counts the terminator
(as `pstring_create` makes it) can be appended, but nothing can be appended to it.

* `wappend_eq`, `pappend_eq`: one append.
* `appends_holds`: **a document holds what was appended to it**, one append after another.
-/

namespace Procenv

open Text Data Outcome

variable {d d' : Pstring} {t src : WStr}

/-- The string in the buffer; `NULL` has no characters. -/
def Pstring.content (d : Pstring) : Option WStr := if d.buf = [] then some [] else d.buf.string 0

/-- **The document holds a text**: `len` is `wcslen (buf)`. -/
structure Pstring.Holds (d : Pstring) (t : WStr) : Prop where
  content : d.content = some t
  len : d.len = t.length

/-- The document of a text, in a buffer without further cells. -/
def Pstring.ofText (t : WStr) : Pstring :=
  ⟨t.map some ++ [some 0], t.length, (1 + t.length) * sizeofWchar⟩

theorem holds_new : pstringNew.Holds [] := ⟨rfl, rfl⟩

theorem holds_ofText (h : 0 ∉ t) : (Pstring.ofText t).Holds t :=
  ⟨by rw [Pstring.content, if_neg (by simp [Pstring.ofText])]; exact Buffer.string_map h [], rfl⟩

theorem Pstring.Holds.noZero (h : d.Holds t) : 0 ∉ t := by
  have hc := h.content
  unfold Pstring.content at hc
  split at hc
  · rw [← Option.some.inj hc]
    simp
  · exact (Buffer.string_eq_some.1 hc).1

/-- The document of a text and what is appended to it. -/
theorem Pstring.Holds.append (h : d.Holds t) (hz : 0 ∉ src) : (Pstring.ofText (t ++ src)).Holds (t ++ src) :=
  holds_ofText (List.not_mem_append h.noZero hz)

theorem Pstring.Holds.string (h : d.Holds t) (hb : d.buf ≠ []) : d.buf.string 0 = some t := by
  have hc := h.content
  rwa [Pstring.content, if_neg hb] at hc

/-- The buffer of a document. -/
theorem Pstring.Holds.buf (h : d.Holds t) (hb : d.buf ≠ []) : ∃ rest, d.buf = t.map some ++ some 0 :: rest :=
  (Buffer.string_eq_some.1 (h.string hb)).2

theorem Pstring.Holds.buf_ne_nil (h : d.Holds t) (ht : t ≠ []) : d.buf ≠ [] := by
  intro hb
  have hc := h.content
  rw [Pstring.content, if_pos hb] at hc
  exact ht (Option.some.inj hc).symm

theorem access_ok {β : Type} {fn : String} {o : Option β} {b : β} (h : access fn o = .ok b) : o = some b := by
  cases o with
  | none => cases h
  | some b' => rw [Except.ok.inj h]

/-- What `wcsncat` leaves of a buffer that ends right after the text and what is appended. -/
theorem cat_cells {b : Buffer WChar} {n : Nat} (hb : b.length = src.length) (hn : src.length ≤ n) :
    Buffer.cat 0 (t.map some ++ some 0 :: b) t.length src n = some ((t ++ src).map some ++ [some 0]) := by
  have hlen : (t.map some).length = t.length := List.length_map some
  have hdrop : (t.map some ++ some 0 :: b).drop t.length = some 0 :: b := by
    rw [← hlen, List.drop_left]
  have hend : (t.map some ++ some 0 :: b).drop (t.length + (src.length + 1)) = [] :=
    List.drop_eq_nil_of_le (by simp [hb])
  rw [Buffer.cat_eq hdrop hn (by simp [hb]), hend]
  conv_lhs => rw [← hlen, List.take_left]
  simp

/-- **Appending a text** to a document. -/
theorem wappend_eq (h : d.Holds t) (hsrc : src ≠ []) :
    wappend (some d) src = .ok (some (.ofText (t ++ src))) := by
  have hpos : 0 < src.length := List.length_pos_of_ne_nil hsrc
  have hstore : ∀ b : Buffer WChar, b.length = src.length →
      Buffer.store (t.map some ++ some 0 :: b) (t.length + src.length) 0 =
        some (t.map some ++ some 0 :: b.set (src.length - 1) (some 0)) := by
    intro b hb
    rw [Buffer.store, if_pos (by simp [hb])]
    rw [List.set_append_right _ _ (by simp), List.length_map, Nat.add_sub_cancel_left]
    obtain ⟨n, hn⟩ : ∃ n, src.length = n + 1 := ⟨src.length - 1, by omega⟩
    rw [hn, List.set_cons_succ, Nat.add_sub_cancel]
  -- the buffer that `wcsncat` gets
  have hbuf : ∃ b : Buffer WChar, b.length = src.length ∧
      (if d.len = 0 then List.replicate (1 + (d.len + src.length)) (some 0)
        else d.buf.realloc (1 + (d.len + src.length))) = t.map some ++ some 0 :: b := by
    rw [h.len]
    split
    · rename_i ht
      obtain rfl : t = [] := List.eq_nil_of_length_eq_zero ht
      refine ⟨List.replicate src.length (some 0), by simp, ?_⟩
      rw [show 1 + (([] : WStr).length + src.length) = src.length + 1 by simp; omega, List.replicate_succ]
      rfl
    · rename_i ht
      obtain ⟨rest, hrest⟩ := h.buf (h.buf_ne_nil fun h => ht (by simp [h]))
      exact ⟨Buffer.realloc rest src.length, by simp, by rw [hrest, Buffer.realloc_string]⟩
  obtain ⟨b, hb, hbeq⟩ := hbuf
  have hget : ((t ++ src).map some ++ [some (0 : WChar)])[t.length + src.length]? = some (some 0) := by
    rw [List.getElem?_append_right (by simp)]
    simp
  simp only [wappend, wappendn, if_neg (Nat.ne_of_gt hpos), Option.getD_some, hbeq]
  rw [h.len, hstore b hb]
  simp only [access, bind, Except.bind]
  rw [cat_cells (by simpa using hb) (Nat.le_refl _)]
  simp only
  rw [if_pos hget]
  simp [Pstring.ofText, pure, Except.pure]

theorem wappend_nil (dest : Option Pstring) : wappend dest [] = .ok dest := rfl

/-- The cells before the one that `len` points to are left alone. -/
theorem wappend_take {dest : Option Pstring} (hlen : d.len ≠ 0) (hsrc : src ≠ [])
    (h : wappend (some d) src = .ok dest) :
    ∃ d', dest = some d' ∧ d'.buf ≠ [] ∧
      d'.buf.take d.len = (d.buf.realloc (1 + (d.len + src.length))).take d.len := by
  have hpos : src.length ≠ 0 := by simpa using hsrc
  simp only [wappend, wappendn, if_neg hpos, Option.getD_some, if_neg hlen] at h
  obtain ⟨b₁, h₁, h⟩ := ok_of_bind h
  obtain ⟨b₂, h₂, h⟩ := ok_of_bind h
  split at h
  · rename_i hend
    refine ⟨_, (Except.ok.inj h).symm, ?_, ?_⟩
    · rintro rfl
      simp at hend
    · rw [Buffer.take_cat (access_ok h₂), Buffer.take_store (access_ok h₁) (by omega)]
  · cases h

/-- **Appending a `pstring`** whose length counts the terminator. -/
theorem pappend_string {source : Pstring} (h : d.Holds t) (hb : d.buf ≠ []) (hs : source.buf.string 0 = some src)
    (hlen : source.len = src.length + 1) : pappend (some d) source = .ok (some (.ofText (t ++ src))) := by
  obtain ⟨rest, hrest⟩ := h.buf hb
  have hstore : Buffer.store ((t ++ src).map some ++ [some 0]) (t.length + src.length) 0 =
      some ((t ++ src).map some ++ [some 0]) := by
    rw [Buffer.store, if_pos (by simp), List.set_append_right _ _ (by simp)]
    simp
  have htotal : t.length + (src.length + 1) - 1 = t.length + src.length := by omega
  simp only [pappend, hlen, if_neg (Nat.succ_ne_zero src.length), Option.getD_some, h.len,
    htotal, hs, access, bind, Except.bind]
  rw [hrest, Buffer.realloc_string, cat_cells (by simp) (by omega)]
  simp only [hstore]
  simp [Pstring.ofText, pure, Except.pure]

theorem pappend_eq (h : d.Holds t) (hb : d.buf ≠ []) (hz : 0 ∉ src) :
    pappend (some d) (pstringCreate src) = .ok (some (.ofText (t ++ src))) :=
  pappend_string h hb (Buffer.string_map hz []) (Nat.add_comm 1 src.length)

/-- A buffer that is not there has no terminator to find. -/
theorem pappend_noBuffer {source : Pstring} (hb : d.buf = []) (hs : source.buf.string 0 = some src)
    (hlen : source.len ≠ 0) : pappend (some d) source = .error (.outOfBounds "pappend") := by
  have hcells : ∀ n, Buffer.string (0 : WChar) ((d.buf.realloc n).drop d.len) = none := by
    intro n
    rw [hb, Buffer.realloc, List.take_nil, List.nil_append, List.drop_replicate]
    cases n - ([] : Buffer WChar).length - d.len <;> rfl
  simp only [pappend, if_neg hlen, Option.getD_some, hs, access, bind, Except.bind, Buffer.cat, hcells,
    Option.bind_none]

theorem pappend_null (hb : d.buf = []) (hz : 0 ∉ src) :
    pappend (some d) (pstringCreate src) = .error (.outOfBounds "pappend") :=
  pappend_noBuffer hb (Buffer.string_map hz []) (by simp [pstringCreate])

/-- The cells before the one that `len` points to are left alone. -/
theorem pappend_take {source : Pstring} {dest : Option Pstring} (hsrc : source.len ≠ 0)
    (h : pappend (some d) source = .ok dest) :
    ∃ d', dest = some d' ∧ d'.len = d.len + source.len - 1 ∧
      d'.buf.take d.len = (d.buf.realloc (1 + (d.len + source.len - 1))).take d.len := by
  simp only [pappend, if_neg hsrc, Option.getD_some] at h
  obtain ⟨str, -, h⟩ := ok_of_bind h
  obtain ⟨b₁, h₁, h⟩ := ok_of_bind h
  obtain ⟨b₂, h₂, h⟩ := ok_of_bind h
  refine ⟨_, (Except.ok.inj h).symm, rfl, ?_⟩
  rw [Buffer.take_store (access_ok h₂) (by omega), Buffer.take_cat (access_ok h₁)]

/-! ## Documents -/

/-- A call that appends to a document: `wappend`, or `wappendf` of an expansion, or `pappend` of a
`pstring` that `pstring_create` or `wappendva` made. -/
inductive Appending
  | text (appended : WStr)
  | pstring (appended : WStr)
deriving DecidableEq

namespace Appending

/-- What is appended. -/
def appended : Appending → WStr
  | text t | pstring t => t

/-- Run the call. -/
def run (dest : Option Pstring) : Appending → Except Halt (Option Pstring)
  | text t => wappend dest t
  | pstring t => pappend dest (pstringCreate t)

end Appending

/-- One call. -/
theorem appending_holds {a : Appending} {dest : Option Pstring} (h : d.Holds t) (hz : 0 ∉ a.appended)
    (hrun : a.run (some d) = .ok dest) : ∃ d', dest = some d' ∧ d'.Holds (t ++ a.appended) := by
  cases a with
  | text src =>
    rw [Appending.appended] at hz ⊢
    by_cases hsrc : src = []
    · subst hsrc
      refine ⟨d, (Except.ok.inj hrun).symm, ?_⟩
      rw [List.append_nil]
      exact h
    · rw [Appending.run, wappend_eq h hsrc] at hrun
      exact ⟨_, (Except.ok.inj hrun).symm, h.append hz⟩
  | pstring src =>
    rw [Appending.run] at hrun
    rw [Appending.appended] at hz ⊢
    by_cases hb : d.buf = []
    · rw [pappend_null hb hz] at hrun
      cases hrun
    · rw [pappend_eq h hb hz] at hrun
      exact ⟨_, (Except.ok.inj hrun).symm, h.append hz⟩

/-- **A document holds what was appended to it**, one append after another. -/
theorem appends_holds {as : List Appending} {dest : Option Pstring} (h : d.Holds t)
    (hz : ∀ a ∈ as, 0 ∉ a.appended) (hrun : as.foldlM Appending.run (some d) = .ok dest) :
    ∃ d', dest = some d' ∧ d'.Holds (t ++ as.flatMap Appending.appended) := by
  induction as generalizing d t with
  | nil =>
    refine ⟨d, (Except.ok.inj hrun).symm, ?_⟩
    rw [List.flatMap_nil, List.append_nil]
    exact h
  | cons a as ih =>
    rw [List.foldlM_cons] at hrun
    obtain ⟨dest₁, h₁, hrun⟩ := ok_of_bind hrun
    obtain ⟨d₁, rfl, hd₁⟩ := appending_holds h (hz a List.mem_cons_self) h₁
    rw [List.flatMap_cons, ← List.append_assoc]
    exact ih hd₁ (fun b hb => hz b (List.mem_cons_of_mem _ hb)) hrun

/-- Texts can always be appended. -/
theorem texts_run {ts : List WStr} (h : d.Holds t) (hz : ∀ s ∈ ts, 0 ∉ s) :
    ∃ d', (ts.map Appending.text).foldlM Appending.run (some d) = .ok (some d') ∧ d'.Holds (t ++ ts.flatten) := by
  induction ts generalizing d t with
  | nil => exact ⟨d, rfl, by simpa using h⟩
  | cons s ts ih =>
    obtain ⟨d₁, h₁⟩ : ∃ d₁, Appending.run (some d) (.text s) = .ok (some d₁) := by
      by_cases hs : s = []
      · exact ⟨d, by rw [hs]; rfl⟩
      · exact ⟨_, wappend_eq h hs⟩
    obtain ⟨d₂, h₂, hd₁⟩ := appending_holds (a := .text s) h (hz s List.mem_cons_self) h₁
    obtain rfl := Option.some.inj h₂
    obtain ⟨d', h', hd'⟩ := ih hd₁ fun s' hs' => hz s' (List.mem_cons_of_mem _ hs')
    refine ⟨d', ?_, ?_⟩
    · rw [List.map_cons, List.foldlM_cons, h₁]
      exact h'
    · rw [List.flatten_cons, ← List.append_assoc]
      exact hd'

end Procenv
