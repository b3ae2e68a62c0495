import Procenv.Model.PrList
import Procenv.Proof.Format

/-!
# The counted forms of the append functions

`appendn` and `wappendn` append the first `n` characters of their source. `wmappendn` does not look at `n`
once it knows that it is not zero, and the two list functions copy one character more.

* `appendn_eq`, `wappendn_eq_wappend`: what the first two leave.
* `wappend_content_iff`: where a text has to be appended to be seen.
* `counted_iff`: **for which `n` each of the five does what its name says**.
-/

namespace Procenv

open Text Data Outcome

variable {t old src : MbStr} {n : Nat}

/-- **A counted form does what it is for**: it returns, what is there then has the given content, and the
uncounted form leaves the same for the counted part of the source. -/
structure Counted {δ β : Type} (content : δ → Option β) (counted uncounted : Except Halt δ) (expected : β) :
    Prop where
  leaves : ∃ d, counted = .ok d ∧ content d = some expected
  agrees : counted = uncounted

/-! ## Narrow strings -/

/-- The string in the cells; `NULL` has no characters. -/
def narrowContent : Option (Buffer UInt8) → Option MbStr
  | none => some []
  | some d => d.string 0

/-- **What `appendn` leaves.** -/
theorem appendn_eq {dest : Option (Buffer UInt8)} (hdest : narrowContent dest = some t) (hn : n ≤ src.length)
    (h0 : n ≠ 0) : appendn dest src n = .ok (some ((t ++ src.take n).map some ++ [some 0])) := by
  have hlen : (src.take n).length = n := List.length_take_of_le hn
  have hstr : Buffer.string 0 (dest.getD [some 0]) = some t := by
    cases dest with
    | none => exact hdest
    | some d => exact hdest
  obtain ⟨hz, rest, hbuf⟩ := Buffer.string_eq_some.1 hstr
  have hrealloc : Buffer.realloc (t.map some ++ some 0 :: rest) (t.length + 1 + n) =
      t.map some ++ some 0 :: Buffer.realloc rest n := by
    rw [show t.length + 1 + n = 1 + (t.length + n) by omega, Buffer.realloc_string]
  have hcat : Buffer.cat 0 (t.map some ++ some 0 :: Buffer.realloc rest n) 0 src n =
      some ((t ++ src.take n).map some ++ [some 0]) := by
    rw [Buffer.cat_string hz (Nat.le_of_eq (hlen.trans Buffer.length_realloc.symm)), hlen,
      List.drop_eq_nil_of_le (Nat.le_of_eq Buffer.length_realloc)]
  have hend : ((t ++ src.take n).map some ++ [some (0 : UInt8)])[t.length + 1 + n - 1]? = some (some 0) := by
    have hlast : t.length + 1 + n - 1 = ((t ++ src.take n).map some).length := by
      rw [List.length_map, List.length_append, hlen]
      omega
    rw [hlast, List.getElem?_concat_length]
  simp only [appendn, if_neg h0, hstr, access, bind, Except.bind]
  rw [hbuf, hrealloc, hcat]
  simp only
  rw [if_pos hend]
  rfl

theorem appendn_counted {dest : Option (Buffer UInt8)} (hdest : narrowContent dest = some t) (hsrc : 0 ∉ src)
    (hn : n ≤ src.length) :
    Counted narrowContent (appendn dest src n) (appendCells dest (src.take n)) (t ++ src.take n) := by
  have hlen : (src.take n).length = n := List.length_take_of_le hn
  by_cases h0 : n = 0
  · subst h0
    refine ⟨⟨dest, rfl, ?_⟩, rfl⟩
    rw [List.take_zero, List.append_nil]
    exact hdest
  · have hzt : 0 ∉ t := by
      cases dest with
      | none => rw [← Option.some.inj hdest]; simp
      | some d => exact (Buffer.string_eq_some.1 hdest).1
    have hz : 0 ∉ t ++ src.take n := List.not_mem_append hzt fun hmem => hsrc (List.mem_of_mem_take hmem)
    refine ⟨⟨_, appendn_eq hdest hn h0, Buffer.string_map hz []⟩, ?_⟩
    rw [appendCells, hlen, appendn_eq hdest hn h0, appendn_eq hdest (Nat.le_of_eq hlen.symm) h0, List.take_take,
      Nat.min_self]

/-- On cells as on strings, `append` leaves the destination followed by the source. -/
theorem appendCells_refines {dest : Option (Buffer UInt8)} (hdest : narrowContent dest = some t)
    (hsrc : 0 ∉ src) :
    ∃ d, appendCells dest src = .ok d ∧ narrowContent d = mbContent (append (some t) src) := by
  obtain ⟨d, hd, hcont⟩ := (appendn_counted hdest hsrc (Nat.le_refl _)).leaves
  refine ⟨d, hd, ?_⟩
  rw [hcont, List.take_length, mbContent_append]
  rfl

/-! ## Wide strings -/

section Wide

variable {dest dest' : Option Pstring} {text wold wsrc : WStr}

/-- Only the characters that are counted are looked at. -/
theorem wappendn_eq_wappend (hn : n ≤ wsrc.length) : wappendn dest wsrc n = wappend dest (wsrc.take n) := by
  have hlen : (wsrc.take n).length = n := List.length_take_of_le hn
  have hcat : ∀ (buf : Buffer WChar) (i : Nat), buf.cat 0 i wsrc n = buf.cat 0 i (wsrc.take n) n := by
    intro buf i
    rw [Buffer.cat, Buffer.cat, List.take_take, Nat.min_self]
  rw [wappend, hlen]
  simp only [wappendn, hcat]

/-- `len` and the cells of the buffer after a text was appended. -/
theorem wappend_length (ht : text ≠ []) (h : wappend dest text = .ok dest') :
    ∃ d', dest' = some d' ∧ d'.len = (dest.getD pstringNew).len + text.length ∧ d'.buf.length = d'.len + 1 := by
  have hpos : text.length ≠ 0 := by simpa using ht
  simp only [wappend, wappendn, if_neg hpos] at h
  obtain ⟨b₁, h₁, h⟩ := ok_of_bind h
  obtain ⟨b₂, h₂, h⟩ := ok_of_bind h
  split at h
  · refine ⟨_, (Except.ok.inj h).symm, rfl, ?_⟩
    rw [Buffer.length_cat (access_ok h₂), (Buffer.length_store (access_ok h₁)).2]
    split
    · rw [List.length_replicate, Nat.add_comm]
    · rw [Buffer.length_realloc, Nat.add_comm]
  · cases h

/-- Without a destination there is an empty one. -/
theorem wappend_null (ht : text ≠ []) : wappend none text = wappend (some pstringNew) text := by
  have hpos : text.length ≠ 0 := by simpa using ht
  simp only [wappend, wappendn, if_neg hpos, Option.getD]

/-- **Where a text has to be appended to be seen**: at the terminator. -/
theorem wappend_content_iff (hdest : wideContent dest = some wold) (hz : 0 ∉ text) :
    (∃ d, wappend dest text = .ok d ∧ wideContent d = some (wold ++ text)) ↔
      text = [] ∨ ∀ d, dest = some d → d.len = wold.length := by
  constructor
  · rintro ⟨dest', hrun, hcont⟩
    refine or_iff_not_imp_left.2 fun ht d hd => ?_
    subst hd
    by_contra hne
    rcases Nat.lt_or_gt_of_ne hne with hlt | hgt
    · -- the buffer has no room for both texts
      obtain ⟨d', rfl, hlen, hbuf⟩ := wappend_length ht hrun
      have hcells : d'.buf ≠ [] := by
        intro hnil
        rw [hnil] at hbuf
        cases hbuf
      rw [wideContent, Pstring.content, if_neg hcells] at hcont
      have hroom := Buffer.length_lt_of_string hcont
      rw [List.length_append, hbuf, hlen, Option.getD_some] at hroom
      omega
    · exact wappend_behind hdest hgt ht hrun hcont
  · intro h
    by_cases ht : text = []
    · subst ht
      exact ⟨dest, wappend_nil dest, by rw [List.append_nil]; exact hdest⟩
    · have hlen := h.resolve_left ht
      have hholds : (dest.getD pstringNew).Holds wold := by
        cases dest with
        | none =>
          rw [← Option.some.inj hdest]
          exact holds_new
        | some d => exact ⟨hdest, hlen d rfl⟩
      have hrun : wappend dest text = wappend (some (dest.getD pstringNew)) text := by
        cases dest with
        | none => exact wappend_null ht
        | some d => rfl
      exact ⟨some (.ofText (wold ++ text)), by rw [hrun, wappend_eq hholds ht], (hholds.append hz).content⟩

/-- **`wappendn`** does what it is for wherever a text is seen. -/
theorem wappendn_counted_iff (hdest : wideContent dest = some wold) (hz : 0 ∉ wsrc) (hn : n ≤ wsrc.length) :
    Counted wideContent (wappendn dest wsrc n) (wappend dest (wsrc.take n)) (wold ++ wsrc.take n) ↔
      n = 0 ∨ ∀ d, dest = some d → d.len = wold.length := by
  have hnil : wsrc.take n = [] ↔ n = 0 := by
    rw [List.take_eq_nil_iff]
    refine ⟨fun h => h.elim id fun hw => ?_, Or.inl⟩
    rw [hw] at hn
    exact Nat.le_zero.1 hn
  have hzt : 0 ∉ wsrc.take n := fun hmem => hz (List.mem_of_mem_take hmem)
  rw [← hnil, ← wappend_content_iff hdest hzt, wappendn_eq_wappend hn]
  exact ⟨fun h => h.leaves, fun h => ⟨h, rfl⟩⟩

/-- **`wmappendn`** does what it is for when it is given the length of a source that is not empty. -/
theorem wmappendn_counted_iff {loc : Locale} {widen : UInt8 → WChar}
    (hsingle : ∀ k, loc.mbsrtowcs (src.take k) = some ((src.take k).map widen)) (hwiden : 0 ∉ src.map widen)
    (hdest : wideContent dest = some wold) (hn : n ≤ src.length) :
    Counted wideContent (wmappendn loc dest src n) (wmappend loc dest (src.take n))
      (wold ++ (src.take n).map widen) ↔
      n ≠ 0 ∧ n = src.length ∧ ∀ d, dest = some d → d.len = wold.length := by
  -- the wide strings of the parts of the source that are not empty
  have hwide : ∀ k, k ≤ src.length → k ≠ 0 → charToWchar loc (src.take k) = some ((src.take k).map widen) := by
    intro k hk hk0
    rw [charToWchar, hsingle k]
    cases hmap : (src.take k).map widen with
    | nil =>
      have hlen := congrArg List.length hmap
      rw [List.length_map, List.length_take_of_le hk] at hlen
      exact absurd hlen hk0
    | cons c w => rfl
  by_cases h0 : n = 0
  · subst h0
    refine iff_of_false (fun h => ?_) fun h => h.1 rfl
    have hnone : wmappend loc dest (src.take 0) =
      .error (.die "failed to allocate space for wide string" []) := by
      rw [wmappend, charToWchar, hsingle 0]
      rfl
    have hagrees := h.agrees
    rw [hnone] at hagrees
    cases hagrees
  · have hlen0 : src.length ≠ 0 := by omega
    have hfull : charToWchar loc src = some (src.map widen) := by
      have h := hwide src.length (Nat.le_refl _) hlen0
      rwa [List.take_length] at h
    have hrun : wmappendn loc dest src n = wappend dest (src.map widen) := by
      rw [wmappendn, if_neg h0, hfull]
      rfl
    have hpart : wmappend loc dest (src.take n) = wappend dest ((src.take n).map widen) := by
      rw [wmappend, hwide n hn h0]
    have hne : ∀ k, k ≤ src.length → k ≠ 0 → (src.take k).map widen ≠ [] := by
      intro k hk hk0 hnil
      have hlen := congrArg List.length hnil
      rw [List.length_map, List.length_take_of_le hk] at hlen
      exact hk0 hlen
    rw [and_iff_right h0, hrun, hpart]
    constructor
    · intro h
      obtain ⟨d, hd, hcont⟩ := h.leaves
      -- both leave a length, and these are equal
      have hwhole := hne src.length (Nat.le_refl _) hlen0
      rw [List.take_length] at hwhole
      obtain ⟨d₁, rfl, hlen₁, -⟩ := wappend_length hwhole hd
      obtain ⟨d₂, hd₂, hlen₂, -⟩ := wappend_length (hne n hn h0) (h.agrees ▸ hd)
      rw [Option.some.inj hd₂] at hlen₁
      rw [List.length_map] at hlen₁ hlen₂
      rw [List.length_take_of_le hn] at hlen₂
      have hcount : n = src.length := by omega
      refine ⟨hcount, ?_⟩
      rw [hcount, List.take_length] at hcont
      exact ((wappend_content_iff hdest hwiden).1 ⟨_, hd, hcont⟩).resolve_left hwhole
    · rintro ⟨hcount, hlen⟩
      rw [hcount, List.take_length]
      exact ⟨(wappend_content_iff hdest hwiden).2 (Or.inr hlen), rfl⟩

end Wide

/-! ## Lists -/

/-- The string of the new node. -/
def storedStr (r : PrHeap MbStr × Nat) : Option MbStr := r.1.data r.2

/-- One character more is not copied at the end of the source only. -/
theorem take_succ_iff (hn : n ≤ src.length) : src.take (1 + n) = src.take n ↔ n = src.length := by
  constructor
  · intro h
    have hlen := congrArg List.length h
    rw [List.length_take, List.length_take] at hlen
    omega
  · intro h
    rw [List.take_of_length_le (by omega), List.take_of_length_le (by omega)]

/-- **A list function that copies one character more** does what it is for at the end of the source only. -/
theorem stored_counted_iff {run : MbStr → Nat → PrHeap MbStr × Nat}
    (hstored : ∀ str k, storedStr (run str k) = some (str.take (1 + k))) (hn : n ≤ src.length) :
    Counted storedStr (.ok (run src n)) (.ok (run (src.take n) (src.take n).length)) (src.take n) ↔
      n = src.length := by
  constructor
  · intro hcounted
    obtain ⟨r, hr, hcont⟩ := hcounted.leaves
    rw [← Except.ok.inj hr, hstored] at hcont
    exact (take_succ_iff hn).1 (Option.some.inj hcont)
  · intro hcount
    refine ⟨⟨_, rfl, ?_⟩, ?_⟩
    · rw [hstored, (take_succ_iff hn).2 hcount]
    · rw [hcount, List.take_length]

theorem stored_prListAppendnStr (h : PrHeap MbStr) (list : Nat) (str : MbStr) (k : Nat) :
    storedStr (prListAppendnStr h list str k) = some (str.take (1 + k)) := by
  simp [storedStr, prListAppendnStr, prListAppend, prListNew, PrHeap.setNext, PrHeap.setPrev, PrHeap.setData]

theorem stored_prListPrependnStr (h : PrHeap MbStr) (list : Nat) (str : MbStr) (k : Nat) :
    storedStr (prListPrependnStr h list str k) = some (str.take (1 + k)) := by
  simp [storedStr, prListPrependnStr, prListPrepend, prListNew, PrHeap.setNext, PrHeap.setPrev, PrHeap.setData]

/-! ## The five functions -/

/-- **When a counted form takes exactly `n` characters.** -/
theorem counted_iff {loc : Locale} {widen : UInt8 → WChar} (h : PrHeap MbStr) (list : Nat)
    {dest : Option (Buffer UInt8)} {wdest : Option Pstring} {wold wsrc : WStr}
    (hdest : narrowContent dest = some old) (hwdest : wideContent wdest = some wold)
    (hsrc : 0 ∉ src) (hwsrc : 0 ∉ wsrc) (hn : n ≤ src.length) (hwn : n ≤ wsrc.length)
    (hsingle : ∀ k, loc.mbsrtowcs (src.take k) = some ((src.take k).map widen)) (hwiden : 0 ∉ src.map widen) :
    Counted narrowContent (appendn dest src n) (appendCells dest (src.take n)) (old ++ src.take n) ∧
      (Counted wideContent (wappendn wdest wsrc n) (wappend wdest (wsrc.take n)) (wold ++ wsrc.take n) ↔
        n = 0 ∨ ∀ d, wdest = some d → d.len = wold.length) ∧
      (Counted wideContent (wmappendn loc wdest src n) (wmappend loc wdest (src.take n))
          (wold ++ (src.take n).map widen) ↔
        n ≠ 0 ∧ n = src.length ∧ ∀ d, wdest = some d → d.len = wold.length) ∧
      (Counted storedStr (.ok (prListAppendnStr h list src n)) (.ok (prListAppendStr h list (src.take n)))
          (src.take n) ↔ n = src.length) ∧
      (Counted storedStr (.ok (prListPrependnStr h list src n)) (.ok (prListPrependStr h list (src.take n)))
          (src.take n) ↔ n = src.length) := by
  refine ⟨appendn_counted hdest hsrc hn, wappendn_counted_iff hwdest hwsrc hwn,
    wmappendn_counted_iff hsingle hwiden hwdest hn, ?_, ?_⟩
  · exact stored_counted_iff (stored_prListAppendnStr h list) hn
  · exact stored_counted_iff (stored_prListPrependnStr h list) hn

/-- Two of two characters, appended to a document of one. -/
theorem counted_iff_two :
    Counted wideContent (wmappendn posixLocale (some (.ofText (lit "x"))) (bytes "ab") 2)
        (wmappend posixLocale (some (.ofText (lit "x"))) (bytes "ab")) (lit "xab") ∧
      Counted storedStr (.ok (prListAppendnStr .init 0 (bytes "ab") 2))
        (.ok (prListAppendStr .init 0 (bytes "ab")))
        (bytes "ab") := by
  have hsingle : ∀ k, posixLocale.mbsrtowcs ((bytes "ab").take k) =
      some (((bytes "ab").take k).map fun b => (Fin.ofNat _ b.toNat : WChar)) := by
    intro k
    match k with
    | 0 => rfl
    | 1 => rfl
    | k + 2 =>
      have htake : (bytes "ab").take (k + 2) = bytes "ab" :=
        List.take_of_length_le (show 2 ≤ k + 2 by omega)
      rw [htake]
      rfl
  obtain ⟨-, -, hwide, hlist, -⟩ := @counted_iff (bytes "x") (bytes "ab") 2 posixLocale _ .init 0
    (some ((bytes "x").map some ++ [some 0])) (some (.ofText (lit "x"))) (lit "x") (lit "ab")
    (by decide) (by decide) (by decide) (by decide) (by decide) (by decide) hsingle (by decide)
  have hlen : ∀ d, some (Pstring.ofText (lit "x")) = some d → d.len = (lit "x").length := by
    intro d hd
    rw [← Option.some.inj hd]
    rfl
  exact ⟨hwide.2 ⟨by decide, by decide, hlen⟩, hlist.2 (by decide)⟩

/-- One of two characters: `wmappendn` appends both, and so do the list functions. -/
theorem counted_takes_more :
    ¬ Counted wideContent (wmappendn posixLocale (some pstringNew) (bytes "ab") 1)
        (wmappend posixLocale (some pstringNew) (bytes "a")) (lit "a") ∧
      ¬ Counted storedStr (.ok (prListAppendnStr .init 0 (bytes "ab") 1))
        (.ok (prListAppendStr .init 0 (bytes "a")))
        (bytes "a") ∧
      ¬ Counted storedStr (.ok (prListPrependnStr .init 0 (bytes "ab") 1))
        (.ok (prListPrependStr .init 0 (bytes "a"))) (bytes "a") := by
  refine ⟨fun h => ?_, fun h => ?_, fun h => ?_⟩
  · obtain ⟨d, hd, hcont⟩ := h.leaves
    have hab : wmappendn posixLocale (some pstringNew) (bytes "ab") 1 = .ok (some (.ofText (lit "ab"))) := by
      decide
    rw [hab] at hd
    rw [← Except.ok.inj hd] at hcont
    exact absurd hcont (by decide)
  · obtain ⟨r, hr, hcont⟩ := h.leaves
    rw [← Except.ok.inj hr] at hcont
    exact absurd hcont (by decide)
  · obtain ⟨r, hr, hcont⟩ := h.leaves
    rw [← Except.ok.inj hr] at hcont
    exact absurd hcont (by decide)

end Procenv
