import Mathlib.Data.List.Chain
import Procenv.Proof.Json
import Procenv.Text.Unescape

/-!
# JSON strings read back

What a JSON reader makes of an encoded string. The table of `output_translate`
writes four backslashes for one, on purpose, so that the reader sees two.

* `pieces_encodeChar`: the pieces that the encoding of a character is read as.
* `unescape_encode`: **an encoded string is read back with its backslashes doubled**,
  if its non-printable characters fit four hexadecimal digits.
-/

namespace Procenv

open Text Text.Json

variable {loc : Locale}

theorem hexVal_hexDigit {d : Nat} (hd : d < 16) : hexVal (hexDigit d) = some d := by
  have h := hexDigit_val hd
  unfold hexVal
  split at h
  · rw [if_pos (by omega), h, Nat.add_sub_cancel_left]
  · rw [if_neg (by omega), if_neg (by omega), if_pos (by omega), h, Nat.add_sub_cancel_left]

/-- Four hexadecimal digits are read as their number. -/
theorem pieces_hexFixed {n : Nat} (hn : n < 0x10000) (t : List CodePoint) :
    pieces (.hex 3 0) (hexFixed 4 n ++ t) = (pieces .plain t).map (⟨true, Fin.ofNat _ n⟩ :: ·) := by
  have hval : (((0 * 16 + n / 16 / 16 / 16 % 16) * 16 + n / 16 / 16 % 16) * 16 + n / 16 % 16) * 16 + n % 16 =
    n := by
    omega
  have hd : ∀ m, hexVal (hexDigit (m % 16)) = some (m % 16) := fun m => hexVal_hexDigit (Nat.mod_lt _ (by omega))
  simp only [hexFixed, List.nil_append, List.cons_append, pieces, hd, hval]

/-- The pieces that the encoding of a character is read as. -/
def charPieces (loc : Locale) (c : WChar) : List Piece :=
  List.replicate (if c = 92 then 2 else 1) ⟨!loc.iswprint c, c⟩

/-- **The encoding of a character is read as its pieces.** -/
theorem pieces_encodeChar (hloc : loc.Standard) {c : WChar} (h0 : c ≠ 0)
    (hc : loc.iswprint c = false → c.val < 0x10000) (t : List CodePoint) :
    pieces .plain (encodeChar loc .json c ++ t) = (pieces .plain t).map (charPieces loc c ++ ·) := by
  have hprint : ∀ d : WChar, 0x20 ≤ d.val → d.val ≤ 0x7E → escapeChar loc .json d = [d] :=
    fun d h1 h2 => by simp [escapeChar, hloc.print d h1 h2]
  by_cases h1 : c = 34
  · subst h1
    have h : encodeChar loc .json 34 = [92, 34] := by
      simp [encodeChar, show translateChar .json 34 = [92, 34] from rfl,
        hprint 92 (by decide) (by decide), hprint 34 (by decide) (by decide)]
    have hp := hloc.print 34 (by decide) (by decide)
    rw [h, charPieces, hp]
    rfl
  by_cases h2 : c = 92
  · -- the table writes four backslashes, which are two escapes
    subst h2
    have h : encodeChar loc .json 92 = [92, 92, 92, 92] := by
      simp [encodeChar, show translateChar .json 92 = [92, 92, 92, 92] from rfl,
        hprint 92 (by decide) (by decide)]
    have hp := hloc.print 92 (by decide) (by decide)
    rw [h, charPieces, hp]
    cases hq : pieces .plain t <;> simp [pieces, simpleEscape, List.replicate, hq]
  rw [encodeChar, translateChar_json h0 h1 h2, charPieces, if_neg h2]
  simp only [List.flatMap_cons, List.flatMap_nil, List.append_nil, escapeChar]
  cases hp : loc.iswprint c with
  | true =>
    have hge : ¬ c.val < 0x20 := fun hlt => by simp [hloc.cntrl c hlt] at hp
    simp [pieces, h1, h2, hge]
  | false =>
    -- below 0x10000 the minimum width is the width
    have hlt := hc hp
    have hw : max 4 (hexWidth c.val) = 4 := by
      unfold hexWidth
      split_ifs <;> omega
    have hfin : (Fin.ofNat 0x110000 c.val : CodePoint) = c := Fin.ofNat_val_eq_self c
    have h := pieces_hexFixed hlt t
    rw [hfin] at h
    rw [escapeText, if_pos rfl, fmtHex, hw]
    exact h

theorem pieces_encode (hloc : loc.Standard) {s : WStr} (h0 : 0 ∉ s)
    (hs : ∀ c ∈ s, loc.iswprint c = false → c.val < 0x10000) :
    pieces .plain (s.flatMap (encodeChar loc .json)) = some (s.flatMap (charPieces loc)) := by
  induction s with
  | nil => rfl
  | cons c s ih =>
    simp only [List.mem_cons, not_or] at h0
    rw [List.flatMap_cons, pieces_encodeChar hloc (Ne.symm h0.1) (hs c List.mem_cons_self),
      ih h0.2 fun d hd => hs d (List.mem_cons_of_mem _ hd)]
    rfl

/-- Two characters whose escapes are a surrogate pair. -/
def EscapedPair (loc : Locale) (a b : WChar) : Prop :=
  loc.iswprint a = false ∧ loc.iswprint b = false ∧ isHigh a = true ∧ isLow b = true

instance (a b : WChar) : Decidable (EscapedPair loc a b) := inferInstanceAs (Decidable (_ ∧ _))

/-- No pair is read where no escapes are one. -/
theorem pieces_chain {s : WStr} (h : s.IsChain fun a b => ¬ EscapedPair loc a b) :
    (s.flatMap (charPieces loc)).IsChain fun p q => p.pairs q = false := by
  induction s with
  | nil => exact .nil
  | cons c s ih =>
    have hself : (charPieces loc c).IsChain fun p q => p.pairs q = false := by
      unfold charPieces
      split
      · rename_i hc
        rw [hc]
        exact .cons_cons (by simp [Piece.pairs, show isHigh 92 = false from rfl]) (.singleton _)
      · exact .singleton _
    rw [List.flatMap_cons]
    -- where two characters meet, the last piece of the one and the first of the other
    refine List.isChain_append.2 ⟨hself, ih h.tail, fun p hp q hq => ?_⟩
    have hpc : p = ⟨!loc.iswprint c, c⟩ := (List.mem_replicate.1 (List.mem_of_getLast? hp)).2
    cases s with
    | nil => simp at hq
    | cons d s =>
      have hqd : q = ⟨!loc.iswprint d, d⟩ := by
        unfold charPieces at hq
        rw [List.flatMap_cons] at hq
        split at hq <;> simpa [List.replicate] using hq.symm
      have hpair := (List.isChain_cons_cons.1 h).1
      rw [hpc, hqd]
      by_contra hne
      simp only [Piece.pairs, Bool.not_eq_false, Bool.and_eq_true, Bool.not_eq_true'] at hne
      exact hpair ⟨hne.1.1.1, hne.1.1.2, hne.1.2, hne.2⟩

/-- Every backslash twice. -/
def doubleBackslashes (s : WStr) : WStr := s.flatMap fun c => if c = 92 then [92, 92] else [c]

theorem map_code_charPieces (s : WStr) : (s.flatMap (charPieces loc)).map Piece.code = doubleBackslashes s := by
  rw [List.map_flatMap, doubleBackslashes]
  refine List.flatMap_congr fun c _ => ?_
  unfold charPieces
  split
  · rename_i h
    simp [List.replicate, h]
  · rfl

/-- **An encoded string is read back with every backslash doubled**, and so as it was if it has none,
if its non-printable characters fit four hexadecimal digits and no two in a row are a surrogate pair. -/
theorem unescape_encode (hloc : loc.Standard) {s r : WStr} {ret : Int} (h0 : 0 ∉ s)
    (h : encodeString loc .json s = .ok (ret, r)) (hret : ¬ ret < 0)
    (hs : ∀ c ∈ s, loc.iswprint c = false → c.val < 0x10000)
    (hpair : s.IsChain fun a b => ¬ EscapedPair loc a b) :
    unescape r = some (doubleBackslashes s) := by
  rw [encodeString_eq (Or.inl rfl) h0 h hret, unescape, pieces_encode hloc h0 hs, Option.map_some,
    joinPairs_eq (pieces_chain hpair), map_code_charPieces]

/-- A backslash is read back as two. -/
theorem unescape_backslash :
    posixLocale.Standard ∧ 0 ∉ lit "\\" ∧
      encodeString posixLocale .json (lit "\\") = .ok (0, lit "\\\\\\\\") ∧
      unescape (lit "\\\\\\\\") = some (lit "\\\\") ∧ unescape (lit "\\\\\\\\") ≠ some (lit "\\") :=
  ⟨posixLocale_standard, by decide, by decide, by decide, by decide⟩

/-- A string with a quote, a backslash, a tab and a letter outside ASCII. -/
theorem unescape_encode_mixed :
    ∃ ret r, encodeString posixLocale .json (lit "a\"\\\tü") = .ok (ret, r) ∧
      unescape r = some (lit "a\"\\\\\tü") := by
  have hr : encodeString posixLocale .json (lit "a\"\\\tü") = .ok (6, lit "a\\\"\\\\\\\\\\u0009\\u00fc") := by
    decide
  have hall : (lit "a\"\\\tü").all (fun c => c.val < 0x10000) = true := by decide
  refine ⟨6, _, hr, unescape_encode posixLocale_standard (by decide) hr (by decide)
    (fun c hc _ => ?_) (by decide)⟩
  simpa using List.all_eq_true.1 hall c hc

end Procenv
