import Procenv.Proof.Unescape
import Procenv.Text.Reference

/-!
# XML values read back

What an XML reader makes of an encoded string. The first pass writes the references of
the five characters that may not stand for themselves, the second those of the
characters that do not print; neither touches what the other has written.

* `dereference_encodeChar`: the encoding of a character stands for it.
* `dereference_encode`: **an encoded string stands for the string**, whatever its
  characters, and no other string is encoded alike.
-/

namespace Procenv

open Text Text.Json Text.Xml

variable {loc : Locale}

/-! ## Hexadecimal references -/

theorem hexNumber_append (n : Nat) (a b : List CodePoint) :
    hexNumber n (a ++ b) = (hexNumber n a).bind (hexNumber · b) := by
  induction a generalizing n with
  | nil => rfl
  | cons c a ih =>
    simp only [List.cons_append, hexNumber]
    cases hexVal c with
    | some d => exact ih _
    | none => rfl

/-- The digits of a number are read as the number. -/
theorem hexNumber_hexFixed {w n : Nat} (h : n < 16 ^ w) : hexNumber 0 (hexFixed w n) = some n := by
  induction w generalizing n with
  | zero =>
    obtain rfl : n = 0 := by simpa using h
    rfl
  | succ w ih =>
    have hlead := ih (n := n / 16) (by rw [Nat.pow_succ] at h; omega)
    rw [hexFixed, hexNumber_append, hlead, Option.bind_some]
    simp only [hexNumber, hexVal_hexDigit (Nat.mod_lt n (by decide))]
    congr 1
    omega

theorem lt_hexWidth {n : Nat} (h : n < 0x110000) : n < 16 ^ hexWidth n := by
  unfold hexWidth
  repeat' split
  all_goals omega

theorem hexDigits_ne {w n : Nat} : ∀ c ∈ hexFixed w n, c ≠ 59 ∧ c ≠ 38 := by
  intro c hc
  obtain ⟨d, hd, rfl⟩ := hexFixed_digit hc
  have hval := hexDigit_val hd
  refine ⟨fun h => ?_, fun h => ?_⟩
  · have h59 : (hexDigit d).val = 59 := congrArg Fin.val h
    split at hval <;> omega
  · have h38 : (hexDigit d).val = 38 := congrArg Fin.val h
    split at hval <;> omega

/-- The name that `xml_format` writes denotes the character. -/
theorem denoted_hex (c : WChar) : denoted (lit "#x" ++ fmtHex 2 c.val) = some c := by
  have hlt : c.val < 16 ^ max 2 (hexWidth c.val) :=
    Nat.lt_of_lt_of_le (lt_hexWidth c.isLt) (Nat.pow_le_pow_right (by decide) (Nat.le_max_right _ _))
  have hentity : entities.lookup (lit "#x" ++ fmtHex 2 c.val) = none := by
    refine List.lookup_eq_none_iff.2 fun p hp => ?_
    simp only [entities, List.mem_cons, List.not_mem_nil, or_false] at hp
    rcases hp with rfl | rfl | rfl | rfl | rfl <;> simp [lit, CodePoint.ofChar]
  rw [denoted, hentity, Option.none_or]
  have hnum := hexNumber_hexFixed hlt
  unfold fmtHex
  cases hd : hexFixed (max 2 (hexWidth c.val)) c.val with
  | nil =>
    have hlen := hexFixed_length (max 2 (hexWidth c.val)) c.val
    rw [hd] at hlen
    simp at hlen
    omega
  | cons d ds =>
    rw [hd] at hnum
    show hexReference (35 :: 120 :: d :: ds) = some c
    simp [hexReference, hnum]

/-! ## Values -/

section Values

variable (hprint : ∀ c : WChar, 0x20 ≤ c.val → c.val ≤ 0x7E → loc.iswprint c = true)
include hprint

/-- An entity that the first pass writes is left alone by the second. -/
theorem encodeChar_entity {c : WChar} {name : WStr} (hc : translateChar .xml c = 38 :: (name ++ [59]))
    (hname : ∀ d ∈ name, 0x20 ≤ d.val ∧ d.val ≤ 0x7E) : encodeChar loc .xml c = 38 :: (name ++ [59]) := by
  have hescape : ∀ d : WChar, 0x20 ≤ d.val → d.val ≤ 0x7E → escapeChar loc .xml d = [d] :=
    fun d h1 h2 => by simp [escapeChar, hprint d h1 h2]
  have hkeep : ∀ t : WStr, (∀ d ∈ t, 0x20 ≤ d.val ∧ d.val ≤ 0x7E) → t.flatMap (escapeChar loc .xml) = t := by
    intro t ht
    induction t with
    | nil => rfl
    | cons d t ih =>
      rw [List.flatMap_cons, hescape d (ht d (by simp)).1 (ht d (by simp)).2, ih fun e he => ht e (by simp [he])]
      rfl
  rw [encodeChar, hc]
  refine hkeep _ fun d hd => ?_
  rcases List.mem_cons.1 hd with rfl | hd
  · decide
  · rcases List.mem_append.1 hd with hd | hd
    · exact hname d hd
    · obtain rfl : d = 59 := by simpa using hd
      decide

/-- **The encoding of a character stands for it.** -/
theorem dereference_encodeChar {c : WChar} (h0 : c ≠ 0) (s : WStr) :
    dereference (encodeChar loc .xml c ++ s) = c :: dereference s := by
  have hentity : ∀ name : WStr, translateChar .xml c = 38 :: (name ++ [59]) → denoted name = some c →
      (name.all fun d => decide ((0x20 ≤ d.val ∧ d.val ≤ 0x7E) ∧ d ≠ 59 ∧ d ≠ 38)) = true →
      dereference (encodeChar loc .xml c ++ s) = c :: dereference s := by
    intro name htr hden hall
    have hname : ∀ d ∈ name, (0x20 ≤ d.val ∧ d.val ≤ 0x7E) ∧ d ≠ 59 ∧ d ≠ 38 := by simpa using hall
    rw [encodeChar_entity hprint htr fun d hd => (hname d hd).1]
    simpa using dereference_reference (fun d hd => (hname d hd).2) hden s
  by_cases h1 : c = 39
  · subst h1
    exact hentity (lit "apos") rfl rfl rfl
  by_cases h2 : c = 34
  · subst h2
    exact hentity (lit "quot") rfl rfl rfl
  by_cases h3 : c = 38
  · subst h3
    exact hentity (lit "amp") rfl rfl rfl
  by_cases h4 : c = 60
  · subst h4
    exact hentity (lit "lt") rfl rfl rfl
  by_cases h5 : c = 62
  · subst h5
    exact hentity (lit "gt") rfl rfl rfl
  -- the character is left to the second pass
  have htr : translateChar .xml c = [c] := by
    simp [translateChar, translateTable, h0, h1, h2, h3, h4, h5]
  have hchar : encodeChar loc .xml c = escapeChar loc .xml c := by simp [encodeChar, htr]
  rw [hchar, escapeChar]
  split
  · exact dereference_plain h3 s
  · have htext : escapeText .xml c ++ s = 38 :: ((lit "#x" ++ fmtHex 2 c.val) ++ 59 :: s) := by
      simp [escapeText, lit, CodePoint.ofChar]
    rw [htext]
    refine dereference_reference (fun d hd => ?_) (denoted_hex c) s
    rcases List.mem_append.1 hd with hd | hd
    · have hall : ((lit "#x").all fun d => decide (d ≠ 59 ∧ d ≠ 38)) = true := rfl
      exact of_decide_eq_true (List.all_eq_true.1 hall d hd)
    · exact hexDigits_ne d hd

theorem dereference_flatMap {s : WStr} (h0 : 0 ∉ s) : dereference (s.flatMap (encodeChar loc .xml)) = s := by
  induction s with
  | nil => rfl
  | cons c s ih =>
    have hc : c ≠ 0 := fun h => h0 (by simp [h])
    rw [List.flatMap_cons, dereference_encodeChar hprint hc, ih fun h => h0 (by simp [h])]

/-- **An encoded string stands for the string**, and no other string is encoded alike. -/
theorem dereference_encode {s r : WStr} {ret : Int} (h0 : 0 ∉ s)
    (h : encodeString loc .xml s = .ok (ret, r)) (hret : 0 ≤ ret) :
    dereference r = s ∧
      ∀ s' ret', 0 ∉ s' → encodeString loc .xml s' = .ok (ret', r) → 0 ≤ ret' → s' = s := by
  have hread : ∀ {s ret}, 0 ∉ s → encodeString loc .xml s = .ok (ret, r) → 0 ≤ ret → dereference r = s :=
    fun h0 h hret => by
      rw [encodeString_eq (Or.inr rfl) h0 h (by omega)]
      exact dereference_flatMap hprint h0
  exact ⟨hread h0 h hret, fun s' ret' h0' h' hret' => (hread h0' h' hret').symm.trans (hread h0 h hret)⟩

end Values

/-- A string with an entity and two characters that do not print. -/
theorem dereference_encode_mixed :
    dereference (lit "a&lt;&#xe9;&#x07;") = lit "a<" ++ [0xE9, 7] :=
  (dereference_encode posixLocale_standard.print (show 0 ∉ lit "a<" ++ [0xE9, 7] by decide)
    (show encodeString posixLocale .xml (lit "a<" ++ [0xE9, 7]) = .ok (6, lit "a&lt;&#xe9;&#x07;") from rfl)
    (by decide)).1

end Procenv
