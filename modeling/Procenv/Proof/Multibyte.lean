import Procenv.Model.Multibyte

/-!
# Strings there and back

`char_to_wchar` and `wchar_to_char` answer `NULL` for what does not convert. But a length of zero is taken
for an error as well, so the empty string does not convert either way, and `wchar_to_char` does not look for
`(size_t)-1`: it takes no memory then, and asks for as many bytes as there are.

* `charToWcharWith_iff`, `wcharToChar_iff`: when each of them is right.
* `charToWcharWith_eq`: `charToWchar` is what there is without a shortage of memory.
* `multibyte_iff`: **when they are right, and when a string comes back**.
-/

namespace Procenv

open Text

/-- The encoding is the inverse of the decoding, and the empty string is the encoding of itself. -/
structure Codec (loc : Locale) (encode : WStr → Option MbStr) : Prop where
  inverse : ∀ t w, loc.mbsrtowcs t = some w ↔ encode w = some t
  nil : loc.mbsrtowcs [] = some []

/-- The wide string and its terminator have a size, and there is memory for it. -/
def WideFits (malloc : Nat → Bool) (w : WStr) : Prop :=
  (1 + w.length) * sizeofWchar < 2 ^ 64 ∧ malloc ((1 + w.length) * sizeofWchar) = true

/-- A string that is empty does not convert, nor one without memory. -/
def Decodes (loc : Locale) (malloc : Nat → Bool) (t : MbStr) : Prop :=
  ∀ w, loc.mbsrtowcs t = some w → t ≠ [] ∧ WideFits malloc w

/-- A wide string that is empty does not convert, nor one without memory; one that has no encoding is refused only
if `calloc` refuses to take nothing. -/
def Encodes (encode : WStr → Option MbStr) (calloc : Nat → Bool) (w : WStr) : Prop :=
  match encode w with
  | none => calloc 0 = false
  | some t => w ≠ [] ∧ t.length + 1 < 2 ^ 64 ∧ calloc (t.length + 1) = true

variable {loc : Locale} {encode : WStr → Option MbStr} {malloc calloc : Nat → Bool} {t : MbStr} {w : WStr}

theorem Codec.eq_nil (h : Codec loc encode) (hw : loc.mbsrtowcs t = some w) : w = [] ↔ t = [] := by
  constructor
  · rintro rfl
    have hback := (h.inverse t []).1 hw
    rw [(h.inverse [] []).1 h.nil, Option.some.injEq] at hback
    exact hback.symm
  · rintro rfl
    rw [h.nil, Option.some.injEq] at hw
    exact hw.symm

/-! ## `char_to_wchar` -/

/-- What does not decode gives `NULL`. -/
theorem charToWcharWith_none (h : loc.mbsrtowcs t = none) : charToWcharWith loc malloc t = .ok none := by
  have hlen : mbsrtowcsLen loc t = sizeMax := by rw [mbsrtowcsLen, h]
  simp only [charToWcharWith, hlen]
  rfl

/-- What decodes is checked, stored and terminated. -/
theorem charToWcharWith_some (h : loc.mbsrtowcs t = some w) :
    charToWcharWith loc malloc t =
      if w.length = 0 ∨ w.length = sizeMax ∨ malloc (sizeT ((1 + w.length) * sizeofWchar)) = false then .ok none
      else if sizeT ((1 + w.length) * sizeofWchar) < (1 + w.length) * sizeofWchar then
        .error (.outOfBounds "char_to_wchar")
      else .ok (some w) := by
  have hlen : mbsrtowcsLen loc t = w.length := by rw [mbsrtowcsLen, h]
  have hinto (size : Nat) : mbsrtowcsInto loc t w.length size =
      if size < w.length * sizeofWchar then .error (.outOfBounds "char_to_wchar") else .ok (w, w.length) := by
    rw [mbsrtowcsInto, h]
    simp only [List.take_length]
  by_cases hzero : w.length = 0
  · rw [if_pos (Or.inl hzero)]
    simp only [charToWcharWith, hlen, if_pos hzero]
    rfl
  by_cases hmax : w.length = sizeMax
  · rw [if_pos (Or.inr (Or.inl hmax))]
    simp only [charToWcharWith, hlen, if_neg hzero, if_pos hmax]
    rfl
  cases hmem : malloc (sizeT ((1 + w.length) * sizeofWchar)) with
  | false =>
    rw [if_pos (Or.inr (Or.inr rfl))]
    simp only [charToWcharWith, hlen, if_neg hzero, if_neg hmax, hmem]
    rfl
  | true =>
    have hgo : ¬ (w.length = 0 ∨ w.length = sizeMax ∨ true = false) := by simp [hzero, hmax]
    rw [if_neg hgo]
    simp only [charToWcharWith, hlen, if_neg hzero, if_neg hmax, hmem, hinto]
    by_cases hsize : sizeT ((1 + w.length) * sizeofWchar) < (1 + w.length) * sizeofWchar
    · -- the string or its terminator is written behind the memory
      rw [if_pos hsize]
      by_cases hstring : sizeT ((1 + w.length) * sizeofWchar) < w.length * sizeofWchar
      · rw [if_pos hstring]
        rfl
      · rw [if_neg hstring]
        rw [Nat.add_comm 1] at hsize ⊢
        simp [bind, Except.bind, hsize]
    · rw [if_neg hsize]
      have hstring : ¬ sizeT ((1 + w.length) * sizeofWchar) < w.length * sizeofWchar := by
        unfold sizeofWchar at hsize ⊢
        omega
      rw [if_neg hstring]
      rw [Nat.add_comm 1] at hsize ⊢
      simp [bind, Except.bind, pure, Except.pure, hsize]

/-- **`char_to_wchar` is right** if the string is not empty and there is memory for it. -/
theorem charToWcharWith_iff (h : Codec loc encode) :
    charToWcharWith loc malloc t = .ok (loc.mbsrtowcs t) ↔ Decodes loc malloc t := by
  unfold Decodes
  cases hw : loc.mbsrtowcs t with
  | none => simp [charToWcharWith_none hw]
  | some w =>
    have hnil := h.eq_nil hw
    have hlen : w.length = 0 ↔ t = [] := by rw [List.length_eq_zero_iff, hnil]
    rw [charToWcharWith_some hw]
    simp only [Option.some.injEq, forall_eq', WideFits]
    by_cases ht : t = []
    · rw [if_pos (Or.inl (hlen.2 ht))]
      simp [ht]
    have hpos : w.length ≠ 0 := fun h0 => ht (hlen.1 h0)
    by_cases hfit : (1 + w.length) * sizeofWchar < 2 ^ 64
    · have hsize : sizeT ((1 + w.length) * sizeofWchar) = (1 + w.length) * sizeofWchar := Nat.mod_eq_of_lt hfit
      have hmax : w.length ≠ sizeMax := by
        unfold sizeofWchar at hfit
        unfold sizeMax
        omega
      have hright : (t ≠ [] ∧ (1 + w.length) * sizeofWchar < 2 ^ 64 ∧
        malloc ((1 + w.length) * sizeofWchar) = true) ↔
          malloc ((1 + w.length) * sizeofWchar) = true := ⟨fun h => h.2.2, fun h => ⟨ht, hfit, h⟩⟩
      rw [hsize, if_neg (Nat.lt_irrefl _), hright]
      cases malloc ((1 + w.length) * sizeofWchar) <;> simp [hpos, hmax]
    · -- the size wraps
      have hsize : sizeT ((1 + w.length) * sizeofWchar) < (1 + w.length) * sizeofWchar := by
        have hlt : sizeT ((1 + w.length) * sizeofWchar) < 2 ^ 64 := Nat.mod_lt _ (by decide)
        omega
      rw [if_pos hsize]
      simp only [hfit, false_and, and_false, iff_false]
      split <;> simp

/-- **Without a shortage of memory** there is `charToWchar`. -/
theorem charToWcharWith_eq (hmem : ∀ w, loc.mbsrtowcs t = some w → WideFits malloc w) :
    charToWcharWith loc malloc t = .ok (charToWchar loc t) := by
  cases hw : loc.mbsrtowcs t with
  | none => rw [charToWcharWith_none hw, charToWchar, hw]
  | some w =>
    obtain ⟨hfit, hmem⟩ := hmem w hw
    have hsize : sizeT ((1 + w.length) * sizeofWchar) = (1 + w.length) * sizeofWchar := Nat.mod_eq_of_lt hfit
    rw [charToWcharWith_some hw, hsize, hmem, if_neg (Nat.lt_irrefl _), charToWchar, hw]
    cases w with
    | nil => rfl
    | cons c w =>
      have hmax : (c :: w).length ≠ sizeMax := by
        unfold sizeofWchar at hfit
        unfold sizeMax
        omega
      rw [if_neg]
      rintro (hzero | hlen | hfalse)
      · exact List.cons_ne_nil c w (List.length_eq_zero_iff.1 hzero)
      · exact hmax hlen
      · cases hfalse

/-! ## `wchar_to_char` -/

/-- What has no encoding is measured as `(size_t)-1`, which is not looked for. -/
theorem wcharToChar_none (h : encode w = none) : wcharToChar encode calloc w =
    if calloc 0 = false then .ok none else .error (.outOfBounds "wchar_to_char") := by
  have hlen : wcstombsLen encode w = sizeMax := by rw [wcstombsLen, h]
  have hsize : sizeT (sizeMax + 1) = 0 := rfl
  simp only [wcharToChar, hlen, hsize]
  cases calloc 0 with
  | false => rfl
  | true => rfl

/-- What has an encoding is stored. -/
theorem wcharToChar_some (h : encode w = some t) : wcharToChar encode calloc w =
    if t.length = 0 ∨ calloc (sizeT (t.length + 1)) = false then .ok none
    else if sizeT (t.length + 1) < t.length then .error (.outOfBounds "wchar_to_char")
    else .ok (some t) := by
  have hlen : wcstombsLen encode w = t.length := by rw [wcstombsLen, h]
  have hinto (size : Nat) : wcstombsInto encode w t.length size =
      if size < t.length then .error (.outOfBounds "wchar_to_char") else .ok (t, t.length) := by
    rw [wcstombsInto, h]
    simp only [List.take_length]
  by_cases hzero : t.length = 0
  · rw [if_pos (Or.inl hzero)]
    simp only [wcharToChar, hlen, if_pos hzero]
    rfl
  cases hmem : calloc (sizeT (t.length + 1)) with
  | false =>
    rw [if_pos (Or.inr rfl)]
    simp only [wcharToChar, hlen, if_neg hzero, hmem]
    rfl
  | true =>
    have hgo : ¬ (t.length = 0 ∨ true = false) := by simp [hzero]
    rw [if_neg hgo]
    simp only [wcharToChar, hlen, if_neg hzero, hmem, hinto]
    by_cases hsize : sizeT (t.length + 1) < t.length
    · rw [if_pos hsize, if_pos hsize]
      rfl
    · rw [if_neg hsize, if_neg hsize]
      simp [bind, Except.bind, pure, Except.pure, hzero]

/-- **`wchar_to_char` is right** if the string is not empty, has an encoding, and there is memory for it. -/
theorem wcharToChar_iff (h : Codec loc encode) :
    wcharToChar encode calloc w = .ok (encode w) ↔ Encodes encode calloc w := by
  unfold Encodes
  cases ht : encode w with
  | none =>
    rw [wcharToChar_none ht]
    cases calloc 0 <;> simp
  | some t =>
    have hnil := h.eq_nil ((h.inverse t w).2 ht)
    have hlen : t.length = 0 ↔ w = [] := by rw [List.length_eq_zero_iff, hnil]
    rw [wcharToChar_some ht]
    by_cases hw : w = []
    · rw [if_pos (Or.inl (hlen.2 hw))]
      simp [hw]
    have hpos : t.length ≠ 0 := fun h0 => hw (hlen.1 h0)
    by_cases hfit : t.length + 1 < 2 ^ 64
    · have hsize : sizeT (t.length + 1) = t.length + 1 := Nat.mod_eq_of_lt hfit
      have hroom : ¬ t.length + 1 < t.length := by omega
      have hright : (w ≠ [] ∧ t.length + 1 < 2 ^ 64 ∧ calloc (t.length + 1) = true) ↔
        calloc (t.length + 1) = true :=
        ⟨fun h => h.2.2, fun h => ⟨hw, hfit, h⟩⟩
      simp only [hsize, if_neg hroom, hright]
      cases calloc (t.length + 1) <;> simp [hpos]
    · -- the size wraps
      have hsize : sizeT (t.length + 1) < t.length := by
        unfold sizeT
        omega
      rw [if_pos hsize]
      simp only [hfit, false_and, and_false, iff_false]
      split <;> simp

/-! ## There and back -/

/-- **A string comes back** if it and its wide string convert. -/
theorem roundTrip_iff (h : Codec loc encode) (hw : loc.mbsrtowcs t = some w) :
    roundTrip loc encode malloc calloc t = .ok (some t) ↔ Decodes loc malloc t ∧ Encodes encode calloc w := by
  have ht := (h.inverse t w).1 hw
  rw [← charToWcharWith_iff h, ← wcharToChar_iff h, ht, hw]
  unfold roundTrip
  constructor
  · intro hback
    have hwide : charToWcharWith loc malloc t = .ok (some w) := by
      rw [charToWcharWith_some hw] at hback ⊢
      split at hback
      · cases hback
      · split at hback
        · cases hback
        · rename_i hgo hsize
          rw [if_neg hgo, if_neg hsize]
    rw [hwide] at hback
    exact ⟨hwide, hback⟩
  · rintro ⟨hwide, hchar⟩
    rw [hwide]
    exact hchar

/-- **When the conversions are right**: that from a string, that from a wide string, and both of a string that
decodes. -/
theorem multibyte_iff (h : Codec loc encode) (t : MbStr) (w : WStr) :
    (charToWcharWith loc malloc t = .ok (loc.mbsrtowcs t) ↔ Decodes loc malloc t) ∧
    (wcharToChar encode calloc w = .ok (encode w) ↔ Encodes encode calloc w) ∧
    (∀ v, loc.mbsrtowcs t = some v →
      (roundTrip loc encode malloc calloc t = .ok (some t) ↔ Decodes loc malloc t ∧ Encodes encode calloc v)) :=
  ⟨charToWcharWith_iff h, wcharToChar_iff h, fun _ hv => roundTrip_iff h hv⟩

/-! ## The POSIX locale -/

/-- `wcstombs` in the POSIX locale. -/
def posixWcstombs (w : WStr) : Option MbStr :=
  if w.all fun c => c.val < 0x80 then some (w.map fun c => UInt8.ofNat c.val) else none

theorem posixLocale_codec : Codec posixLocale posixWcstombs := by
  refine ⟨fun t w => ?_, rfl⟩
  have hbyte (b : UInt8) : (Fin.ofNat 0x110000 b.toNat : WChar).val = b.toNat := by
    have hb := b.toNat_lt
    exact Nat.mod_eq_of_lt (by omega)
  have hchar (c : WChar) (hc : c.val < 0x80) : (UInt8.ofNat c.val).toNat = c.val := Nat.mod_eq_of_lt (by omega)
  simp only [posixLocale, posixWcstombs, Option.ite_none_right_eq_some, Option.some.injEq, List.all_eq_true,
    decide_eq_true_eq]
  constructor
  · rintro ⟨hall, rfl⟩
    refine ⟨List.forall_mem_map.2 fun b hb => ?_, ?_⟩
    · rw [hbyte]
      exact hall b hb
    · rw [List.map_map]
      refine List.map_id'' (fun b => ?_) t
      exact UInt8.toNat_inj.1 (by rw [Function.comp, hbyte, UInt8.ofNat_toNat])
  · rintro ⟨hall, rfl⟩
    refine ⟨List.forall_mem_map.2 fun c hc => ?_, ?_⟩
    · rw [UInt8.lt_iff_toNat_lt, hchar c (hall c hc)]
      exact hall c hc
    · rw [List.map_map]
      conv_rhs => rw [← List.map_id w]
      refine List.map_congr_left fun c hc => ?_
      have hval := hchar c (hall c hc)
      exact Fin.ext (by rw [Function.comp, hbyte, hval, id])

theorem multibyte_iff_posix :
    (charToWcharWith posixLocale (fun _ => true) (bytes "a") = .ok (posixLocale.mbsrtowcs (bytes "a")) ↔
      Decodes posixLocale (fun _ => true) (bytes "a")) ∧
    (wcharToChar posixWcstombs (fun _ => true) (lit "a") = .ok (posixWcstombs (lit "a")) ↔
      Encodes posixWcstombs (fun _ => true) (lit "a")) ∧
    (∀ v, posixLocale.mbsrtowcs (bytes "a") = some v →
      (roundTrip posixLocale posixWcstombs (fun _ => true) (fun _ => true) (bytes "a") = .ok (some (bytes "a")) ↔
        Decodes posixLocale (fun _ => true) (bytes "a") ∧ Encodes posixWcstombs (fun _ => true) v)) :=
  multibyte_iff posixLocale_codec (bytes "a") (lit "a")

/-- **The empty string does not come back, and a character that has no encoding is written behind the memory.** -/
theorem multibyte_lost :
    posixLocale.mbsrtowcs [] = some [] ∧ charToWcharWith posixLocale (fun _ => true) [] = .ok none ∧
    posixWcstombs [] = some [] ∧ wcharToChar posixWcstombs (fun _ => true) [] = .ok none ∧
    roundTrip posixLocale posixWcstombs (fun _ => true) (fun _ => true) [] = .ok none ∧
    posixWcstombs [0xe9] = none ∧
    wcharToChar posixWcstombs (fun _ => true) [0xe9] = .error (.outOfBounds "wchar_to_char") :=
  ⟨rfl, rfl, rfl, rfl, rfl, rfl, rfl⟩

end Procenv
