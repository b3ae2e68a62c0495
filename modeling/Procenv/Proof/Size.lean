import Procenv.Data.Outcome
import Procenv.Proof.Encode

/-!
# The room that `encode_string` computes

The size of the buffer is computed with six characters for every non-printable one.
The formats print at least two (XML) or four (JSON) hexadecimal digits, and more for
larger characters: an expansion has six characters and its extra digits. One extra
character is covered by the cell that is allocated on top, and a second one by the
terminator's, if that is not written. The size given to `swprintf` is the size of the
whole string, which a single expansion can be too long for.

* `sound_iff_fits`: the pass is a matter of lengths.
* `fits_iff`: only the last character and each expansion by itself matter.
* `encode_sound_iff`: **when the non-printable pass stays inside its buffer.**
-/

namespace Procenv

open Text Outcome

variable {loc : Locale} {fmt : OutputFormat} {cells n : Nat} {c : WChar} {t w : WStr} {st : EncState}

/-- **The second pass is sound from a state**: every store is inside the buffer, every `swprintf`
succeeds, and the cursor does not move backwards. -/
def Sound (loc : Locale) (fmt : OutputFormat) (newSize : Nat) : WStr → EncState → Prop
  | [], _ => True
  | c :: p, st => ∃ st', encodeStep loc fmt newSize st c = .ok st' ∧ 0 ≤ st'.ret ∧ st.q ≤ st'.q ∧
      Sound loc fmt newSize p st'

/-! ## The length of expansions -/

/-- The hexadecimal digits of a character beyond those that the size is computed with. -/
def extraDigits (fmt : OutputFormat) (c : WChar) : Nat := hexWidth c.val - if fmt = .json then 4 else 2

/-- The extra digits of the non-printable characters of a string. -/
def excess (loc : Locale) (fmt : OutputFormat) (t : WStr) : Nat :=
  (t.map fun c => if loc.iswprint c then 0 else extraDigits fmt c).sum

theorem escapeText_length_eq (fmt : OutputFormat) (c : WChar) :
    (escapeText fmt c).length = 6 + extraDigits fmt c := by
  unfold escapeText fmtHex extraDigits
  split
  · simp only [List.length_append, hexFixed_length, show (lit "\\u").length = 2 from rfl]
    omega
  · simp only [List.length_append, hexFixed_length, show (lit "&#x").length = 3 from rfl,
      show (lit ";").length = 1 from rfl]
    omega

/-- The length of the whole text. -/
theorem escape_length (loc : Locale) (fmt : OutputFormat) (t : WStr) :
    (t.flatMap (escapeChar loc fmt)).length = t.length + 5 * nonPrintables loc t + excess loc fmt t := by
  induction t with
  | nil => rfl
  | cons c t ih =>
    rw [List.flatMap_cons, List.length_append, ih]
    unfold nonPrintables excess escapeChar
    rw [List.countP_cons, List.map_cons, List.sum_cons, List.length_cons]
    by_cases hp : loc.iswprint c = true
    · simp only [hp, if_true, List.length_singleton, Bool.not_true, Bool.false_eq_true, if_false]
      omega
    · simp only [hp, Bool.false_eq_true, if_false, escapeText_length_eq, Bool.not_false, if_true]
      omega

theorem encodeSize_eq (t : WStr) : encodeSize loc t = t.length + 1 + 5 * nonPrintables loc t := by
  have : nonPrintables loc t ≤ t.length := List.countP_le_length
  unfold encodeSize
  omega

/-- The extra digits of the only non-printable character. -/
theorem excess_of_one (h : nonPrintables loc t = 1) (hc : c ∈ t) (hp : loc.iswprint c = false) :
    excess loc fmt t = extraDigits fmt c := by
  induction t with
  | nil => simp at hc
  | cons d t ih =>
    unfold nonPrintables at h ih
    unfold excess at ih ⊢
    rw [List.countP_cons] at h
    rw [List.map_cons, List.sum_cons]
    by_cases hd : loc.iswprint d = true
    · have hct : c ∈ t := (List.mem_cons.1 hc).resolve_left fun h => by rw [h, hd] at hp; cases hp
      rw [if_pos hd, Nat.zero_add]
      exact ih (by simpa [hd] using h) hct
    · -- the others print
      have hzero : t.countP (fun c => !loc.iswprint c) = 0 := by simpa [hd] using h
      have hall : ∀ x ∈ t, loc.iswprint x = true := by simpa using List.countP_eq_zero.1 hzero
      obtain rfl : c = d := (List.mem_cons.1 hc).resolve_right fun h => by rw [hall c h] at hp; cases hp
      have hsum : (t.map fun c => if loc.iswprint c then 0 else extraDigits fmt c).sum = 0 := by
        refine List.sum_eq_zero_iff_forall_eq_nat.2 fun x hx => ?_
        obtain ⟨y, hy, rfl⟩ := List.mem_map.1 hx
        rw [if_pos (hall y hy)]
      rw [if_neg hd, hsum, Nat.add_zero]

/-! ## One character -/

theorem store_ok {buf : WStr} {i : Int} (hb : buf = w ++ List.replicate (cells - w.length) 0) (hi : i = w.length)
    (h : w.length < cells) (c : WChar) : store buf i c = .ok (buf.set i.toNat c) := by
  have hlen : buf.length = cells := by
    rw [hb, List.length_append, List.length_replicate]
    omega
  exact if_pos ⟨by omega, by omega⟩

/-- Stores inside the buffer succeed. -/
theorem storeAll_ok {buf : WStr} {i : Int} (hb : buf = w ++ List.replicate (cells - w.length) 0)
    (hi : i = w.length) (h : w.length + t.length ≤ cells) : ∃ buf', storeAll buf i t = .ok buf' := by
  induction t generalizing w buf i with
  | nil => exact ⟨buf, rfl⟩
  | cons c t ih =>
    simp only [List.length_cons] at h
    have hstore := store_ok hb hi (show w.length < cells by omega) c
    have hnext : (i + 1 : Int) = (w ++ [c]).length := by simp [hi]
    obtain ⟨buf', h'⟩ := ih (store_written hb hi hstore) hnext (by simp; omega)
    exact ⟨buf', by rw [storeAll, hstore]; exact h'⟩

/-- **One character**: what a store or an expansion needs. -/
theorem encodeStep_iff (hw : Written cells w st) :
    (∃ st', encodeStep loc fmt n st c = .ok st' ∧ 0 ≤ st'.ret) ↔
      if loc.iswprint c then w.length < cells
      else (escapeText fmt c).length < n ∧ w.length + (escapeText fmt c).length < cells := by
  unfold encodeStep
  by_cases hp : loc.iswprint c = true
  · simp only [if_pos hp]
    constructor
    · rintro ⟨st', h, -⟩
      obtain ⟨buf, hbuf, -⟩ := ok_of_bind h
      have hall : storeAll st.buf st.q ([] ++ [c]) = .ok buf := by
        rw [List.nil_append, storeAll, hbuf]
        rfl
      simpa using storeAll_room hw.buf hw.q hall
    · intro hlt
      exact ⟨{ st with buf := st.buf.set st.q.toNat c, q := st.q + 1 }, by rw [store_ok hw.buf hw.q hlt]; rfl,
        hw.ret⟩
  · simp only [if_neg hp, swprintf]
    constructor
    · rintro ⟨st', h, hret⟩
      obtain ⟨⟨buf, ret⟩, hprint, h⟩ := ok_of_bind h
      obtain rfl := Except.ok.inj h
      split at hprint
      · rename_i hlen
        obtain ⟨buf', hall, -⟩ := ok_of_bind hprint
        exact ⟨hlen, storeAll_room hw.buf hw.q hall⟩
      · -- what is cut returns a negative value
        obtain ⟨buf', -, hprint⟩ := ok_of_bind hprint
        obtain rfl := (Prod.mk.inj (Except.ok.inj hprint)).2
        exact absurd (show (0 : Int) ≤ -1 from hret) (by decide)
    · rintro ⟨hlen, hroom⟩
      obtain ⟨buf, hbuf⟩ := storeAll_ok (t := escapeText fmt c ++ [0]) hw.buf hw.q (by simp; omega)
      refine ⟨_, by rw [if_pos hlen, hbuf]; rfl, ?_⟩
      exact Int.natCast_nonneg _

/-! ## The whole string -/

/-- What the pass needs when `k` characters are written, as a matter of lengths. -/
def Fits (loc : Locale) (fmt : OutputFormat) (newSize : Nat) : Nat → WStr → Prop
  | _, [] => True
  | k, c :: p =>
    (if loc.iswprint c then k < 1 + newSize
      else (escapeText fmt c).length < newSize ∧ k + (escapeText fmt c).length < 1 + newSize) ∧
      Fits loc fmt newSize (k + (escapeChar loc fmt c).length) p

/-- **The pass is a matter of lengths.** -/
theorem sound_iff_fits (hw : Written (1 + n) w st) : Sound loc fmt n t st ↔ Fits loc fmt n w.length t := by
  induction t generalizing w st with
  | nil => exact Iff.rfl
  | cons c t ih =>
    have hfit : ∀ st', encodeStep loc fmt n st c = .ok st' → 0 ≤ st'.ret →
        Written (1 + n) (w ++ escapeChar loc fmt c) st' := by
      intro st' hstep hret
      refine encodeStep_written hw (fun hp => ?_) hstep
      have := (encodeStep_iff hw).1 ⟨st', hstep, hret⟩
      rw [if_neg (by simp [hp])] at this
      exact this.1
    rw [Sound, Fits, ← encodeStep_iff hw, ← List.length_append]
    constructor
    · rintro ⟨st', hstep, hret, -, hrest⟩
      exact ⟨⟨st', hstep, hret⟩, (ih (hfit st' hstep hret)).1 hrest⟩
    · rintro ⟨⟨st', hstep, hret⟩, hrest⟩
      have hw' := hfit st' hstep hret
      refine ⟨st', hstep, hret, ?_, (ih hw').2 hrest⟩
      rw [hw.q, hw'.q, List.length_append]
      omega

theorem escapeChar_pos (loc : Locale) (fmt : OutputFormat) (c : WChar) : 0 < (escapeChar loc fmt c).length := by
  unfold escapeChar
  split
  · simp
  · rw [escapeText_length_eq]
    omega

/-- **Only the last character and each expansion by itself matter.** -/
theorem fits_iff (k : Nat) (t : WStr) :
    Fits loc fmt n k t ↔ (∀ c ∈ t, loc.iswprint c = false → (escapeText fmt c).length < n) ∧
      ∀ c, t.getLast? = some c →
        k + (t.flatMap (escapeChar loc fmt)).length ≤ if loc.iswprint c then 1 + n else n := by
  induction t generalizing k with
  | nil => simp [Fits]
  | cons c t ih =>
    rw [Fits, ih]
    have hlen : (escapeChar loc fmt c).length = if loc.iswprint c then 1 else (escapeText fmt c).length := by
      unfold escapeChar
      split <;> rfl
    rw [List.flatMap_cons, List.length_append, List.forall_mem_cons]
    by_cases ht : t = []
    · subst ht
      by_cases hp : loc.iswprint c = true
      · simp only [hlen, hp, if_true, List.flatMap_nil, List.length_nil, List.getLast?_nil,
          List.getLast?_singleton, reduceCtorEq, Option.some.injEq, forall_eq', false_implies, implies_true,
          and_true, true_and, Bool.true_eq_false, List.not_mem_nil]
        omega
      · rw [Bool.not_eq_true] at hp
        simp only [hlen, hp, if_false, List.flatMap_nil, List.length_nil, List.getLast?_nil,
          List.getLast?_singleton, reduceCtorEq, Option.some.injEq, forall_eq', false_implies, implies_true,
          and_true, true_implies, Bool.false_eq_true, List.not_mem_nil]
        omega
    · -- what is still to be written leaves room for `c`
      have hpos : 0 < (t.flatMap (escapeChar loc fmt)).length := by
        obtain ⟨d, t, rfl⟩ := List.exists_cons_of_ne_nil ht
        rw [List.flatMap_cons, List.length_append]
        have := escapeChar_pos loc fmt d
        omega
      obtain ⟨x, hx⟩ : ∃ x, t.getLast? = some x := ⟨_, List.getLast?_eq_some_getLast ht⟩
      have hlast : (c :: t).getLast? = some x := by simp [List.getLast?_cons, hx]
      have hbound : (if loc.iswprint x then 1 + n else n) ≤ 1 + n := by split <;> omega
      simp only [hlast, hx, Option.some.injEq, forall_eq']
      generalize (if loc.iswprint x then 1 + n else n) = bound at hbound ⊢
      by_cases hp : loc.iswprint c = true
      · simp only [hlen, hp, if_true, Bool.true_eq_false, false_implies, true_and]
        constructor
        · rintro ⟨-, h₁, h₂⟩
          exact ⟨h₁, by omega⟩
        · rintro ⟨h₁, h₂⟩
          exact ⟨by omega, h₁, by omega⟩
      · rw [Bool.not_eq_true] at hp
        simp only [hlen, hp, Bool.false_eq_true, if_false, forall_const]
        constructor
        · rintro ⟨⟨h₀, -⟩, h₁, h₂⟩
          exact ⟨⟨h₀, h₁⟩, by omega⟩
        · rintro ⟨⟨h₀, h₁⟩, h₂⟩
          exact ⟨⟨h₀, by omega⟩, h₁, by omega⟩

/-- An expansion can be too long for the size only if it is the only one. -/
theorem expansions_iff (t : WStr) :
    (∀ c ∈ t, loc.iswprint c = false → (escapeText fmt c).length < encodeSize loc t) ↔
      (nonPrintables loc t = 1 → excess loc fmt t < t.length) := by
  constructor
  · intro h hone
    obtain ⟨c, hc, hp⟩ : ∃ c ∈ t, loc.iswprint c = false := by
      have : 0 < nonPrintables loc t := by omega
      simpa [nonPrintables] using this
    have := h c hc hp
    rw [escapeText_length_eq, encodeSize_eq, hone, ← excess_of_one hone hc hp] at this
    omega
  · intro h c hc hp
    have hpos : 0 < nonPrintables loc t := List.countP_pos_iff.2 ⟨c, hc, by simp [hp]⟩
    by_cases hone : nonPrintables loc t = 1
    · have := h hone
      rw [escapeText_length_eq, encodeSize_eq, hone, ← excess_of_one hone hc hp]
      omega
    · exact encodeSize_room fmt (by omega) c

/-- **When the non-printable pass is sound**: the characters have at most one extra digit together, or
two if the last character prints; and an only non-printable character has fewer of them than the string
has characters. -/
theorem encode_sound_iff (loc : Locale) (fmt : OutputFormat) (s : WStr) :
    let t := outputTranslate fmt s
    Sound loc fmt (encodeSize loc t) t ⟨List.replicate (1 + encodeSize loc t) 0, 0, 0⟩ ↔
      (excess loc fmt t ≤ 1 ∨ excess loc fmt t = 2 ∧ ∃ c, t.getLast? = some c ∧ loc.iswprint c = true) ∧
        (nonPrintables loc t = 1 → excess loc fmt t < t.length) := by
  intro t
  have hw : Written (1 + encodeSize loc t) [] ⟨List.replicate (1 + encodeSize loc t) 0, 0, 0⟩ :=
    ⟨by simp, rfl, Int.le_refl _⟩
  rw [sound_iff_fits hw, fits_iff, expansions_iff, and_comm, and_congr_left_iff]
  intro _
  rw [escape_length, encodeSize_eq]
  cases hlast : t.getLast? with
  | none =>
    have ht : t = [] := by simpa using hlast
    simp [ht, excess]
  | some c =>
    simp only [Option.some.injEq, forall_eq', exists_eq_left']
    by_cases hp : loc.iswprint c = true
    · simp only [hp, if_true, and_true, List.length_nil]
      omega
    · simp only [hp, Bool.false_eq_true, if_false, and_false, or_false, List.length_nil]
      omega

/-- Two line separators, with four digits each: the second expansion does not end inside the buffer. -/
theorem encode_overruns :
    let t := outputTranslate .xml [0x2028, 0x2028]
    ¬ Sound posixLocale .xml (encodeSize posixLocale t) t
      ⟨List.replicate (1 + encodeSize posixLocale t) 0, 0, 0⟩ := by
  intro t h
  have ht : t = [0x2028, 0x2028] := rfl
  rw [sound_iff_fits (w := []) ⟨by simp, rfl, Int.le_refl _⟩, fits_iff] at h
  have hlen := h.2 0x2028 (by rw [ht]; rfl)
  rw [escape_length, encodeSize_eq, ht] at hlen
  exact absurd hlen (by decide)

/-! ## The result -/

/-- A sound pass comes to its end, with the escaped text in the buffer. -/
theorem Sound.written (hw : Written (1 + n) w st) (h : Sound loc fmt n t st) :
    ∃ st', t.foldlM (encodeStep loc fmt n) st = .ok st' ∧
      Written (1 + n) (w ++ t.flatMap (escapeChar loc fmt)) st' := by
  have hrun : ∀ {t st}, Sound loc fmt n t st → ∃ st', t.foldlM (encodeStep loc fmt n) st = .ok st' := by
    intro t
    induction t with
    | nil => exact fun _ => ⟨_, rfl⟩
    | cons c t ih =>
      rintro st ⟨st₁, hstep, -, -, hrest⟩
      obtain ⟨st', hst'⟩ := ih hrest
      exact ⟨st', by rw [List.foldlM_cons, hstep]; exact hst'⟩
  obtain ⟨st', hst'⟩ := hrun h
  exact ⟨st', hst', encode_run t hw ((fits_iff _ _).1 ((sound_iff_fits hw).1 h)).1 hst'⟩

/-- **`encode_string` succeeds** when its pass is sound and leaves a cell for the terminator. -/
theorem encodeString_sound (hf : fmt = .json ∨ fmt = .xml) {s : WStr} (h0 : 0 ∉ s)
    (hsound : Sound loc fmt (encodeSize loc (outputTranslate fmt s)) (outputTranslate fmt s)
      ⟨List.replicate (1 + encodeSize loc (outputTranslate fmt s)) 0, 0, 0⟩)
    (hex : excess loc fmt (outputTranslate fmt s) ≤ 1) :
    ∃ ret, encodeString loc fmt s = .ok (ret, s.flatMap (encodeChar loc fmt)) ∧ 0 ≤ ret := by
  have hw : Written (1 + encodeSize loc (outputTranslate fmt s)) []
      ⟨List.replicate (1 + encodeSize loc (outputTranslate fmt s)) 0, 0, 0⟩ := ⟨by simp, rfl, Int.le_refl _⟩
  obtain ⟨st, hrun, hend⟩ := hsound.written hw
  -- a cell is left after the text
  have hzero : 0 ∈ st.buf := by
    have hlen := escape_length loc fmt (outputTranslate fmt s)
    rw [hend.buf, List.nil_append, List.mem_append, List.mem_replicate, hlen, encodeSize_eq]
    exact Or.inr ⟨by omega, rfl⟩
  obtain ⟨ret, r, hr, hret⟩ : ∃ ret r, encodeString loc fmt s = .ok (ret, r) ∧ 0 ≤ ret := by
    unfold encodeString
    split
    · exact ⟨0, s, rfl, Int.le_refl _⟩
    · rcases hf with rfl | rfl
      all_goals
        simp only [hrun, bind, Except.bind, wcsContent, if_pos hzero, pure, Except.pure]
        split
        · exact ⟨_, _, rfl, Int.le_refl _⟩
        · exact ⟨_, _, rfl, hend.ret⟩
  rw [encodeString_eq hf h0 hr (by omega)] at hr
  exact ⟨ret, hr, hret⟩

end Procenv
