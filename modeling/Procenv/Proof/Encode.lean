import Procenv.Data.Outcome
import Procenv.Model.Encode

/-!
# What `encode_string` writes

Both passes are character by character: `translateChar` is the first pass,
`escapeChar` the second, and `encodeChar` their composition.

* `outputTranslate_eq`: the translation is `translateChar` on every character.
* `encode_run`: the loop writes through the buffer as long as every expansion fits;
  the cells after the cursor stay zero (`Written`).
* `encodeString_eq`: **a successful `encode_string` is `encodeChar` on every
  character**. An expansion that does not fit shows in the value returned, because
  the size computed beforehand has room for two expansions as soon as there are two.
-/

namespace Procenv

open Text

variable {loc : Locale} {fmt : OutputFormat}

/-- The first pass on a character. -/
def translateChar (fmt : OutputFormat) (c : WChar) : WStr :=
  match (translateTable fmt).find? (fun e => c = e.fromChar) with
  | some e => e.toText.getD []
  | none => [c]

/-- The second pass on a character. -/
def escapeChar (loc : Locale) (fmt : OutputFormat) (c : WChar) : WStr :=
  if loc.iswprint c then [c] else escapeText fmt c

/-- Both passes on a character. -/
def encodeChar (loc : Locale) (fmt : OutputFormat) (c : WChar) : WStr :=
  (translateChar fmt c).flatMap (escapeChar loc fmt)

/-! ## The first pass -/

theorem translateLoop_eq (p start result : WStr) :
    translateLoop fmt p start result = result ++ start ++ p.flatMap (translateChar fmt) := by
  induction p generalizing start result with
  | nil => simp [translateLoop]
  | cons c p ih =>
    rw [translateLoop]
    split
    · rename_i e he
      simp [ih, translateChar, he]
    · rename_i he
      simp [ih, translateChar, he]

/-- Every entry of the tables but the terminators makes the text longer. -/
theorem translateTable_entry {e : TranslateMapEntry} (he : e ∈ translateTable fmt) (h0 : e.fromChar ≠ 0) :
    2 ≤ (e.toText.getD []).length := by
  cases fmt <;> simp only [translateTable, List.mem_cons, List.not_mem_nil, or_false] at he
  · rcases he with rfl | rfl | rfl | rfl | rfl | rfl <;> first | decide | exact absurd rfl h0
  · rcases he with rfl | rfl | rfl | rfl | rfl | rfl <;> first | decide | exact absurd rfl h0

/-- Without extra characters nothing is translated. -/
theorem translateChar_of_extra {s : WStr} (h0 : 0 ∉ s) (h : translateExtra fmt s = 0) :
    ∀ c ∈ s, translateChar fmt c = [c] := by
  intro c hc
  rw [translateChar]
  split
  · rename_i e he
    have hce : c = e.fromChar := by simpa using List.find?_some he
    have hmem := List.mem_of_find?_eq_some he
    have hlen := translateTable_entry hmem (fun h => h0 (h ▸ hce ▸ hc))
    -- the entry of `c` adds at least one character to the sum
    have hsum := List.sum_eq_zero_iff_forall_eq_nat.1 h _ (List.mem_map_of_mem hc)
    have := List.sum_eq_zero_iff_forall_eq_nat.1 hsum _ (List.mem_map_of_mem hmem)
    rw [if_pos hce] at this
    omega
  · rfl

/-- **The translation is character by character.** -/
theorem outputTranslate_eq {s : WStr} (h0 : 0 ∉ s) :
    outputTranslate fmt s = s.flatMap (translateChar fmt) := by
  rw [outputTranslate]
  split
  · rename_i h
    rw [List.flatMap_congr (translateChar_of_extra h0 h)]
    simp
  · simp [translateLoop_eq]

theorem zero_notMem_translateChar {c : WChar} (hc : c ≠ 0) : 0 ∉ translateChar fmt c := by
  rw [translateChar]
  split
  · rename_i e he
    have hmem := List.mem_of_find?_eq_some he
    cases fmt <;> simp only [translateTable, List.mem_cons, List.not_mem_nil, or_false] at hmem
    · rcases hmem with rfl | rfl | rfl | rfl | rfl | rfl <;> decide
    · rcases hmem with rfl | rfl | rfl | rfl | rfl | rfl <;> decide
  · simpa using hc.symm

theorem zero_notMem_outputTranslate {s : WStr} (h0 : 0 ∉ s) : 0 ∉ outputTranslate fmt s := by
  rw [outputTranslate_eq h0]
  intro hz
  obtain ⟨c, hc, hz⟩ := List.mem_flatMap.1 hz
  exact zero_notMem_translateChar (fun h => h0 (h ▸ hc)) hz

/-! ## Hexadecimal digits -/

theorem hexDigit_val {d : Nat} (hd : d < 16) : (hexDigit d).val = if d < 10 then 48 + d else 87 + d := by
  unfold hexDigit
  split <;> simp only [Fin.ofNat, Fin.val_mk] <;> omega

theorem hexFixed_digit {w n : Nat} {c : WChar} (h : c ∈ hexFixed w n) : ∃ d < 16, c = hexDigit d := by
  induction w generalizing n with
  | zero => simp [hexFixed] at h
  | succ w ih =>
    rw [hexFixed, List.mem_append, List.mem_singleton] at h
    rcases h with h | h
    · exact ih h
    · exact ⟨n % 16, Nat.mod_lt _ (by omega), h⟩

theorem hexFixed_length (w n : Nat) : (hexFixed w n).length = w := by
  induction w generalizing n with
  | zero => rfl
  | succ w ih => simp [hexFixed, ih]

theorem hexWidth_le (n : Nat) : 1 ≤ hexWidth n ∧ hexWidth n ≤ 6 := by
  unfold hexWidth
  split <;> try omega
  split <;> try omega
  split <;> try omega
  split <;> try omega
  split <;> omega

theorem zero_notMem_hexFixed (w n : Nat) : 0 ∉ hexFixed w n := by
  intro h
  obtain ⟨d, hd, h0⟩ := hexFixed_digit h
  have := congrArg Fin.val h0
  rw [hexDigit_val hd, Fin.val_zero] at this
  split at this <;> omega

theorem escapeText_length (fmt : OutputFormat) (c : WChar) :
    5 ≤ (escapeText fmt c).length ∧ (escapeText fmt c).length ≤ 10 := by
  have := hexWidth_le c.val
  unfold escapeText fmtHex
  split
  · simp only [List.length_append, hexFixed_length, show (lit "\\u").length = 2 from rfl]
    omega
  · simp only [List.length_append, hexFixed_length, show (lit "&#x").length = 3 from rfl,
      show (lit ";").length = 1 from rfl]
    omega

theorem zero_notMem_escapeText (c : WChar) : 0 ∉ escapeText fmt c := by
  unfold escapeText fmtHex
  split
  · simp only [List.mem_append, zero_notMem_hexFixed, or_false]
    decide
  · simp only [List.mem_append, zero_notMem_hexFixed, or_false]
    decide

theorem zero_notMem_escapeChar {c : WChar} (hc : c ≠ 0) : 0 ∉ escapeChar loc fmt c := by
  rw [escapeChar]
  split
  · simpa using hc.symm
  · exact zero_notMem_escapeText c

/-! ## The second pass -/

/-- The text `w` is written, the cursor stands after it, and the other cells are zero. -/
structure Written (cells : Nat) (w : WStr) (st : EncState) : Prop where
  buf : st.buf = w ++ List.replicate (cells - w.length) 0
  q : st.q = w.length
  ret : 0 ≤ st.ret

theorem store_written {cells : Nat} {w buf : WStr} {i : Int} {c : WChar} {buf' : WStr}
    (hb : buf = w ++ List.replicate (cells - w.length) 0) (hi : i = w.length)
    (h : store buf i c = .ok buf') : buf' = (w ++ [c]) ++ List.replicate (cells - (w ++ [c]).length) 0 := by
  unfold store at h
  split at h
  · rename_i hin
    simp only [Except.ok.injEq] at h
    subst hi hb
    have hlen : w.length < cells := by
      have := hin.2
      simp only [List.length_append, List.length_replicate] at this
      omega
    obtain ⟨k, hk⟩ : ∃ k, cells - w.length = k + 1 := ⟨cells - w.length - 1, by omega⟩
    have hk' : cells - (w ++ [c]).length = k := by simp only [List.length_append, List.length_singleton]; omega
    rw [← h, hk', Int.toNat_natCast, hk, List.replicate_succ, List.set_append_right _ _ (Nat.le_refl _)]
    simp
  · simp at h

theorem storeAll_written {cells : Nat} {t w buf : WStr} {i : Int} {buf' : WStr}
    (hb : buf = w ++ List.replicate (cells - w.length) 0) (hi : i = w.length)
    (h : storeAll buf i t = .ok buf') : buf' = (w ++ t) ++ List.replicate (cells - (w ++ t).length) 0 := by
  induction t generalizing w buf i with
  | nil =>
    simp only [storeAll, Except.ok.injEq] at h
    simpa [← h] using hb
  | cons c t ih =>
    simp only [storeAll, bind, Except.bind] at h
    split at h
    · simp at h
    · rename_i b hst
      have := ih (store_written hb hi hst) (by simp [hi]) h
      simpa using this

/-- The terminator that `swprintf` stores is one of the zero cells. -/
theorem written_zero {cells : Nat} {w buf : WStr}
    (hb : buf = (w ++ [0]) ++ List.replicate (cells - (w ++ [0]).length) 0) (hlt : w.length < cells) :
    buf = w ++ List.replicate (cells - w.length) 0 := by
  obtain ⟨k, hk⟩ : ∃ k, cells - w.length = k + 1 := ⟨cells - w.length - 1, by omega⟩
  have hk' : cells - (w ++ [0]).length = k := by simp only [List.length_append, List.length_singleton]; omega
  rw [hb, hk', hk, List.replicate_succ]
  simp

theorem storeAll_room {cells : Nat} {t w buf : WStr} {i : Int} {buf' : WStr} {c : WChar}
    (hb : buf = w ++ List.replicate (cells - w.length) 0) (hi : i = w.length)
    (h : storeAll buf i (t ++ [c]) = .ok buf') : w.length + t.length < cells := by
  induction t generalizing w buf i with
  | nil =>
    -- the last store is inside the buffer
    simp only [List.nil_append, storeAll, bind, Except.bind, store] at h
    split at h
    · simp at h
    · rename_i hst
      split at hst
      · rename_i hin
        subst hb hi
        have := hin.2
        simp only [List.length_append, List.length_replicate] at this
        simp only [List.length_nil]
        omega
      · simp at hst
  | cons d t ih =>
    simp only [List.cons_append, storeAll, bind, Except.bind] at h
    split at h
    · simp at h
    · rename_i b hst
      have := ih (store_written hb hi hst) (by simp [hi]) h
      simp only [List.length_append, List.length_cons, List.length_nil] at this ⊢
      omega

/-- One character whose expansion fits. -/
theorem encodeStep_written {cells n : Nat} {w : WStr} {st st' : EncState} {c : WChar}
    (hw : Written cells w st) (hfit : loc.iswprint c = false → (escapeText fmt c).length < n)
    (h : encodeStep loc fmt n st c = .ok st') : Written cells (w ++ escapeChar loc fmt c) st' := by
  unfold encodeStep at h
  unfold escapeChar
  split at h
  · rename_i hp
    simp only [bind, Except.bind] at h
    split at h
    · simp at h
    · rename_i b hst
      simp only [pure, Except.pure, Except.ok.injEq] at h
      subst h
      rw [if_pos hp]
      exact ⟨store_written hw.buf hw.q hst, by simp [hw.q], hw.ret⟩
  · -- `swprintf` stores the expansion and a terminator, which the next character overwrites
    rename_i hp
    simp only [swprintf, if_pos (hfit (by simpa using hp)), bind, Except.bind, pure, Except.pure] at h
    rw [if_neg hp]
    cases hst : storeAll st.buf st.q (escapeText fmt c ++ [0]) with
    | error e => simp [hst] at h
    | ok b =>
      simp only [hst, Except.ok.injEq] at h
      subst h
      have hroom := storeAll_room hw.buf hw.q hst
      have hb := storeAll_written hw.buf hw.q hst
      rw [← List.append_assoc] at hb
      refine ⟨written_zero hb ?_, by simp [hw.q], by simp⟩
      simpa using hroom

/-- **The loop writes the escaped text** when every expansion fits. -/
theorem encode_run {cells n : Nat} (s : WStr) :
    ∀ {w : WStr} {st st' : EncState}, Written cells w st →
      (∀ c ∈ s, loc.iswprint c = false → (escapeText fmt c).length < n) →
      s.foldlM (encodeStep loc fmt n) st = .ok st' →
      Written cells (w ++ s.flatMap (escapeChar loc fmt)) st' := by
  induction s with
  | nil =>
    intro w st st' hw _ h
    simp only [List.foldlM_nil, pure, Except.pure, Except.ok.injEq] at h
    subst h
    simpa using hw
  | cons c s ih =>
    intro w st st' hw hfit h
    simp only [List.foldlM_cons, bind, Except.bind] at h
    split at h
    · simp at h
    · rename_i st₁ hst
      have h₁ := encodeStep_written hw (hfit c List.mem_cons_self) hst
      have := ih h₁ (fun d hd => hfit d (List.mem_cons_of_mem _ hd)) h
      simpa using this

/-- Printable characters leave the value to return as it is. -/
theorem encode_ret {n : Nat} (s : WStr) :
    ∀ {st st' : EncState}, (∀ c ∈ s, loc.iswprint c = true) →
      s.foldlM (encodeStep loc fmt n) st = .ok st' → st'.ret = st.ret := by
  induction s with
  | nil =>
    intro st st' _ h
    simp only [List.foldlM_nil, pure, Except.pure, Except.ok.injEq] at h
    rw [h]
  | cons c s ih =>
    intro st st' hp h
    simp only [List.foldlM_cons, bind, Except.bind, encodeStep, hp c List.mem_cons_self, if_true] at h
    split at h
    · simp at h
    · rename_i st₁ hst
      split at hst
      · simp at hst
      · simp only [pure, Except.pure, Except.ok.injEq] at hst
        rw [ih (fun d hd => hp d (List.mem_cons_of_mem _ hd)) h, ← hst]

/-- An expansion that does not fit, after which everything prints, shows in the value returned. -/
theorem encode_fail {n : Nat} {a b : WStr} {c : WChar} {st st' : EncState}
    (hc : loc.iswprint c = false) (hlen : n ≤ (escapeText fmt c).length)
    (hb : ∀ d ∈ b, loc.iswprint d = true)
    (h : (a ++ c :: b).foldlM (encodeStep loc fmt n) st = .ok st') : st'.ret = -1 := by
  simp only [List.foldlM_append, List.foldlM_cons, bind, Except.bind] at h
  split at h
  · simp at h
  · rename_i st₁ _
    split at h
    · simp at h
    · rename_i st₂ hst
      rw [encode_ret b hb h]
      simp only [encodeStep, hc, swprintf, if_neg (Nat.not_lt.2 hlen), bind, Except.bind, pure,
        Except.pure] at hst
      cases hs : storeAll st₁.buf st₁.q (List.take (n - 1) (escapeText fmt c) ++ [0]) with
      | error e => simp [hs] at hst
      | ok b' =>
        simp only [hs] at hst
        simp only [Bool.false_eq_true, if_false, Except.ok.injEq] at hst
        rw [← hst]

/-- With two non-printable characters the size has room for every expansion. -/
theorem encodeSize_room (fmt : OutputFormat) {s : WStr} (h : 2 ≤ nonPrintables loc s) (c : WChar) :
    (escapeText fmt c).length < encodeSize loc s := by
  have := (escapeText_length fmt c).2
  unfold encodeSize
  omega

/-- If an expansion does not fit, it is the only one. -/
theorem encode_split {s : WStr} {c : WChar} (hc : c ∈ s) (hp : loc.iswprint c = false)
    (h : nonPrintables loc s < 2) : ∃ a b, s = a ++ c :: b ∧ ∀ d ∈ b, loc.iswprint d = true := by
  obtain ⟨a, b, rfl⟩ := List.append_of_mem hc
  refine ⟨a, b, rfl, fun d hd => ?_⟩
  by_contra hd'
  have h1 : 0 < nonPrintables loc b := List.countP_pos_iff.2 ⟨d, hd, by simpa using hd'⟩
  unfold nonPrintables at h h1
  simp only [List.countP_append, List.countP_cons, hp, Bool.not_false, if_true] at h
  omega

theorem wcsContent_written {cells : Nat} {w buf r : WStr}
    (hb : buf = w ++ List.replicate (cells - w.length) 0) (h0 : 0 ∉ w) (h : wcsContent buf = .ok r) :
    r = w := by
  unfold wcsContent at h
  split at h
  · simp only [Except.ok.injEq] at h
    have hall : ∀ c ∈ w, (decide (c ≠ 0)) = true := fun c hc => by
      simp only [decide_eq_true_eq]
      rintro rfl
      exact h0 hc
    rw [← h, hb, List.takeWhile_append_of_pos hall]
    cases cells - w.length <;> simp [List.replicate_succ]
  · simp at h

/-- What the loop leaves in the buffer, when `encode_string` does not fail after it. -/
theorem encode_loop {t new : WStr} {st : EncState} (htz : 0 ∉ t)
    (hrun : t.foldlM (encodeStep loc fmt (encodeSize loc t)) ⟨List.replicate (1 + encodeSize loc t) 0, 0, 0⟩ =
      .ok st)
    (hcont : wcsContent st.buf = .ok new) (hret : ¬ st.ret < 0) : new = t.flatMap (escapeChar loc fmt) := by
  by_cases hfit : ∀ c ∈ t, loc.iswprint c = false → (escapeText fmt c).length < encodeSize loc t
  · have hw : Written (1 + encodeSize loc t) [] ⟨List.replicate (1 + encodeSize loc t) 0, 0, 0⟩ :=
      ⟨by simp, rfl, Int.le_refl _⟩
    have hend := encode_run t hw hfit hrun
    rw [List.nil_append] at hend
    refine wcsContent_written hend.buf ?_ hcont
    intro hz
    obtain ⟨c, hc, hz⟩ := List.mem_flatMap.1 hz
    exact zero_notMem_escapeChar (fun h => htz (h ▸ hc)) hz
  · -- an expansion that does not fit is the only one, and its `swprintf` is the last
    simp only [not_forall, Nat.not_lt] at hfit
    obtain ⟨c, hc, hp, hlen⟩ := hfit
    have hnp : nonPrintables loc t < 2 := by
      by_contra hnp
      have := encodeSize_room fmt (Nat.not_lt.1 hnp) c
      omega
    obtain ⟨a, b, rfl, hb⟩ := encode_split hc hp hnp
    rw [encode_fail hp hlen hb hrun] at hret
    exact absurd (by decide) hret

/-- **A successful `encode_string` in JSON or XML is `encodeChar` on every character.** -/
theorem encodeString_eq (hf : fmt = .json ∨ fmt = .xml) {s r : WStr} {ret : Int} (h0 : 0 ∉ s)
    (h : encodeString loc fmt s = .ok (ret, r)) (hret : ¬ ret < 0) :
    r = s.flatMap (encodeChar loc fmt) := by
  have htr : outputTranslate fmt s = s.flatMap (translateChar fmt) := outputTranslate_eq h0
  have htz : 0 ∉ outputTranslate fmt s := zero_notMem_outputTranslate h0
  have hgoal : s.flatMap (encodeChar loc fmt) = (outputTranslate fmt s).flatMap (escapeChar loc fmt) := by
    rw [htr, List.flatMap_assoc]
    rfl
  rw [hgoal]
  -- the two formats differ in the expansions only
  have key : (if s.length + 1 ≤ 1 then Except.ok (0, s) else
      if nonPrintables loc (outputTranslate fmt s) = 0 then .ok (0, outputTranslate fmt s) else
        ((outputTranslate fmt s).foldlM (encodeStep loc fmt (encodeSize loc (outputTranslate fmt s)))
          ⟨List.replicate (1 + encodeSize loc (outputTranslate fmt s)) 0, 0, 0⟩).bind fun st =>
          (wcsContent st.buf).bind fun new => .ok (st.ret, new)) = .ok (ret, r) := by
    rw [← h]
    rcases hf with rfl | rfl <;> rfl
  generalize outputTranslate fmt s = t at key htz htr
  split at key
  · rename_i hs
    have hs' : s = [] := List.eq_nil_of_length_eq_zero (by omega)
    subst hs'
    simp only [Except.ok.injEq, Prod.mk.injEq] at key
    simp only [List.flatMap_nil] at htr
    simp [htr, ← key.2]
  · split at key
    · rename_i hnp
      simp only [Except.ok.injEq, Prod.mk.injEq] at key
      have hall : ∀ c ∈ t, escapeChar loc fmt c = [c] := by
        intro c hc
        have := List.countP_eq_zero.1 hnp c hc
        simp only [Bool.not_eq_true', Bool.not_eq_false] at this
        simp [escapeChar, this]
      rw [List.flatMap_congr hall]
      simp [← key.2]
    · cases hrun : t.foldlM (encodeStep loc fmt (encodeSize loc t))
          ⟨List.replicate (1 + encodeSize loc t) 0, 0, 0⟩ with
      | error e => simp [hrun, Except.bind] at key
      | ok st =>
        cases hcont : wcsContent st.buf with
        | error e => simp [hrun, hcont, Except.bind] at key
        | ok new =>
          simp only [hrun, hcont, Except.bind, Except.ok.injEq, Prod.mk.injEq] at key
          obtain ⟨rfl, rfl⟩ := key
          exact encode_loop htz hrun hcont hret

/-- What `encode_string` leaves has no terminator in it, also when it fails. -/
theorem zero_notMem_encodeString {s r : WStr} {ret : Int} (h0 : 0 ∉ s)
    (h : encodeString loc fmt s = .ok (ret, r)) : 0 ∉ r := by
  have hcont : ∀ {buf new}, wcsContent buf = .ok new → 0 ∉ new := by
    intro buf new hnew hz
    rw [wcsContent] at hnew
    split at hnew
    · rw [← Except.ok.inj hnew] at hz
      have := List.all_eq_true.1 List.all_takeWhile 0 hz
      simp at this
    · cases hnew
  have hplain : ∀ {t n}, 0 ∉ t → (Except.ok (n, t) : Except Halt (Int × WStr)) = .ok (ret, r) → 0 ∉ r := by
    intro t n ht h
    obtain ⟨-, rfl⟩ := Prod.mk.inj (Except.ok.inj h)
    exact ht
  unfold encodeString at h
  split at h
  · exact hplain h0 h
  · cases fmt with
    | text | crumb => exact hplain h0 h
    | json | xml =>
      simp only at h
      split at h
      · exact hplain (zero_notMem_outputTranslate h0) h
      · obtain ⟨st, -, h⟩ := Outcome.ok_of_bind h
        obtain ⟨new, hnew, h⟩ := Outcome.ok_of_bind h
        exact hplain (hcont hnew) h

end Procenv
