import Procenv.Model.Pstring

/-!
# What `pstring_compress` removes

`Squeeze` is the copy loop without its pointers and counters: newlines in a row are
copied once, a run of two or more remove characters up to a newline is dropped with
the newlines after it, and everything else is copied. Whether such a run is a line
or the end of one makes no difference to the loop.

* `chomp_split`, `chomp_ended`: what `pstring_chomp` leaves, which ends in at most one
  such character.
* `compressLoop_squeeze`: **the copy loop squeezes**, without leaving the buffer.
* `compress_squeeze`: the cut after it takes at most one character more.
* `Squeeze.copy`, `Squeeze.newlines`, `Squeeze.drop`: what comes of the start of a text.
-/

namespace Procenv

open Text

variable {c : WChar} {s t w : WStr}

/-! ## Chomped texts -/

/-- At most one newline or remove character at the end. -/
def Ended (c : WChar) (s : WStr) : Prop :=
  ∀ p y, s = p ++ y → (∀ z ∈ y, z = nl ∨ z = c) → y.length ≤ 1

theorem Ended.suffix {p : WStr} (h : Ended c (p ++ s)) : Ended c s := fun q y hq hy =>
  h (p ++ q) y (by rw [hq, List.append_assoc]) hy

/-- The scan splits off the characters to remove. -/
theorem chompScan_eq {rev : WStr} {n k : Nat} (h : chompScan c rev n = .ok k) :
    ∃ y x p, rev = y ++ x :: p ∧ (∀ z ∈ y, z = nl ∨ z = c) ∧ ¬ (x = nl ∨ x = c) ∧ k = n + y.length := by
  induction rev generalizing n with
  | nil => simp [chompScan] at h
  | cons x rev ih =>
    rw [chompScan] at h
    split at h
    · rename_i hx
      obtain ⟨y, x', p, rfl, hy, hx', hk⟩ := ih h
      refine ⟨x :: y, x', p, rfl, ?_, hx', ?_⟩
      · intro z hz
        rcases List.mem_cons.1 hz with rfl | hz
        · exact hx
        · exact hy z hz
      · simp only [List.length_cons]
        omega
    · rename_i hx
      simp only [Except.ok.injEq] at h
      exact ⟨[], x, rev, rfl, by simp, hx, by simpa using h.symm⟩

/-- After another character, at most one character to remove is at the end. -/
theorem ended_append {p y : WStr} {x : WChar} (hx : ¬ (x = nl ∨ x = c)) (hy : y.length ≤ 1) :
    Ended c (p ++ x :: y) := by
  intro q z hq hz
  rcases List.append_eq_append_iff.1 hq with ⟨a, rfl, ha⟩ | ⟨a, rfl, ha⟩
  · -- the suffix starts after `p`: not at `x`
    rcases a with _ | ⟨b, a⟩
    · simp only [List.nil_append] at ha
      exact absurd (hz x (by rw [← ha]; simp)) hx
    · simp only [List.cons_append, List.cons.injEq] at ha
      have := congrArg List.length ha.2
      simp only [List.length_append] at this
      omega
  · exact absurd (hz x (by rw [ha]; simp)) hx

/-- The scan counts the characters to remove, up to another one. -/
theorem chompScan_append {x : WChar} {y p : WStr} (hx : ¬ (x = nl ∨ x = c))
    (hy : ∀ z ∈ y, z = nl ∨ z = c) (n : Nat) :
    chompScan c (y ++ x :: p) n = .ok (n + y.length) := by
  induction y generalizing n with
  | nil => rw [List.nil_append, chompScan, if_neg hx, List.length_nil, Nat.add_zero]
  | cons z y ih =>
    have hrest := ih (fun z' hz' => hy z' (List.mem_cons_of_mem z hz')) (n + 1)
    rw [List.cons_append, chompScan, if_pos (hy z List.mem_cons_self), hrest, List.length_cons]
    congr 1
    omega

/-- **`pstring_chomp`** cuts the characters to remove off the end, and adds a newline if there are two
or more of them. -/
theorem chomp_split {x : WChar} {p y : WStr} (hx : ¬ (x = nl ∨ x = c)) (hy : ∀ z ∈ y, z = nl ∨ z = c) :
    pstringChomp c (p ++ x :: y) = .ok (if 1 < y.length then p ++ [x, nl] else p ++ x :: y) := by
  have hscan : chompScan c (p ++ x :: y).reverse 0 = .ok y.length := by
    have h := chompScan_append (p := p.reverse) hx (y := y.reverse) (by simpa using hy) 0
    simpa using h
  unfold pstringChomp
  split
  · -- a single character
    rename_i hlen
    simp only [List.length_append, List.length_cons] at hlen
    rw [if_neg (by omega)]
    rfl
  · simp only [hscan, bind, Except.bind, pure, Except.pure, gt_iff_lt]
    rcases y with _ | ⟨z, y⟩
    · rfl
    by_cases hlong : 1 < (z :: y).length
    · have hlen : (p ++ x :: z :: y).length - ((z :: y).length - 1) = (p ++ [x]).length + 1 := by
        simp only [List.length_append, List.length_cons, List.length_nil] at hlong ⊢
        omega
      have htake : (p ++ x :: z :: y).take ((p ++ [x]).length + 1) = (p ++ [x]) ++ [z] := by
        rw [show p ++ x :: z :: y = (p ++ [x]) ++ z :: y by simp, List.take_length_add_append]
        simp
      rw [if_pos hlong, if_pos hlong, hlen, htake, Nat.add_sub_cancel, List.set_append_right _ _ (Nat.le_refl _)]
      simp
    · rw [if_neg hlong, if_neg hlong]

/-- `pstring_chomp`, read backwards. -/
theorem chomp_eq (h : pstringChomp c t = .ok s) :
    (t.length < 2 ∧ s = t) ∨ ∃ p x y, t = p ++ x :: y ∧ ¬ (x = nl ∨ x = c) ∧ (∀ z ∈ y, z = nl ∨ z = c) ∧
      s = if 1 < y.length then p ++ [x, nl] else t := by
  by_cases hlen : t.length < 2
  · rw [pstringChomp, if_pos hlen] at h
    exact Or.inl ⟨hlen, (Except.ok.inj h).symm⟩
  have hscan : ∃ k, chompScan c t.reverse 0 = .ok k := by
    rw [pstringChomp, if_neg hlen] at h
    cases hk : chompScan c t.reverse 0 with
    | error e => simp [hk, bind, Except.bind] at h
    | ok k => exact ⟨k, rfl⟩
  obtain ⟨k, hk⟩ := hscan
  obtain ⟨y, x, p, hrev, hy, hx, -⟩ := chompScan_eq hk
  have ht : t = p.reverse ++ x :: y.reverse := by simpa using congrArg List.reverse hrev
  have hy' : ∀ z ∈ y.reverse, z = nl ∨ z = c := by simpa using hy
  rw [ht, chomp_split hx hy', ← ht] at h
  exact Or.inr ⟨p.reverse, x, y.reverse, ht, hx, hy', (Except.ok.inj h).symm⟩

/-- The last character of a text that is not to be removed. -/
theorem last_other (h : ∃ x ∈ t, ¬ (x = nl ∨ x = c)) :
    ∃ p x y, t = p ++ x :: y ∧ ¬ (x = nl ∨ x = c) ∧ ∀ z ∈ y, z = nl ∨ z = c := by
  obtain ⟨p, x, y, ht, hx, hy⟩ := last_of h
  exact ⟨p, x, y, ht, hx, fun z hz => not_not.1 (hy z hz)⟩

/-- What `pstring_chomp` leaves. -/
theorem chomp_ended (h : pstringChomp c t = .ok s) : Ended c s := by
  rcases chomp_eq h with ⟨hlen, rfl⟩ | ⟨p, x, y, rfl, hx, -, rfl⟩
  · intro p y hp _
    have := congrArg List.length hp
    simp only [List.length_append] at this
    omega
  · split
    · exact ended_append (y := [nl]) hx (by simp)
    · exact ended_append hx (by omega)

/-! ## The copy loop -/

/-- A run of at least two remove characters up to a newline. -/
def BlankRun (c : WChar) (s : WStr) : Prop := ∃ m r, 2 ≤ m ∧ s = List.replicate m c ++ nl :: r

/-- **The copy loop without pointers and counters.** -/
inductive Squeeze (c : WChar) : WStr → WStr → Prop
  | nil : Squeeze c [] []
  | blank {t w : WStr} : Squeeze c (nl :: t) w → Squeeze c (nl :: nl :: t) w
  | newline {t w : WStr} : t.head? ≠ some nl → Squeeze c t w → Squeeze c (nl :: t) (nl :: w)
  | char {x : WChar} {t w : WStr} : x ≠ nl → ¬ BlankRun c (x :: t) → Squeeze c t w → Squeeze c (x :: t) (x :: w)
  | run {m j : Nat} {r w : WStr} : 2 ≤ m → r.head? ≠ some nl → Squeeze c r w →
      Squeeze c (List.replicate m c ++ nl :: (List.replicate j nl ++ r)) w

theorem skipBlanks_eq (b : Nat) :
    ∃ start b', skipBlanks s b = (start, b') ∧ (s ≠ [] → start ≠ []) ∧ start.length ≤ s.length ∧
      (∀ r, start ≠ nl :: nl :: r) ∧ (∃ p, s = p ++ start) ∧ (Squeeze c start w → Squeeze c s w) := by
  induction s generalizing b with
  | nil => exact ⟨[], b, rfl, by simp, by simp, by simp, ⟨[], rfl⟩, id⟩
  | cons x s ih =>
    rcases s with _ | ⟨y, s⟩
    · exact ⟨[x], b, rfl, by simp, by simp, by simp, ⟨[], rfl⟩, id⟩
    · rw [skipBlanks]
      split
      · rename_i h
        obtain ⟨start, b', heq, h1, h2, h3, ⟨p, h4⟩, h5⟩ := ih (b + 1)
        refine ⟨start, b', heq, fun _ => h1 (by simp), ?_, h3, ⟨x :: p, by rw [h4]; rfl⟩, fun hs => ?_⟩
        · simp only [List.length_cons] at h2 ⊢
          omega
        · have := h5 hs
          rw [h.1, h.2] at *
          exact .blank this
      · rename_i h
        refine ⟨x :: y :: s, b, rfl, by simp, Nat.le_refl _, ?_, ⟨[], rfl⟩, id⟩
        intro r hr
        simp only [List.cons.injEq] at hr
        exact h ⟨hr.1, hr.2.1⟩

theorem skipRun_eq (n : Nat) :
    ∃ m r, skipRun c s n = (r, n + m) ∧ s = List.replicate m c ++ r ∧ r.head? ≠ some c := by
  induction s generalizing n with
  | nil => exact ⟨0, [], rfl, rfl, by simp⟩
  | cons x s ih =>
    rw [skipRun]
    split
    · rename_i h
      obtain ⟨m, r, heq, hs, hr⟩ := ih (n + 1)
      refine ⟨m + 1, r, by rw [heq]; simp only [Prod.mk.injEq, true_and]; omega, ?_, hr⟩
      rw [h, List.replicate_succ, List.cons_append, ← hs]
    · rename_i h
      exact ⟨0, x :: s, rfl, rfl, by simpa using h⟩

theorem skipNewlines_eq : ∃ j, s = List.replicate j nl ++ skipNewlines s ∧ (skipNewlines s).head? ≠ some nl := by
  induction s with
  | nil => exact ⟨0, rfl, by simp [skipNewlines]⟩
  | cons x s ih =>
    rw [skipNewlines]
    split
    · rename_i h
      obtain ⟨j, hs, hh⟩ := ih
      refine ⟨j + 1, ?_, hh⟩
      rw [h, List.replicate_succ, List.cons_append, ← hs]
    · rename_i h
      exact ⟨0, rfl, by simpa using h⟩

/-- The run at the start of a text is unique. -/
theorem run_unique {m m' : Nat} {r r' : WStr} (hr : r.head? ≠ some c) (hr' : r'.head? ≠ some c)
    (h : List.replicate m c ++ r = List.replicate m' c ++ r') : m = m' ∧ r = r' := by
  have := span_unique (p := fun x => decide (x = c)) (a := List.replicate m c)
    (by simp) (by simp)
    (by intro x hx; simp only [decide_eq_false_iff_not]; rintro rfl; exact hr hx)
    (by intro x hx; simp only [decide_eq_false_iff_not]; rintro rfl; exact hr' hx) h
  exact ⟨by simpa using congrArg List.length this.1, this.2⟩

theorem not_blankRun_of_head (h : s.head? ≠ some c) : ¬ BlankRun c s := by
  rintro ⟨m, q, hm, rfl⟩
  obtain ⟨m, rfl⟩ : ∃ k, m = k + 1 := ⟨m - 1, by omega⟩
  simp [List.replicate_succ] at h

theorem run_ne_newline (hc : c ≠ nl) {m : Nat} (hm : 2 ≤ m) {t q : WStr} : List.replicate m c ++ t ≠ nl :: q := by
  obtain ⟨m, rfl⟩ : ∃ k, m = k + 1 := ⟨m - 1, by omega⟩
  intro h
  exact hc (List.cons.inj h).1

/-- A character is copied where no blank line and no run up to a newline starts. -/
theorem squeeze_cons {y : WChar} (hnn : ∀ q, y :: t ≠ nl :: nl :: q) (hbr : ¬ BlankRun c (y :: t))
    (hw : Squeeze c t w) : Squeeze c (y :: t) (y :: w) := by
  by_cases hy : y = nl
  · subst hy
    refine .newline (fun ht => ?_) hw
    rcases t with _ | ⟨z, t⟩
    · simp at ht
    · simp only [List.head?_cons, Option.some.injEq] at ht
      exact hnn t (by rw [ht])
  · exact .char hy hbr hw

/-- The newlines that are skipped after a run. -/
theorem skipNewlines_of_head {r : WStr} (hr : r.head? = some nl) :
    ∃ j, r = nl :: (List.replicate j nl ++ skipNewlines r) ∧ (skipNewlines r).head? ≠ some nl := by
  obtain ⟨j, hj, hh⟩ := skipNewlines_eq (s := r)
  rcases j with _ | j
  · rw [List.replicate_zero, List.nil_append] at hj
    exact absurd (hj ▸ hr) hh
  · exact ⟨j, by rw [← List.cons_append, ← List.replicate_succ]; exact hj, hh⟩

/-- A chomped text does not end in a run and newlines. -/
theorem not_ended_run {p : WStr} {m : Nat} (hm : m ≠ 0) (j : Nat) :
    ¬ Ended c (p ++ (List.replicate m c ++ nl :: List.replicate j nl)) := by
  intro hend
  have hlen := hend p _ rfl (by
    intro z hz
    simp only [List.mem_append, List.mem_replicate, List.mem_cons] at hz
    rcases hz with hz | hz | hz
    · exact Or.inr hz.2
    · exact Or.inl hz
    · exact Or.inl hz.2)
  simp only [List.length_append, List.length_replicate, List.length_cons] at hlen
  omega

/-- **What a round does**: it jumps back, or copies a character, and squeezing goes on from there;
it fails only where the text ends in characters to remove. -/
theorem compressRound_squeeze (hs : s ≠ []) (count blanks : Nat) :
    ∃ p r again count' blanks', compressRound c s count blanks = ⟨r, again, count', blanks'⟩ ∧ s = p ++ r ∧
      match again, r with
      | true, r => r.length < s.length ∧ ∀ w, Squeeze c r w → Squeeze c s w
      | false, y :: r => ∀ w, Squeeze c r w → Squeeze c s (y :: w)
      | false, [] => ¬ Ended c s := by
  obtain ⟨start, b', hsb, hne, hlen, hnn, ⟨p, hp⟩, -⟩ := skipBlanks_eq (c := c) (s := s) (w := []) blanks
  have hsq : ∀ w, Squeeze c start w → Squeeze c s w := by
    intro w hw
    obtain ⟨start', b'', hsb', -, -, -, -, h⟩ := skipBlanks_eq (c := c) (s := s) (w := w) blanks
    rw [hsb, Prod.mk.injEq] at hsb'
    exact h (hsb'.1 ▸ hw)
  obtain ⟨m, r, hrun, hstart, hr⟩ := skipRun_eq (c := c) (s := start) 0
  have hround : compressRound c s count blanks =
      if m ≠ 0 then
        if r.head? = some nl ∧ m ≠ 1 then
          if (skipNewlines r).head? = some c then ⟨skipNewlines r, true, count + m, b'⟩
          else ⟨skipNewlines r, false, count + m, b' + 1⟩
        else ⟨start, false, 0, b'⟩
      else ⟨start, false, count, b'⟩ := by
    simp only [compressRound, hsb, hrun, Nat.zero_add]
  -- copying the first character of `start`, where no run ends a line
  have hcopy : ¬ BlankRun c start → ∃ y t, start = y :: t ∧ ∀ w, Squeeze c t w → Squeeze c s (y :: w) := by
    intro hbr
    obtain ⟨y, t, rfl⟩ := List.exists_cons_of_ne_nil (hne hs)
    exact ⟨y, t, rfl, fun w hw => hsq _ (squeeze_cons hnn hbr hw)⟩
  by_cases hm : m = 0
  · subst hm
    rw [List.replicate_zero, List.nil_append] at hstart
    obtain ⟨y, t, hyt, hw⟩ := hcopy (not_blankRun_of_head (hstart ▸ hr))
    refine ⟨p, y :: t, false, count, b', ?_, hyt ▸ hp, hw⟩
    rw [hround, if_neg (by simp), hyt]
  by_cases hrm : r.head? = some nl ∧ m ≠ 1
  · -- the run and the newlines after it are skipped
    obtain ⟨j, hj, hjh⟩ := skipNewlines_of_head hrm.1
    have hst : start = List.replicate m c ++ nl :: (List.replicate j nl ++ skipNewlines r) := by
      rw [← hj]
      exact hstart
    have hrsq : ∀ w, Squeeze c (skipNewlines r) w → Squeeze c s w := fun w hw =>
      hsq w (hst ▸ .run (by omega) hjh hw)
    have hsplit : s = p ++ (List.replicate m c ++ nl :: List.replicate j nl) ++ skipNewlines r := by
      rw [hp, hst]
      simp
    by_cases hrc : (skipNewlines r).head? = some c
    · refine ⟨_, _, true, count + m, b', ?_, hsplit, ?_, hrsq⟩
      · rw [hround, if_pos hm, if_pos hrm, if_pos hrc]
      · have := congrArg List.length hsplit
        simp only [List.length_append, List.length_cons, List.length_replicate] at this
        omega
    · refine ⟨_, _, false, count + m, b' + 1, ?_, hsplit, ?_⟩
      · rw [hround, if_pos hm, if_pos hrm, if_neg hrc]
      · cases hq : skipNewlines r with
        | nil =>
          rw [hsplit, hq, List.append_nil]
          exact not_ended_run hm j
        | cons y q =>
          intro w hw
          rw [hq] at hjh hrc hrsq
          exact hrsq _ (.char (by simpa using hjh) (not_blankRun_of_head hrc) hw)
  · -- the round goes back to `start`, as a run before another character is kept
    obtain ⟨y, t, hyt, hw⟩ := hcopy (by
      rintro ⟨k, q, hk, hq⟩
      by_cases hc : c = nl
      · -- two newlines are not left at the start
        obtain ⟨j, rfl⟩ : ∃ j, k = j + 2 := ⟨k - 2, by omega⟩
        rw [hc] at hq
        exact hnn _ hq
      · obtain ⟨rfl, rfl⟩ := run_unique hr (by simpa using Ne.symm hc) (hstart.symm.trans hq)
        exact hrm ⟨rfl, by omega⟩)
    refine ⟨p, y :: t, false, 0, b', ?_, hyt ▸ hp, hw⟩
    rw [hround, if_pos hm, if_neg hrm, hyt]

/-- **The copy loop squeezes**, and it does not fail on a chomped text. -/
theorem compressLoop_squeeze (fuel : Nat) :
    ∀ {s : WStr} (out : WStr) (count blanks : Nat), Ended c s → s.length < fuel →
      ∃ w count' blanks', compressLoop c fuel s out count blanks = .ok (out ++ w, count', blanks') ∧
        Squeeze c s w := by
  induction fuel with
  | zero => intro s out count blanks _ h; omega
  | succ fuel ih =>
    intro s out count blanks hend hlen
    rcases s with _ | ⟨x, s⟩
    · exact ⟨[], count, blanks, by simp [compressLoop], .nil⟩
    · obtain ⟨p, r, again, count', blanks', hround, hsplit, hspec⟩ :=
        compressRound_squeeze (s := x :: s) (by simp) count blanks
      have hendr : Ended c r := Ended.suffix (hsplit ▸ hend)
      cases again with
      | true =>
        simp only at hspec
        obtain ⟨w, k, b, hrun, hw⟩ := ih out count' blanks' hendr (by omega)
        exact ⟨w, k, b, by rw [compressLoop, hround]; exact hrun, hspec.2 w hw⟩
      | false =>
        rcases r with _ | ⟨y, r⟩
        · exact absurd hend hspec
        · have hlen' := congrArg List.length hsplit
          simp only [List.length_append, List.length_cons] at hlen' hlen
          obtain ⟨w, k, b, hrun, hw⟩ := ih (s := r) (out ++ [y]) count' blanks' (Ended.suffix (p := [y]) hendr)
            (by omega)
          refine ⟨y :: w, k, b, ?_, hspec w hw⟩
          rw [compressLoop, hround]
          simp only [hrun]
          simp

/-- Squeezing only leaves characters out. -/
theorem Squeeze.sublist (h : Squeeze c s w) : w.Sublist s := by
  induction h with
  | nil => exact .slnil
  | blank _ ih => exact ih.cons _
  | newline _ _ ih => exact ih.cons_cons _
  | char _ _ _ ih => exact ih.cons_cons _
  | @run m j r w _ _ _ ih =>
    have : (List.replicate m c ++ nl :: (List.replicate j nl ++ r)) =
        (List.replicate m c ++ nl :: List.replicate j nl) ++ r := by simp
    rw [this]
    exact ih.trans (List.sublist_append_right _ _)

/-- A run of two or more up to a newline costs at least three characters. -/
theorem Squeeze.length_run (hc : c ≠ nl) (h : Squeeze c s w) :
    ∀ {p q : WStr} {m : Nat}, 2 ≤ m → s = p ++ (List.replicate m c ++ nl :: q) → w.length + 3 ≤ s.length := by
  induction h with
  | nil => intro p q m _ h; simp at h
  | @blank t w _ ih =>
    intro p q m hm heq
    rcases p with _ | ⟨x, p⟩
    · exact absurd heq.symm (run_ne_newline hc hm)
    · have := ih hm (List.cons.inj heq).2
      simp only [List.length_cons] at this ⊢
      omega
  | @newline t w _ _ ih =>
    intro p q m hm heq
    rcases p with _ | ⟨x, p⟩
    · exact absurd heq.symm (run_ne_newline hc hm)
    · have := ih hm (List.cons.inj heq).2
      simp only [List.length_cons]
      omega
  | @char x t w _ hnb _ ih =>
    intro p q m hm heq
    rcases p with _ | ⟨y, p⟩
    · exact absurd ⟨m, q, hm, heq⟩ hnb
    · have := ih hm (List.cons.inj heq).2
      simp only [List.length_cons]
      omega
  | @run m j r w hm _ hr _ =>
    intro _ _ _ _ _
    have := hr.sublist.length_le
    simp only [List.length_append, List.length_replicate, List.length_cons]
    omega

/-- A round where no empty line and no such run starts copies a character, and counts nothing. -/
theorem compressRound_id {x : WChar} {blanks : Nat} (hnb : ¬ BlankRun c (x :: s))
    (hnn : ∀ q, x :: s ≠ nl :: nl :: q) : compressRound c (x :: s) 0 blanks = ⟨x :: s, false, 0, blanks⟩ := by
  have hskip : skipBlanks (x :: s) blanks = (x :: s, blanks) := by
    rcases s with _ | ⟨y, s⟩
    · rfl
    · rw [skipBlanks, if_neg]
      rintro ⟨rfl, rfl⟩
      exact hnn s rfl
  obtain ⟨m, r, hrun, heq, hr⟩ := skipRun_eq (c := c) (s := x :: s) 0
  simp only [compressRound, hskip, hrun, Nat.zero_add]
  split
  · rename_i hm
    split
    · rename_i hrm
      refine absurd ?_ hnb
      cases r with
      | nil => simp at hrm
      | cons y r =>
        simp only [List.head?_cons, Option.some.injEq] at hrm
        exact ⟨m, r, by omega, by rw [heq, hrm.1]⟩
    · rfl
  · rfl

/-- What comes before the first empty line or such run is copied. -/
theorem compressLoop_copy {a : WStr} (fuel : Nat) :
    ∀ (out : WStr) (blanks : Nat),
      (∀ p r, a = p ++ r → r ≠ [] → ¬ BlankRun c (r ++ t) ∧ ∀ q, r ++ t ≠ nl :: nl :: q) →
      compressLoop c (a.length + fuel) (a ++ t) out 0 blanks = compressLoop c fuel t (out ++ a) 0 blanks := by
  induction a with
  | nil => intro out blanks _; simp
  | cons x a ih =>
    intro out blanks h
    obtain ⟨hnb, hnn⟩ := h [] (x :: a) rfl (by simp)
    rw [List.cons_append] at hnb hnn
    rw [show (x :: a).length + fuel = (a.length + fuel) + 1 by simp; omega, List.cons_append, compressLoop,
      compressRound_id hnb hnn]
    simp only
    rw [ih (out ++ [x]) blanks fun p r hpr hr => h (x :: p) r (by rw [hpr]; rfl) hr]
    simp

/-- Nothing is removed from a text without empty lines and without such runs, and nothing counted. -/
theorem compressLoop_id (fuel : Nat) {s : WStr} (out : WStr) (blanks : Nat)
    (hs : ∀ p r, s = p ++ r → ¬ BlankRun c r ∧ ∀ q, r ≠ nl :: nl :: q) (hlen : s.length < fuel) :
    compressLoop c fuel s out 0 blanks = .ok (out ++ s, 0, blanks) := by
  obtain ⟨k, rfl⟩ : ∃ k, fuel = s.length + (k + 1) := ⟨fuel - s.length - 1, by omega⟩
  have h := compressLoop_copy (c := c) (a := s) (t := []) (k + 1) out blanks
    fun p r hpr _ => by simpa using hs p r hpr
  rw [List.append_nil] at h
  rw [h, compressLoop]

/-! ## Counts -/

theorem skipBlanks_counts (s : WStr) (b : Nat) :
    (skipBlanks s b).1.length + (skipBlanks s b).2 = s.length + b := by
  induction s generalizing b with
  | nil => rfl
  | cons x s ih =>
    rcases s with _ | ⟨y, s⟩
    · rfl
    · rw [skipBlanks]
      split
      · have hrest := ih (b + 1)
        simp only [List.length_cons] at hrest ⊢
        omega
      · rfl

/-- **A round**: what is counted is left out, and the jump leads to a text that is left. -/
theorem compressRound_counts (s : WStr) (count blanks : Nat) :
    let round := compressRound c s count blanks
    round.src.length + round.count + round.blanks ≤ s.length + count + blanks ∧
      (round.again = true → round.src ≠ []) := by
  obtain ⟨start, b', hsb, -⟩ := skipBlanks_eq (c := c) (s := s) (w := []) blanks
  obtain ⟨m, r, hrun, hstart, -⟩ := skipRun_eq (c := c) (s := start) 0
  obtain ⟨k, hk, -⟩ := skipNewlines_eq (s := r)
  have hcounts := skipBlanks_counts s blanks
  have hstartLen := congrArg List.length hstart
  have hskipLen := congrArg List.length hk
  rw [hsb] at hcounts
  simp only [List.length_append, List.length_replicate] at hcounts hstartLen hskipLen
  simp only [compressRound, hsb, hrun, Nat.zero_add]
  by_cases hm : m = 0
  · simp only [hm, ne_eq, not_true_eq_false, if_false]
    exact ⟨by omega, by simp⟩
  by_cases hrm : r.head? = some nl ∧ m ≠ 1
  · rw [if_pos hm, if_pos hrm]
    obtain ⟨l, hl, -⟩ := skipNewlines_of_head hrm.1
    have hlen := congrArg List.length hl
    simp only [List.length_cons, List.length_append, List.length_replicate] at hlen
    by_cases hrc : (skipNewlines r).head? = some c
    · simp only [if_pos hrc]
      refine ⟨by omega, fun _ hnil => ?_⟩
      rw [hnil] at hrc
      cases hrc
    · simp only [if_neg hrc]
      exact ⟨by omega, by simp⟩
  · rw [if_pos hm, if_neg hrm]
    exact ⟨by simp only; omega, by simp⟩

/-- **What is counted was removed**, and something is left of a text. -/
theorem compressLoop_counts (fuel : Nat) {s out out' : WStr} {count blanks count' blanks' : Nat}
    (h : compressLoop c fuel s out count blanks = .ok (out', count', blanks')) :
    out'.length + count' + blanks' ≤ out.length + s.length + count + blanks ∧
      out.length ≤ out'.length ∧ (s ≠ [] → out.length < out'.length) := by
  induction fuel generalizing s out count blanks with
  | zero => cases h
  | succ fuel ih =>
    rcases s with _ | ⟨x, s⟩
    · obtain ⟨rfl, rfl, rfl⟩ : out = out' ∧ count = count' ∧ blanks = blanks' := by simpa [compressLoop] using h
      exact ⟨by simp, Nat.le_refl _, fun hne => absurd rfl hne⟩
    · obtain ⟨hcounts, hagain⟩ := compressRound_counts (c := c) (x :: s) count blanks
      rw [compressLoop] at h
      split at h
      · rename_i r count₁ blanks₁ hround
        rw [hround] at hcounts hagain
        obtain ⟨h₁, h₂, h₃⟩ := ih h
        simp only at hcounts
        exact ⟨by omega, h₂, fun _ => h₃ (hagain rfl)⟩
      · rename_i y r count₁ blanks₁ hround
        rw [hround] at hcounts
        obtain ⟨h₁, h₂, -⟩ := ih h
        simp only [List.length_append, List.length_cons, List.length_nil] at hcounts h₁ h₂ ⊢
        exact ⟨by omega, by omega, fun _ => by omega⟩
      · cases h

/-- **Compressing a chomped text** squeezes it. -/
theorem compressCopy_squeeze (h : Ended c s) :
    ∃ w count blanks, compressCopy c s = .ok (w, count, blanks) ∧ Squeeze c s w ∧
      w.length + count + blanks ≤ s.length ∧ (s ≠ [] → 0 < w.length) := by
  obtain ⟨w, count, blanks, hrun, hw⟩ := compressLoop_squeeze (s.length + 1) [] 0 0 h (Nat.lt_succ_self _)
  rw [List.nil_append] at hrun
  obtain ⟨hcounts, -, hpos⟩ := compressLoop_counts _ hrun
  refine ⟨w, count, blanks, hrun, hw, ?_, hpos⟩
  simpa using hcounts

/-- The cut after the copy takes at most one character, since what is counted was removed. -/
theorem compress_squeeze (h : Ended c s) :
    ∃ w out, Squeeze c s w ∧ pstringCompress c s = .ok out ∧ (out = w ∨ out = w.dropLast) := by
  obtain ⟨w, count, blanks, hrun, hw, hcounts, hpos⟩ := compressCopy_squeeze h
  simp only [pstringCompress, hrun, bind, Except.bind, pure, Except.pure]
  split
  · rename_i hcount
    have hs : s ≠ [] := by
      rintro rfl
      simp only [List.length_nil] at hcounts
      omega
    have hleft := hpos hs
    rw [if_neg (by omega)]
    refine ⟨w, _, hw, rfl, ?_⟩
    by_cases hall : w.length ≤ s.length - (blanks + count) - 1
    · exact Or.inl (List.take_of_length_le hall)
    · have hlast : s.length - (blanks + count) - 1 = w.length - 1 := by omega
      rw [hlast, ← List.dropLast_eq_take]
      exact Or.inr rfl
  · exact ⟨w, w, hw, rfl, Or.inl rfl⟩

/-! ## Squeezing, step by step -/

/-- The rules, read backwards. -/
theorem Squeeze.inv (h : Squeeze c s w) :
    (s = [] ∧ w = []) ∨ (∃ t, s = nl :: nl :: t ∧ Squeeze c (nl :: t) w) ∨
    (∃ t w', s = nl :: t ∧ w = nl :: w' ∧ t.head? ≠ some nl ∧ Squeeze c t w') ∨
    (∃ x t w', s = x :: t ∧ w = x :: w' ∧ x ≠ nl ∧ ¬ BlankRun c s ∧ Squeeze c t w') ∨
    ∃ m j r, s = List.replicate m c ++ nl :: (List.replicate j nl ++ r) ∧ 2 ≤ m ∧ r.head? ≠ some nl ∧
      Squeeze c r w := by
  cases h with
  | nil => exact Or.inl ⟨rfl, rfl⟩
  | blank h => exact Or.inr (Or.inl ⟨_, rfl, h⟩)
  | newline h1 h2 => exact Or.inr (Or.inr (Or.inl ⟨_, _, rfl, rfl, h1, h2⟩))
  | char h1 h2 h3 => exact Or.inr (Or.inr (Or.inr (Or.inl ⟨_, _, _, rfl, rfl, h1, h2, h3⟩)))
  | run h1 h2 h3 => exact Or.inr (Or.inr (Or.inr (Or.inr ⟨_, _, _, rfl, h1, h2, h3⟩)))

/-- A text is copied up to the next run or newline. -/
theorem Squeeze.copy {u : WStr} (hu : nl ∉ u) (hrun : ∀ v, v ≠ [] → v <:+ u → ¬ BlankRun c (v ++ t))
    (h : Squeeze c (u ++ t) w) : ∃ w', w = u ++ w' ∧ Squeeze c t w' := by
  induction u generalizing w with
  | nil => exact ⟨w, rfl, h⟩
  | cons x u ih =>
    simp only [List.mem_cons, not_or] at hu
    have hnb := hrun (x :: u) (by simp) (List.suffix_refl _)
    rcases h.inv with ⟨h1, -⟩ | ⟨_, h1, -⟩ | ⟨_, _, h1, -⟩ | ⟨y, t', w', h1, rfl, -, -, h2⟩ | ⟨m, j, r, h1, h2, -⟩
    · simp at h1
    · exact absurd (List.cons.inj h1).1.symm hu.1
    · exact absurd (List.cons.inj h1).1.symm hu.1
    · obtain ⟨rfl, rfl⟩ := List.cons.inj h1
      obtain ⟨w'', rfl, h3⟩ := ih hu.2 (fun v hv hvu => hrun v hv (hvu.trans (List.suffix_cons _ _))) h2
      exact ⟨w'', rfl, h3⟩
    · exact absurd ⟨m, _, h2, h1⟩ hnb

/-- Newlines in a row are copied once. -/
theorem Squeeze.newlines (hc : c ≠ nl) {j : Nat} {r : WStr} (hr : r.head? ≠ some nl)
    (h : Squeeze c (nl :: (List.replicate j nl ++ r)) w) : ∃ w', w = nl :: w' ∧ Squeeze c r w' := by
  induction j generalizing w with
  | zero =>
    rcases h.inv with ⟨h1, -⟩ | ⟨_, h1, -⟩ | ⟨t', w', h1, rfl, -, h2⟩ | ⟨y, t', w', h1, -, h2, -⟩ |
      ⟨m, j, r', h1, h2, -⟩
    · simp at h1
    · simp only [List.replicate_zero, List.nil_append, List.cons.injEq, true_and] at h1
      exact absurd (by simp [h1]) hr
    · simp only [List.replicate_zero, List.nil_append, List.cons.injEq, true_and] at h1
      exact ⟨w', rfl, h1 ▸ h2⟩
    · exact absurd (List.cons.inj h1).1.symm h2
    · exact absurd h1.symm (run_ne_newline hc h2)
  | succ j ih =>
    rcases h.inv with ⟨h1, -⟩ | ⟨t', h1, h2⟩ | ⟨t', w', h1, -, h2, -⟩ | ⟨y, t', w', h1, -, h2, -⟩ |
      ⟨m, j, r', h1, h2, -⟩
    · simp at h1
    · simp only [List.replicate_succ, List.cons_append, List.cons.injEq, true_and] at h1
      exact ih (h1 ▸ h2)
    · simp only [List.replicate_succ, List.cons_append, List.cons.injEq, true_and] at h1
      exact absurd (by simp [← h1]) h2
    · exact absurd (List.cons.inj h1).1.symm h2
    · exact absurd h1.symm (run_ne_newline hc h2)

/-- A run of two or more up to a newline is dropped, with the newlines. -/
theorem Squeeze.drop (hc : c ≠ nl) {m j : Nat} {r : WStr} (hm : 2 ≤ m) (hr : r.head? ≠ some nl)
    (h : Squeeze c (List.replicate m c ++ nl :: (List.replicate j nl ++ r)) w) : Squeeze c r w := by
  have hbr : BlankRun c (List.replicate m c ++ nl :: (List.replicate j nl ++ r)) := ⟨m, _, hm, rfl⟩
  rcases h.inv with ⟨h1, -⟩ | ⟨t', h1, -⟩ | ⟨t', w', h1, -⟩ | ⟨y, t', w', -, -, -, h2, -⟩ |
    ⟨m', j', r', h1, h2, h3, h4⟩
  · simp at h1
  · exact absurd h1 (run_ne_newline hc hm)
  · exact absurd h1 (run_ne_newline hc hm)
  · exact absurd hbr h2
  · obtain ⟨-, h5⟩ := run_unique (by simpa using hc.symm) (by simpa using hc.symm) h1
    -- the newlines after the run are the same
    have h6 : List.replicate j nl ++ r = List.replicate j' nl ++ r' := (List.cons.inj h5).2
    rw [(run_unique hr h3 h6).2]
    exact h4

end Procenv
