import Mathlib.Algebra.Group.Int.Defs
import Mathlib.Algebra.GroupWithZero.Nat
import Mathlib.Data.List.Basic
import Mathlib.Order.Fin.Basic
import Mathlib.Tactic.Common

/-!
# Code points, literals and lines

Texts are lists of code points, surrogates included. `lines` cuts a text at a
separator the way a reader of a text file does: every separator ends a line, and
a last line without one counts when it is not empty.

* `span_unique`: where a run of characters of one kind ends is unique.
* `lines_append_sep`: a line up to its separator is the first line; `lines_append`: what
  comes before a text is in its first line.
* `lines_join`: the lines, each closed by a separator, are the text again, up to
  the separator after the last one.
-/

namespace Procenv.Text

/-- A Unicode code point. -/
abbrev CodePoint := Fin 0x110000

/-- There are code points, so that a numeral denotes one. -/
instance codePoints_neZero : NeZero 0x110000 := ⟨by decide⟩

instance codePoint_lawfulBEq : LawfulBEq CodePoint := inferInstance

theorem toNat_lt (c : Char) : c.toNat < 0x110000 := by
  rcases c.valid with h | h
  · exact Nat.lt_trans h (by decide)
  · exact h.2

/-- The code point of a character. -/
def CodePoint.ofChar (c : Char) : CodePoint := ⟨c.toNat, toNat_lt c⟩

/-- The code points of a literal. -/
def lit (s : String) : List CodePoint := s.toList.map CodePoint.ofChar

/-- The line separator. -/
def nl : CodePoint := 10

section Span

variable {α : Type*}

/-- Two runs of characters in `p` that stop before a character not in `p` are the same. -/
theorem span_unique {p : α → Bool} {a a' r r' : List α} (ha : ∀ c ∈ a, p c = true)
    (ha' : ∀ c ∈ a', p c = true) (hr : ∀ c ∈ r.head?, p c = false) (hr' : ∀ c ∈ r'.head?, p c = false)
    (h : a ++ r = a' ++ r') : a = a' ∧ r = r' := by
  induction a generalizing a' with
  | nil =>
    cases a' with
    | nil => exact ⟨rfl, h⟩
    | cons c cs =>
      simp only [List.nil_append, List.cons_append] at h
      have := hr c (by simp [h])
      rw [ha' c List.mem_cons_self] at this
      simp at this
  | cons c cs ih =>
    cases a' with
    | nil =>
      simp only [List.nil_append, List.cons_append] at h
      have := hr' c (by simp [← h])
      rw [ha c List.mem_cons_self] at this
      simp at this
    | cons d ds =>
      simp only [List.cons_append, List.cons.injEq] at h
      obtain ⟨rfl, h⟩ := h
      obtain ⟨rfl, hr⟩ := ih (fun x hx => ha x (List.mem_cons_of_mem _ hx))
        (fun x hx => ha' x (List.mem_cons_of_mem _ hx)) h
      exact ⟨rfl, hr⟩

/-- Runs of characters other than `d` up to a `d` are the same. -/
theorem upto_unique [DecidableEq α] {d : α} {a a' t t' : List α} (ha : ∀ c ∈ a, c ≠ d)
    (ha' : ∀ c ∈ a', c ≠ d) (h : a ++ d :: t = a' ++ d :: t') : a = a' ∧ t = t' := by
  obtain ⟨h1, h2⟩ := span_unique (p := fun c => decide (c ≠ d)) (by simpa using ha) (by simpa using ha')
    (by simp) (by simp) h
  exact ⟨h1, (List.cons.inj h2).2⟩

end Span

/-- The last element with a property. -/
theorem last_of {α : Type*} {P : α → Prop} {l : List α} (h : ∃ x ∈ l, P x) :
    ∃ p x y, l = p ++ x :: y ∧ P x ∧ ∀ z ∈ y, ¬ P z := by
  induction l with
  | nil =>
    obtain ⟨x, hx, -⟩ := h
    cases hx
  | cons a l ih =>
    by_cases hl : ∃ x ∈ l, P x
    · obtain ⟨p, x, y, rfl, hx, hy⟩ := ih hl
      exact ⟨a :: p, x, y, rfl, hx, hy⟩
    · have hnone : ∀ z ∈ l, ¬ P z := fun z hz hP => hl ⟨z, hz, hP⟩
      obtain ⟨x, hx, hP⟩ := h
      rcases List.mem_cons.1 hx with rfl | hx
      · exact ⟨[], x, l, rfl, hP, hnone⟩
      · exact absurd hP (hnone x hx)

section Lines

variable {α : Type*} {n : α}

/-- Lines closed by a separator each. -/
def unlines (n : α) (ls : List (List α)) : List α := ls.flatMap (· ++ [n])

theorem unlines_append (ls ls' : List (List α)) : unlines n (ls ++ ls') = unlines n ls ++ unlines n ls' := by
  simp [unlines]

theorem unlines_concat (ls : List (List α)) (l : List α) :
    unlines n (ls ++ [l]) = (unlines n ls ++ l) ++ [n] := by
  simp [unlines]

variable [DecidableEq α] {l s t : List α}

/-- The lines of a text with line separator `n`. -/
def lines (n : α) : List α → List (List α)
  | [] => []
  | c :: cs =>
    if c = n then [] :: lines n cs
    else match lines n cs with
      | [] => [[c]]
      | l :: ls => (c :: l) :: ls

@[simp] theorem lines_nil : lines n [] = [] := rfl

@[simp] theorem lines_sep_cons : lines n (n :: s) = [] :: lines n s := by simp [lines]

theorem lines_append_sep (h : n ∉ l) : lines n (l ++ n :: t) = l :: lines n t := by
  induction l with
  | nil => simp
  | cons c cs ih =>
    simp only [List.mem_cons, not_or] at h
    simp [lines, Ne.symm h.1, ih h.2]

theorem lines_single (h : n ∉ l) (hl : l ≠ []) : lines n l = [l] := by
  induction l with
  | nil => exact absurd rfl hl
  | cons c cs ih =>
    simp only [List.mem_cons, not_or] at h
    rcases cs with _ | ⟨d, ds⟩
    · simp [lines, Ne.symm h.1]
    · rw [lines, if_neg (Ne.symm h.1), ih h.2 (by simp)]

theorem sep_notMem_of_mem_lines : ∀ {s : List α}, l ∈ lines n s → n ∉ l := by
  intro s
  induction s generalizing l with
  | nil => intro h; simp at h
  | cons c cs ih =>
    intro h
    rw [lines] at h
    split at h
    · rcases List.mem_cons.1 h with h | h
      · simp [h]
      · exact ih h
    · rename_i hc
      split at h
      · simp only [List.mem_singleton] at h
        subst h; simpa using Ne.symm hc
      · rename_i l' ls hls
        rcases List.mem_cons.1 h with h | h
        · have := ih (l := l') (by rw [hls]; exact List.mem_cons_self)
          subst h; simp [Ne.symm hc, this]
        · exact ih (by rw [hls]; exact List.mem_cons_of_mem _ h)

theorem lines_unlines {ls : List (List α)} (h : ∀ l ∈ ls, n ∉ l) : lines n (unlines n ls) = ls := by
  induction ls with
  | nil => rfl
  | cons l ls ih =>
    have : unlines n (l :: ls) = l ++ n :: unlines n ls := by simp [unlines]
    rw [this, lines_append_sep (h l List.mem_cons_self),
      ih (fun x hx => h x (List.mem_cons_of_mem _ hx))]

/-- **A text is its lines**, each closed by a separator, up to the last one. -/
theorem lines_join (s : List α) : unlines n (lines n s) = s ∨ unlines n (lines n s) = s ++ [n] := by
  induction s with
  | nil => exact Or.inl rfl
  | cons c cs ih =>
    rw [lines]
    split
    · rename_i hc
      subst hc
      rcases ih with h | h
      · left; simpa [unlines] using h
      · right; simpa [unlines] using h
    · split
      · rename_i hls
        rw [hls] at ih
        have hcs : cs = [] := by
          rcases ih with h | h
          · exact h.symm
          · simp [unlines] at h
        right; simp [unlines, hcs]
      · rename_i l' ls hls
        rw [hls] at ih
        rcases ih with h | h
        · left; simpa [unlines] using h
        · right; simpa [unlines] using h

/-- Separators at the start are empty lines. -/
theorem lines_seps (j : Nat) (t : List α) :
    lines n (List.replicate j n ++ t) = List.replicate j [] ++ lines n t := by
  induction j with
  | zero => rfl
  | succ j ih => rw [List.replicate_succ, List.cons_append, lines_sep_cons, ih,
      List.replicate_succ, List.cons_append]

theorem lines_cons {c : α} (hc : c ≠ n) (t : List α) :
    lines n (c :: t) = (c :: (lines n t).headD []) :: (lines n t).tail := by
  rw [lines, if_neg hc]
  cases lines n t <;> rfl

/-- The lines of a text with something before its first line. -/
theorem lines_append (hl : n ∉ l) (hne : l ≠ []) :
    lines n (l ++ t) = (l ++ (lines n t).headD []) :: (lines n t).tail := by
  induction l with
  | nil => exact absurd rfl hne
  | cons c l ih =>
    simp only [List.mem_cons, not_or] at hl
    rw [List.cons_append, lines_cons (Ne.symm hl.1)]
    rcases l with _ | ⟨d, l⟩
    · simp
    · rw [ih hl.2 (by simp)]
      simp

/-- A separator at the end makes no other lines. -/
theorem lines_close {c : α} (hc : c ≠ n) (s : List α) : lines n (s ++ [c, n]) = lines n (s ++ [c]) := by
  induction s with
  | nil => simp [lines, hc]
  | cons d s ih => rw [List.cons_append, List.cons_append, lines, lines, ih]

/-- The lines of a text that ends in a separator are closed by one each. -/
theorem unlines_lines_close (t : List α) : unlines n (lines n (t ++ [n])) = t ++ [n] := by
  induction t with
  | nil => simp [unlines]
  | cons c t ih =>
    by_cases hc : c = n
    · subst hc
      rw [List.cons_append, lines_sep_cons]
      simpa [unlines] using ih
    · rw [List.cons_append, lines_cons hc]
      cases hl : lines n (t ++ [n]) with
      | nil =>
        rw [hl] at ih
        simp [unlines] at ih
      | cons l ls =>
        rw [hl] at ih
        simpa [unlines] using ih

end Lines

end Procenv.Text
