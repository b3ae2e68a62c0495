import Mathlib.Data.List.TakeWhile
import Procenv.Model.Main
import Procenv.Model.System

/-!
# The fields of a string

What `strsep` returns, one call after the other: the texts between the delimiters, of which there is one
more than delimiters. A delimiter splits the fields (`strsep_append`), and joined by the delimiter they
are the string (`intercalate_strsep`). A scanner goes from one delimiter to the next (`delim_cases`,
`strsep_next`).
-/

namespace Procenv.Show

variable {delim : UInt8}

theorem strsep_ne_nil (s : MbStr) : strsep delim s ≠ [] := by
  cases s with
  | nil => simp [strsep]
  | cons c s =>
    rw [strsep]
    split
    · simp
    · split <;> simp

/-- **A delimiter splits the fields.** -/
theorem strsep_append {a : MbStr} (ha : delim ∉ a) (b : MbStr) :
    strsep delim (a ++ delim :: b) = a :: strsep delim b := by
  induction a with
  | nil => rw [List.nil_append, strsep, if_pos rfl]
  | cons c a ih =>
    simp only [List.mem_cons, not_or] at ha
    rw [List.cons_append, strsep, if_neg (Ne.symm ha.1), ih ha.2]

/-- A string without a delimiter, or up to its first delimiter and what comes after it. -/
theorem delim_cases (delim : UInt8) (s : MbStr) :
    s.dropWhile (· ≠ delim) = [] ∧ s.takeWhile (· ≠ delim) = s ∧ delim ∉ s ∨
      ∃ rest, s.dropWhile (· ≠ delim) = delim :: rest ∧ s = s.takeWhile (· ≠ delim) ++ delim :: rest ∧
        delim ∉ s.takeWhile (· ≠ delim) := by
  have hsplit := @List.takeWhile_append_dropWhile UInt8 (· ≠ delim) s
  have hfield : delim ∉ s.takeWhile (· ≠ delim) := by
    intro hmem
    simpa using List.mem_takeWhile_imp hmem
  cases hdrop : s.dropWhile (· ≠ delim) with
  | nil =>
    rw [hdrop, List.append_nil] at hsplit
    exact Or.inl ⟨rfl, hsplit, hsplit ▸ hfield⟩
  | cons c rest =>
    have hc : c = delim := by
      have hhead := List.head?_dropWhile_not (· ≠ delim) s
      rw [hdrop] at hhead
      simpa using hhead
    subst hc
    rw [hdrop] at hsplit
    exact Or.inr ⟨rest, rfl, hsplit.symm, hfield⟩

/-- Without a delimiter there is one field. -/
theorem strsep_self {s : MbStr} (h : delim ∉ s) : strsep delim s = [s] := by
  induction s with
  | nil => rfl
  | cons c s ih =>
    simp only [List.mem_cons, not_or] at h
    rw [strsep, if_neg (Ne.symm h.1), ih h.2]

/-- **The first field, and those after the first delimiter.** -/
theorem strsep_next (s : MbStr) : strsep delim s = s.takeWhile (· ≠ delim) ::
    match s.dropWhile (· ≠ delim) with
    | [] => []
    | _ :: rest => strsep delim rest := by
  rcases delim_cases delim s with ⟨hdrop, htake, hdelim⟩ | ⟨rest, hdrop, hsplit, hfield⟩
  · rw [hdrop, htake, strsep_self hdelim]
  · rw [hdrop]
    conv_lhs => rw [hsplit]
    exact strsep_append hfield rest

/-- There is one field more than delimiters. -/
theorem length_strsep (s : MbStr) : (strsep delim s).length = s.count delim + 1 := by
  induction s with
  | nil => rfl
  | cons c s ih =>
    rw [strsep]
    by_cases hc : c = delim
    · rw [if_pos hc, List.length_cons, ih, hc, List.count_cons_self]
    · rw [if_neg hc, List.count_cons_of_ne hc, ← ih]
      cases hf : strsep delim s with
      | nil => exact absurd hf (strsep_ne_nil s)
      | cons field fields => rfl

/-- **Joined by the delimiter the fields are the string.** -/
theorem intercalate_strsep (s : MbStr) : [delim].intercalate (strsep delim s) = s := by
  induction s with
  | nil => rfl
  | cons c s ih =>
    rw [strsep]
    cases hf : strsep delim s with
    | nil => exact absurd hf (strsep_ne_nil s)
    | cons field fields =>
      rw [hf] at ih
      by_cases hc : c = delim
      · rw [if_pos hc, List.intercalate_cons_of_ne_nil (by simp), ih, hc]
        rfl
      · rw [if_neg hc, List.intercalate_cons_cons_left, ih]

theorem strsep_injective {s t : MbStr} (h : strsep delim s = strsep delim t) : s = t := by
  rw [← intercalate_strsep s, h, intercalate_strsep]

end Procenv.Show

namespace Procenv

open Show

/-- The fields of `PROCENV_EXEC`. -/
theorem strsepFields_eq (e : MbStr) : strsepFields e = strsep 32 e := by
  induction e with
  | nil => rfl
  | cons b e ih =>
    cases hf : strsep 32 e with
    | nil => simp only [strsepFields, strsep, ih, hf]
    | cons field fields => simp only [strsepFields, strsep, ih, hf]

end Procenv
