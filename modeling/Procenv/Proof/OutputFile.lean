import Procenv.Model.OutputFile

/-!
# What the output file holds

The calls of a run are writes through one descriptor (`showOutputFileAll_eq`). The file is
not truncated: what it held behind the new text stays.
-/

namespace Procenv.Process

open Data

variable {cfg : Settings} {old : Option (List UInt8)} {strs : List MbStr}

/-- A call on the open file. -/
theorem showOutputFile_open (hfile : cfg.outputFile ≠ none) (content : List UInt8)
    (fd : Descriptor) (str : MbStr) :
    showOutputFile cfg ⟨some content, some fd⟩ str =
      .ok ⟨some (writeFile fd content str).1, some (writeFile fd content str).2⟩ := by
  rw [showOutputFile, if_neg hfile]
  rfl

/-- The first call opens the file, and leaves what it holds. -/
theorem showOutputFile_first (hfile : cfg.outputFile ≠ none) (old : Option (List UInt8)) (str : MbStr) :
    showOutputFile cfg ⟨old, none⟩ str =
      showOutputFile cfg ⟨some (old.getD []), some ⟨cfg.outputFileAppend, 0⟩⟩ str := by
  rw [showOutputFile_open hfile, showOutputFile, if_neg hfile]
  cases old <;> rfl

theorem showOutputFile_run (hfile : cfg.outputFile ≠ none) (content : List UInt8) (fd : Descriptor)
    (strs : List MbStr) :
    strs.foldlM (showOutputFile cfg) ⟨some content, some fd⟩ =
      .ok ⟨some (writeAll fd content strs).1, some (writeAll fd content strs).2⟩ := by
  induction strs generalizing content fd with
  | nil => rfl
  | cons str strs ih =>
    rw [List.foldlM_cons, showOutputFile_open hfile]
    exact ih _ _

/-- **The calls of a run** are writes through one descriptor at the start of the old content. -/
theorem showOutputFileAll_eq (hfile : cfg.outputFile ≠ none) (old : Option (List UInt8)) (strs : List MbStr) :
    ∃ file, showOutputFileAll cfg old strs = .ok file ∧
      file.content.getD [] = (writeAll ⟨cfg.outputFileAppend, 0⟩ (old.getD []) strs).1 := by
  cases strs with
  | nil => exact ⟨_, rfl, rfl⟩
  | cons str strs =>
    have hrun := showOutputFile_run hfile (old.getD []) ⟨cfg.outputFileAppend, 0⟩ (str :: strs)
    rw [List.foldlM_cons, ← showOutputFile_first hfile old, ← List.foldlM_cons] at hrun
    exact ⟨_, hrun, rfl⟩

/-- **When the file holds what was written**: behind the old content with `--file-append`, and else
exactly if the old content was no longer than what was written. -/
theorem showOutputFileAll_iff (hfile : cfg.outputFile ≠ none) (old : Option (List UInt8)) (strs : List MbStr) :
    (∃ file, showOutputFileAll cfg old strs = .ok file ∧
        file.content.getD [] = if cfg.outputFileAppend then old.getD [] ++ strs.flatten else strs.flatten) ↔
      cfg.outputFileAppend = true ∨ (old.getD []).length ≤ strs.flatten.length := by
  obtain ⟨file, hrun, hcontent⟩ := showOutputFileAll_eq hfile old strs
  have hexists : (∃ file', showOutputFileAll cfg old strs = .ok file' ∧
      file'.content.getD [] = if cfg.outputFileAppend then old.getD [] ++ strs.flatten else strs.flatten) ↔
        file.content.getD [] = if cfg.outputFileAppend then old.getD [] ++ strs.flatten else strs.flatten := by
    constructor
    · rintro ⟨file', hrun', hholds⟩
      obtain rfl : file = file' := Except.ok.inj (hrun.symm.trans hrun')
      exact hholds
    · exact fun hholds => ⟨file, hrun, hholds⟩
  rw [hexists, hcontent]
  cases happend : cfg.outputFileAppend with
  | true =>
    have happended : (writeAll ⟨true, 0⟩ (old.getD []) strs).1 = old.getD [] ++ strs.flatten :=
      writeAll_append rfl strs
    simp [happended]
  | false =>
    have hover : (writeAll ⟨false, 0⟩ ([] ++ old.getD []) strs).1 =
        [] ++ strs.flatten ++ (old.getD []).drop strs.flatten.length := writeAll_over rfl rfl strs
    simp only [List.nil_append] at hover
    rw [hover]
    simp

/-- The settings of `--output=file --file=out`. -/
def toFile : Settings := { output := .file, outputFile := some (bytes "out") }

/-- A longer text over a shorter one, in two calls. -/
theorem showOutputFileAll_iff_longer :
    ∃ file, showOutputFileAll toFile (some (bytes "old")) [bytes "new ", bytes "text"] = .ok file ∧
      file.content.getD [] = bytes "new text" := by
  have hfile : toFile.outputFile ≠ none := by decide
  exact (showOutputFileAll_iff hfile (some (bytes "old")) [bytes "new ", bytes "text"]).2 (Or.inr (by decide))

/-- A shorter text over a longer one leaves the end of the old content. -/
theorem showOutputFileAll_shorter :
    ∃ file, showOutputFileAll toFile (some (bytes "old text")) [bytes "new"] = .ok file ∧
      file.content = some (bytes "new text") ∧ toFile.outputFileAppend = false := ⟨_, rfl, rfl, rfl⟩

end Procenv.Process
