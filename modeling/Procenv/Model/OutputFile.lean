import Procenv.Data.File
import Procenv.Model.Process

/-!
# The output file

`_show_output` with `OUTPUT_FILE`, and what it does to the file. The file is opened by the
first call, and its descriptor stays open. `write` writes the whole string.
-/

namespace Procenv.Process

open Data

/-- The content of the output file, and `output_fd`. -/
structure OutputFile where
  content : Option (List UInt8)
  outputFd : Option Descriptor := none

/-- The flags that the file is opened with, beside `O_WRONLY`. -/
def outputFlags (cfg : Settings) : OpenFlags where
  create := true
  append := cfg.outputFileAppend
  truncate := false

/-- `_show_output` with `OUTPUT_FILE`. -/
def showOutputFile (cfg : Settings) (file : OutputFile) (str : MbStr) : Except Stop OutputFile := do
  if cfg.outputFile = none then throw (.halt (.assertFailed "_show_output"))
  let opened := match file.outputFd with
    | some fd => some (file.content.getD [], fd)
    | none => openFile (outputFlags cfg) file.content
  match opened with
  | none => throw .exit
  | some (content, fd) =>
    let (content, fd) := writeFile fd content str
    return { content := some content, outputFd := some fd }

/-- The calls of `_show_output` in a run. -/
def showOutputFileAll (cfg : Settings) (old : Option (List UInt8)) (strs : List MbStr) : Except Stop OutputFile :=
  strs.foldlM (showOutputFile cfg) { content := old }

end Procenv.Process
