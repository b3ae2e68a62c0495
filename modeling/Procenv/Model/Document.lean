import Procenv.Model.Append
import Procenv.Model.Output

/-!
# `output.c` on the document's buffer

The functions of `Model.Output` on the `pstring` that `doc` points to, one append after
another. `add_indent` has its two ways: `%*s` of `indent_char`, and a buffer of its own
that `wmemset` fills and `pappend` appends. `print` is what `vswprintf` does for a
format and arguments with the given expansion.

`DocState.emitted` is not in the source: it records every append to `doc`, with the
document before and what came of it. A run that stops leaves the state it stops in.
-/

namespace Procenv.Document

open Text

/-- An append to `doc`: `wappend`, `wappendf` of an expansion, or an indent. -/
inductive Emission
  | wappend (t : WStr)
  | wappendf (t : WStr)
  | addIndent (indent : Int)
deriving DecidableEq, Repr

/-- An append that was made: the document before, and the one after it. -/
structure Emitted where
  emission : Emission
  dest : Option Pstring
  result : Except Halt (Option Pstring)

/-- The globals that the output functions write. -/
structure DocState where
  doc : Option Pstring := some pstringNew
  lastElement : ElementType := .none
  currentElement : ElementType := .none
  indent : Int := 0
  crumbList : Option Nat := none
  heap : PrHeap MbStr := PrHeap.init
  emitted : List Emitted := []

/-- How a run stops, and the state it stops in. -/
structure Stop where
  halt : Halt
  state : DocState

/-- A call that does not write the globals. -/
def DocState.keep {α : Type} (s : DocState) (x : Except Halt α) : Except Stop α := x.mapError (⟨·, s⟩)

/-- Append to `doc`. -/
def DocState.emit (s : DocState) (emission : Emission)
    (call : Option Pstring → Except Halt (Option Pstring)) : Except Stop DocState :=
  let result := call s.doc
  let s := { s with emitted := s.emitted ++ [⟨emission, s.doc, result⟩] }
  match result with
  | .ok doc => .ok { s with doc }
  | .error halt => .error ⟨halt, s⟩

variable (cfg : Config) (print : WStr → Vswprintf)

/-- `wappendf`: `wappendva` ends within so many rounds if it ends at all. -/
def wappendf (dest : Option Pstring) (text : WStr) : Except Halt (Option Pstring) :=
  (wappendva (text.length + 1) dest (print text)).getD (.error .hang)

/-- `wappend (&doc, t)`. -/
def DocState.wappend (s : DocState) (t : WStr) : Except Stop DocState :=
  s.emit (.wappend t) (Procenv.wappend · t)

/-- `wappendf (&doc, ..)`. -/
def DocState.wappendf (s : DocState) (text : WStr) : Except Stop DocState :=
  s.emit (.wappendf text) (Document.wappendf print · text)

/-! ## Indentation -/

/-- `inc_indent`. -/
def incIndent (s : DocState) : Except Stop DocState :=
  if 0 ≤ s.indent then .ok { s with indent := s.indent + cfg.indentAmount }
  else .error ⟨.assertFailed "inc_indent", s⟩

/-- `dec_indent`: the second assertion sees the new indent. -/
def decIndent (s : DocState) : Except Stop DocState :=
  if 0 ≤ s.indent then
    let s := { s with indent := s.indent - cfg.indentAmount }
    if 0 ≤ s.indent then .ok s else .error ⟨.assertFailed "dec_indent", s⟩
  else .error ⟨.assertFailed "dec_indent", s⟩

/-- `reset_indent`. -/
def resetIndent (s : DocState) : DocState := { s with indent := 0 }

/-- `%*s` and `%*lc`: blanks up to the width, behind the text if the width is negative. -/
def pad (width : Int) (t : WStr) : WStr :=
  let blanks := List.replicate (width.natAbs - t.length) 32
  if 0 ≤ width then blanks ++ t else t ++ blanks

/-- What `add_indent` does with the document. -/
def appendIndent (indent : Int) (doc : Option Pstring) : Except Halt (Option Pstring) := do
  if cfg.indentChar = bytes " " then
    let indentChar ← expandStr cfg.locale cfg.indentChar
    wappendf print doc (pad indent indentChar)
  else
    match ← wappendf print none (pad indent [cfg.wideIndentChar]) with
    | none => .error (.outOfBounds "add_indent")
    | some buffer =>
      let str ← access "add_indent" (buffer.buf.string 0)
      -- `wmemset`
      let buf ← access "add_indent" (buffer.buf.storeAll 0 (List.replicate str.length cfg.wideIndentChar))
      pappend doc { buffer with buf := buf }

/-- `add_indent`. -/
def addIndent (s : DocState) : Except Stop DocState := do
  s.keep (commonAssert cfg)
  if s.indent = 0 then return s
  s.emit (.addIndent s.indent) (appendIndent cfg print s.indent)

/-! ## Elements -/

/-- Run one call of a table cell. -/
def runOp (s : DocState) : Op → Except Stop DocState
  | .wappend t => s.wappend t
  | .incIndent => incIndent cfg s
  | .decIndent => decIndent cfg s
  | .addIndent => addIndent cfg print s
  | .notReached fn => .error ⟨.notReached fn, s⟩

/-- Run the calls of a cell. -/
def runOps (ops : List Op) (s : DocState) : Except Stop DocState := ops.foldlM (runOp cfg print) s

/-- `format_element`. -/
def formatElement (s : DocState) : Except Stop DocState :=
  runOps cfg print (elementCell cfg.outputFormat s.lastElement s.currentElement) s

/-- `change_element`. -/
def changeElement (new : ElementType) (s : DocState) : Except Stop DocState := do
  s.keep (commonAssert cfg)
  formatElement cfg print { s with lastElement := s.currentElement, currentElement := new }

/-! ## Breadcrumbs -/

/-- `add_breadcrumb`. -/
def addBreadcrumb (name : MbStr) (s : DocState) : DocState :=
  let (heap, list) := match s.crumbList with
    | some list => (s.heap, list)
    | none => prListNew s.heap none
  { s with crumbList := some list, heap := (prListPrependStr heap list name).1 }

/-- `remove_breadcrumb`. -/
def removeBreadcrumb (s : DocState) : Except Stop DocState :=
  match s.crumbList with
  | none => .error ⟨.assertFailed "remove_breadcrumb", s⟩
  | some list => .ok { s with heap := (prListRemove s.heap (s.heap.prev list)).1 }

/-! ## Objects, sections, containers and entries -/

/-- `object_open` and `object_close`. -/
def objectEvent (element : ElementType) (text : WStr) (retain : Bool) (s : DocState) :
    Except Stop DocState := do
  s.keep (commonAssert cfg)
  match cfg.outputFormat with
  | .json =>
    let s ← if retain then formatElement cfg print s else changeElement cfg print element s
    s.wappend text
  | .crumb | .text | .xml => return s

/-- `object_open`. -/
def objectOpen := objectEvent cfg print .objectOpen (lit "\x7b")

/-- `object_close`. -/
def objectClose := objectEvent cfg print .objectClose (lit "\x7d")

/-- `section_open` and `container_open`. -/
def groupOpen (element : ElementType) (bracket tag : WStr) (name : MbStr) (s : DocState) :
    Except Stop DocState := do
  s.keep (commonAssert cfg)
  let encodedName ← s.keep (nameToWideName cfg name)
  let s ← changeElement cfg print element s
  match cfg.outputFormat with
  | .text => s.wappendf print (encodedName ++ lit ":")
  | .crumb => return addBreadcrumb name s
  | .json => s.wappendf print (lit "\"" ++ encodedName ++ lit "\" : " ++ bracket)
  | .xml => s.wappendf print (lit "<" ++ tag ++ lit " name=\"" ++ encodedName ++ lit "\">")

/-- `section_close` and `container_close`. -/
def groupClose (element : ElementType) (bracket tag : WStr) (s : DocState) : Except Stop DocState := do
  s.keep (commonAssert cfg)
  let s ← changeElement cfg print element s
  match cfg.outputFormat with
  | .text => return s
  | .crumb => removeBreadcrumb s
  | .json => s.wappend bracket
  | .xml => s.wappend (lit "</" ++ tag ++ lit ">")

/-- `section_open`. -/
def sectionOpen := groupOpen cfg print .sectionOpen (lit "\x7b") (lit "section")

/-- `section_close`. -/
def sectionClose := groupClose cfg print .sectionClose (lit "\x7d") (lit "section")

/-- `container_open`. -/
def containerOpen := groupOpen cfg print .containerOpen (lit "[") (lit "container")

/-- `container_close`. -/
def containerClose := groupClose cfg print .containerClose (lit "]") (lit "container")

/-- The loop of `entry` over the bread crumbs, from the list nodes it visits. -/
def crumbLoop (s : DocState) : List Nat → Except Stop DocState
  | [] => return s
  | iter :: iters => do
    let crumb ← s.keep (expandStr cfg.locale ((s.heap.data iter).getD []))
    let sep ← s.keep (expandStr cfg.locale cfg.crumbSeparator)
    let s ← s.wappendf print (crumb ++ sep)
    crumbLoop s iters

/-- `encode_string` in `entry`, and what `entry` dies with when it fails. -/
def encodeOrDie (fmt : String) (w : WStr) : Except Halt WStr := do
  let (ret, encoded) ← encodeString cfg.locale cfg.outputFormat w
  if ret < 0 then .error (.die fmt [])
  return encoded

/-- The name in `entry`: `char_to_pstring` and `encode_string`. -/
def entryName (name : MbStr) : Except Halt WStr :=
  match charToWchar cfg.locale name with
  | none => .error (.die "failed to encode name" [])
  | some w => encodeOrDie cfg "failed to encode name" w

/-- `entry`; `value` is the expansion of the format and its arguments. -/
def entry (name : MbStr) (value : WStr) (s : DocState) : Except Stop DocState := do
  s.keep (commonAssert cfg)
  let s ← changeElement cfg print .entry s
  let encodedName ← s.keep (entryName cfg name)
  let encodedValue ← s.keep (encodeOrDie cfg "failed to encode value" value)
  match cfg.outputFormat with
  | .crumb =>
    match s.crumbList with
    | none => .error ⟨.assertFailed "entry", s⟩
    | some list =>
      match prListForeach s.heap list with
      | none => .error ⟨.hang, s⟩
      | some iters =>
        let s ← crumbLoop cfg print s iters
        let sep ← s.keep (expandStr cfg.locale cfg.textSeparator)
        s.wappendf print (encodedName ++ sep ++ encodedValue ++ [nl])
  | .text =>
    let sep ← s.keep (expandStr cfg.locale cfg.textSeparator)
    s.wappendf print (encodedName ++ sep ++ encodedValue)
  | .json => s.wappendf print (lit "\"" ++ encodedName ++ lit "\" : \"" ++ encodedValue ++ lit "\"")
  | .xml =>
    s.wappendf print (lit "<entry name=\"" ++ encodedName ++ lit "\">" ++ encodedValue ++ lit "</entry>")

/-! ## The document -/

/-- `master_header`. -/
def masterHeader (s : DocState) : Except Stop DocState := do
  s.keep (commonAssert cfg)
  match cfg.outputFormat with
  | .crumb | .text => return s
  | .json => objectOpen cfg print false s
  | .xml =>
    let s ← s.wappend xmlDeclaration
    let s ← s.wappendf print (xmlRootOpen cfg)
    incIndent cfg s

/-- `master_footer`. -/
def masterFooter (s : DocState) : Except Stop DocState := do
  s.keep (commonAssert cfg)
  match cfg.outputFormat with
  | .crumb | .text => s.wappend [nl]
  | .json =>
    let s ← objectClose cfg print false s
    s.wappend [nl]
  | .xml =>
    let s ← s.wappend [nl]
    let s ← decIndent cfg s
    s.wappendf print (lit "</" ++ packageName ++ lit ">\n")

/-- A call that `main` makes of the functions of `output.c` that write the globals. -/
inductive DocCall
  | masterHeader
  | event (e : Event)
  | masterFooter
  | resetIndent
deriving DecidableEq, Repr

/-- Run one call of a display routine. -/
def step (s : DocState) : Event → Except Stop DocState
  | .entry name value => entry cfg print name value s
  | .sectionOpen name => sectionOpen cfg print name s
  | .sectionClose => sectionClose cfg print s
  | .containerOpen name => containerOpen cfg print name s
  | .containerClose => containerClose cfg print s
  | .objectOpen retain => objectOpen cfg print retain s
  | .objectClose retain => objectClose cfg print retain s

/-- Run one call. -/
def runCall (s : DocState) : DocCall → Except Stop DocState
  | .masterHeader => masterHeader cfg print s
  | .event e => step cfg print s e
  | .masterFooter => masterFooter cfg print s
  | .resetIndent => .ok (resetIndent s)

/-- Run a sequence of calls. -/
def runCalls (calls : List DocCall) (s : DocState) : Except Stop DocState :=
  calls.foldlM (runCall cfg print) s

/-- The state at the end of a run, or where it stops. -/
def lastState : Except Stop DocState → DocState
  | .ok s => s
  | .error stop => stop.state

/-- A document: the header, calls of the display routines, and the footer. -/
def documentCalls (es : List Event) : List DocCall := .masterHeader :: es.map .event ++ [.masterFooter]

end Procenv.Document
