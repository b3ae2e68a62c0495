import Procenv.Model.Encode
import Procenv.Model.PrList

/-!
# `output.c`: the document and the element state machine

`OutState` holds the globals that the output functions write: the document, the
last two elements, the indent and the breadcrumbs. Every call of the display
routines is an `Event`, and `step` runs it. The three tables `format_text_element`,
`format_json_element` and `format_xml_element` are written as in the source, a row
for the last element and a cell for the current one: a cell is the list of the
calls it makes, and the cells that the source leaves to `default` are
`assert_not_reached`.

The document is its content: `wappend`, `wappendf` and `pappend` append. `indent`
is an unbounded integer.
-/

namespace Procenv

open Text

/-- `ElementType`. -/
inductive ElementType
  | entry | sectionOpen | sectionClose | containerOpen | containerClose | objectOpen | objectClose
  | none
deriving DecidableEq, Repr

/-- `Output`. -/
inductive Output
  | file | stderr | stdout | syslog | term
deriving DecidableEq, Repr

/-- The settings of `output.c`, with their initial values. `wideIndentChar` is set by
`handle_indent_char`. -/
structure Settings where
  output : Output := .stdout
  outputFormat : OutputFormat := .text
  outputFile : Option MbStr := none
  outputFileAppend : Bool := false
  textSeparator : MbStr := bytes ": "
  indentAmount : Int := 2
  indentChar : MbStr := bytes " "
  wideIndentChar : WChar := 32
  crumbSeparator : MbStr := bytes ":"
deriving DecidableEq, Repr

/-- What the output functions read: the settings, the locale and `user.euid`. -/
structure Config extends Settings where
  locale : Locale
  euid : Nat := 0

/-- `PACKAGE_NAME`. -/
def packageName : WStr := lit "procenv"
/-- `PACKAGE_VERSION`. -/
def packageVersion : WStr := lit "0.60"
/-- `PACKAGE_STRING`. -/
def packageString : WStr := lit "procenv 0.60"
/-- `PROCENV_FORMAT_VERSION`. -/
def procenvFormatVersion : WStr := lit "24"

/-- The globals that the output functions write. -/
structure OutState where
  doc : WStr := []
  lastElement : ElementType := .none
  currentElement : ElementType := .none
  indent : Int := 0
  crumbList : Option Nat := none
  heap : PrHeap MbStr := PrHeap.init

/-- `wappend (&doc, t)`, and `wappendf` or `pappend` of an expanded text. -/
def OutState.wappend (s : OutState) (t : WStr) : OutState := { s with doc := s.doc ++ t }

variable (cfg : Config)

/-- `common_assert`; `doc` is never `NULL`. -/
def commonAssert : Except Halt Unit :=
  if 0 ≤ cfg.indentAmount then .ok () else .error (.assertFailed "common_assert")

/-! ## Indentation -/

/-- `inc_indent`. -/
def incIndent (s : OutState) : Except Halt OutState :=
  if 0 ≤ s.indent then .ok { s with indent := s.indent + cfg.indentAmount }
  else .error (.assertFailed "inc_indent")

/-- `dec_indent`, with its two assertions. -/
def decIndent (s : OutState) : Except Halt OutState :=
  if 0 ≤ s.indent then
    if 0 ≤ s.indent - cfg.indentAmount then .ok { s with indent := s.indent - cfg.indentAmount }
    else .error (.assertFailed "dec_indent")
  else .error (.assertFailed "dec_indent")

/-- `reset_indent`. -/
def resetIndent (s : OutState) : OutState := { s with indent := 0 }

/-- The text of an indent: `%*s` of `" "`, or as many `wide_indent_char`. -/
def indentText (k : Int) : WStr :=
  if cfg.indentChar = bytes " " then List.replicate k.natAbs 32
  else List.replicate k.natAbs cfg.wideIndentChar

/-- `add_indent`. -/
def addIndent (s : OutState) : Except Halt OutState := do
  commonAssert cfg
  if s.indent = 0 then return s
  return s.wappend (indentText cfg s.indent)

/-! ## The element tables -/

/-- A call that a table cell makes. -/
inductive Op
  | wappend (t : WStr)
  | incIndent
  | decIndent
  | addIndent
  | notReached (fn : String)
deriving DecidableEq, Repr

/-- Run one call. -/
def Op.run (s : OutState) : Op → Except Halt OutState
  | .wappend t => .ok (s.wappend t)
  | .incIndent => Procenv.incIndent cfg s
  | .decIndent => Procenv.decIndent cfg s
  | .addIndent => Procenv.addIndent cfg s
  | .notReached fn => .error (.notReached fn)

/-- Run the calls of a cell. -/
def runOps (ops : List Op) (s : OutState) : Except Halt OutState := ops.foldlM (Op.run cfg) s

/-- `format_text_element`. -/
def textCell (last current : ElementType) : List Op :=
  match last with
  | .entry =>
    match current with
    | .entry | .sectionOpen | .containerOpen => [.wappend [nl], .addIndent]
    | .containerClose | .sectionClose => [.wappend [nl], .decIndent, .addIndent]
    | _ => [.notReached "format_text_element"]
  | .sectionOpen =>
    match current with
    | .entry | .sectionOpen | .containerOpen => [.wappend [nl], .incIndent, .addIndent]
    | .sectionClose => []
    | _ => [.notReached "format_text_element"]
  | .sectionClose =>
    match current with
    | .sectionClose | .containerClose => [.wappend [nl], .decIndent, .addIndent]
    | .entry | .containerOpen | .sectionOpen => [.wappend [nl], .addIndent]
    | _ => [.notReached "format_text_element"]
  | .containerOpen =>
    match current with
    | .entry | .sectionOpen | .containerOpen => [.wappend [nl], .incIndent, .addIndent]
    | .containerClose => []
    | _ => [.notReached "format_text_element"]
  | .containerClose =>
    match current with
    | .sectionClose | .containerClose => [.wappend [nl], .decIndent, .addIndent]
    | .sectionOpen | .entry | .containerOpen => [.wappend [nl], .addIndent]
    | _ => [.notReached "format_text_element"]
  | .none =>
    match current with
    | .entry | .containerOpen | .sectionOpen | .sectionClose | .containerClose => [.addIndent]
    | .objectOpen | .objectClose => []
    | _ => [.notReached "format_text_element"]
  | _ => [.notReached "format_text_element"]

/-- `format_json_element`. -/
def jsonCell (last current : ElementType) : List Op :=
  match last with
  | .entry =>
    match current with
    | .entry | .sectionOpen | .containerOpen => [.wappend (lit ",\n"), .addIndent]
    | .sectionClose | .containerClose | .objectClose => [.wappend [nl], .decIndent, .addIndent]
    | _ => [.notReached "format_json_element"]
  | .sectionOpen =>
    match current with
    | .entry | .sectionOpen | .containerOpen => [.wappend [nl], .incIndent, .addIndent]
    | .sectionClose | .objectOpen => []
    | .containerClose => [.notReached "format_json_element"]
    | _ => [.notReached "format_json_element"]
  | .sectionClose =>
    match current with
    | .entry | .sectionOpen | .containerOpen => [.wappend (lit ",\n"), .addIndent]
    | .objectOpen => []
    | .sectionClose | .containerClose => [.wappend [nl], .decIndent, .addIndent]
    | .objectClose => [.wappend [nl], .decIndent, .addIndent]
    | _ => [.notReached "format_json_element"]
  | .containerOpen =>
    match current with
    | .entry | .containerOpen | .sectionOpen | .objectOpen =>
      [.wappend [nl], .incIndent, .addIndent]
    | .objectClose | .sectionClose => [.notReached "format_json_element"]
    | .containerClose => []
    | _ => [.notReached "format_json_element"]
  | .containerClose =>
    match current with
    | .entry | .sectionOpen | .objectOpen | .containerOpen => [.wappend (lit ",\n"), .addIndent]
    | .sectionClose | .containerClose | .objectClose => [.wappend [nl], .decIndent, .addIndent]
    | _ => [.notReached "format_json_element"]
  | .objectOpen =>
    match current with
    | .entry | .containerOpen | .sectionOpen => [.wappend [nl], .incIndent, .addIndent]
    | .objectClose => []
    | _ => [.notReached "format_json_element"]
  | .objectClose =>
    match current with
    | .containerClose | .sectionClose => [.wappend [nl], .decIndent, .addIndent]
    | .objectOpen | .sectionOpen => [.wappend (lit ",\n"), .addIndent]
    | _ => [.notReached "format_json_element"]
  | .none =>
    match current with
    | .entry | .sectionOpen | .sectionClose | .containerOpen | .containerClose | .objectOpen
    | .objectClose => [.addIndent]
    | _ => [.notReached "format_json_element"]

/-- `format_xml_element`. -/
def xmlCell (last current : ElementType) : List Op :=
  match last with
  | .entry =>
    match current with
    | .entry | .sectionOpen | .objectOpen | .containerOpen => [.wappend [nl], .addIndent]
    | .sectionClose | .containerClose | .objectClose => [.wappend [nl], .decIndent, .addIndent]
    | _ => [.notReached "format_xml_element"]
  | .sectionOpen =>
    match current with
    | .entry | .sectionOpen | .containerOpen => [.wappend [nl], .incIndent, .addIndent]
    | .sectionClose => [.wappend [nl], .addIndent]
    | .containerClose => [.notReached "format_xml_element"]
    | _ => [.notReached "format_xml_element"]
  | .sectionClose =>
    match current with
    | .sectionClose | .containerClose => [.wappend [nl], .decIndent, .addIndent]
    | .objectClose => [.wappend [nl], .addIndent]
    | .sectionOpen | .entry | .containerOpen => [.wappend [nl], .addIndent]
    | _ => [.notReached "format_xml_element"]
  | .containerOpen =>
    match current with
    | .entry | .sectionOpen | .containerOpen => [.wappend [nl], .incIndent, .addIndent]
    | .sectionClose => [.notReached "format_xml_element"]
    | .containerClose => [.wappend [nl], .addIndent]
    | .objectOpen => [.addIndent]
    | _ => [.notReached "format_xml_element"]
  | .containerClose =>
    match current with
    | .sectionClose | .containerClose | .objectClose => [.wappend [nl], .decIndent, .addIndent]
    | .entry | .sectionOpen | .containerOpen => [.wappend [nl], .addIndent]
    | _ => [.notReached "format_xml_element"]
  | .objectOpen =>
    match current with
    | .entry | .sectionOpen => [.wappend [nl], .incIndent, .addIndent]
    | .containerOpen => [.wappend [nl], .incIndent, .addIndent]
    | .objectClose => []
    | _ => [.notReached "format_xml_element"]
  | .objectClose =>
    match current with
    | .objectOpen | .sectionClose => []
    | .containerClose | .entry => [.wappend [nl], .decIndent]
    | _ => [.notReached "format_xml_element"]
  | .none =>
    match current with
    | .entry | .containerOpen | .sectionOpen | .sectionClose | .containerClose | .objectOpen
    | .objectClose => [.addIndent]
    | _ => [.notReached "format_xml_element"]

/-- The cell that `format_element` runs. -/
def elementCell : OutputFormat → ElementType → ElementType → List Op
  | .text => textCell
  | .crumb => fun _ _ => []
  | .json => jsonCell
  | .xml => xmlCell

/-- `format_element`. -/
def formatElement (s : OutState) : Except Halt OutState :=
  runOps cfg (elementCell cfg.outputFormat s.lastElement s.currentElement) s

/-- `change_element`. -/
def changeElement (new : ElementType) (s : OutState) : Except Halt OutState := do
  commonAssert cfg
  formatElement cfg { s with lastElement := s.currentElement, currentElement := new }

/-! ## Breadcrumbs -/

/-- `add_breadcrumb`. -/
def addBreadcrumb (name : MbStr) (s : OutState) : OutState :=
  let (heap, list) := match s.crumbList with
    | some list => (s.heap, list)
    | none => prListNew s.heap none
  { s with crumbList := some list, heap := (prListPrependStr heap list name).1 }

/-- `remove_breadcrumb`. -/
def removeBreadcrumb (s : OutState) : Except Halt OutState :=
  match s.crumbList with
  | none => .error (.assertFailed "remove_breadcrumb")
  | some list => .ok { s with heap := (prListRemove s.heap (s.heap.prev list)).1 }

/-! ## Names, objects, sections, containers and entries -/

/-- `name_to_wide_name`. -/
def nameToWideName (name : MbStr) : Except Halt WStr := do
  match charToWchar cfg.locale name with
  | none => .error (.die "failed to convert string to pstring" [])
  | some w =>
    let (ret, encoded) ← encodeString cfg.locale cfg.outputFormat w
    if ret < 0 then .error (.die "failed to encode name" [])
    return encoded

/-- The objects of `object_open` and `object_close`: visible in JSON only. -/
def objectEvent (element : ElementType) (text : WStr) (retain : Bool) (s : OutState) :
    Except Halt OutState := do
  commonAssert cfg
  match cfg.outputFormat with
  | .json =>
    -- with `retain` the elements stay as they are, and their cell is run again
    let s ← if retain then formatElement cfg s else changeElement cfg element s
    return s.wappend text
  | .crumb | .text | .xml => return s

/-- `object_open`. -/
def objectOpen := objectEvent cfg .objectOpen (lit "\x7b")

/-- `object_close`. -/
def objectClose := objectEvent cfg .objectClose (lit "\x7d")

/-- `section_open` and `container_open`: the element, the JSON bracket and the XML tag differ. -/
def groupOpen (element : ElementType) (bracket tag : WStr) (name : MbStr) (s : OutState) :
    Except Halt OutState := do
  commonAssert cfg
  let encodedName ← nameToWideName cfg name
  let s ← changeElement cfg element s
  match cfg.outputFormat with
  | .text => return s.wappend (encodedName ++ lit ":")
  | .crumb => return addBreadcrumb name s
  | .json => return s.wappend (lit "\"" ++ encodedName ++ lit "\" : " ++ bracket)
  | .xml => return s.wappend (lit "<" ++ tag ++ lit " name=\"" ++ encodedName ++ lit "\">")

/-- `section_close` and `container_close`. -/
def groupClose (element : ElementType) (bracket tag : WStr) (s : OutState) :
    Except Halt OutState := do
  commonAssert cfg
  let s ← changeElement cfg element s
  match cfg.outputFormat with
  | .text => return s
  | .crumb => removeBreadcrumb s
  | .json => return s.wappend bracket
  | .xml => return s.wappend (lit "</" ++ tag ++ lit ">")

/-- `section_open`. -/
def sectionOpen := groupOpen cfg .sectionOpen (lit "\x7b") (lit "section")

/-- `section_close`. -/
def sectionClose := groupClose cfg .sectionClose (lit "\x7d") (lit "section")

/-- `container_open`. -/
def containerOpen := groupOpen cfg .containerOpen (lit "[") (lit "container")

/-- `container_close`. -/
def containerClose := groupClose cfg .containerClose (lit "]") (lit "container")

/-- `header`. -/
def header := sectionOpen cfg

/-- `footer`. -/
def footer := sectionClose cfg

/-- The bread crumbs that `entry` writes, from the list nodes it visits. -/
def crumbText (s : OutState) : List Nat → Except Halt WStr
  | [] => return []
  | iter :: iters => do
    let crumb ← expandStr cfg.locale ((s.heap.data iter).getD [])
    let sep ← expandStr cfg.locale cfg.crumbSeparator
    let rest ← crumbText s iters
    return crumb ++ sep ++ rest

/-- `entry`; `value` is the expansion of the format and its arguments. -/
def entry (name : MbStr) (value : WStr) (s : OutState) : Except Halt OutState := do
  commonAssert cfg
  let s ← changeElement cfg .entry s
  match charToWchar cfg.locale name with
  | none => .error (.die "failed to encode name" [])
  | some w =>
    let (ret, encodedName) ← encodeString cfg.locale cfg.outputFormat w
    if ret < 0 then .error (.die "failed to encode name" [])
    let (ret, encodedValue) ← encodeString cfg.locale cfg.outputFormat value
    if ret < 0 then .error (.die "failed to encode value" [])
    match cfg.outputFormat with
    | .crumb =>
      -- the list is made by the first section or container
      match s.crumbList with
      | none => .error (.assertFailed "entry")
      | some list =>
        match prListForeach s.heap list with
        | none => .error .hang
        | some iters =>
          let crumbs ← crumbText cfg s iters
          let sep ← expandStr cfg.locale cfg.textSeparator
          return (s.wappend crumbs).wappend (encodedName ++ sep ++ encodedValue ++ [nl])
    | .text =>
      let sep ← expandStr cfg.locale cfg.textSeparator
      return s.wappend (encodedName ++ sep ++ encodedValue)
    | .json =>
      return s.wappend (lit "\"" ++ encodedName ++ lit "\" : \"" ++ encodedValue ++ lit "\"")
    | .xml =>
      return s.wappend
        (lit "<entry name=\"" ++ encodedName ++ lit "\">" ++ encodedValue ++ lit "</entry>")

/-! ## The document's header and footer -/

/-- The XML declaration. -/
def xmlDeclaration : WStr := lit "<?xml version=\"1.0\" encoding=\"UTF-8\"?>\n"

/-- The `mode` attribute of the root element. -/
def xmlMode : WStr := (if cfg.euid ≠ 0 then lit "non-" else []) ++ lit "privileged"

/-- The start tag of the root element. -/
def xmlRootOpen : WStr :=
  lit "<" ++ packageName ++ lit " version=\"" ++ packageVersion ++ lit "\" package_string=\"" ++
    packageString ++ lit "\" mode=\"" ++ xmlMode cfg ++ lit "\" format_version=\"" ++
    procenvFormatVersion ++ lit "\">\n"

/-- `master_header`. -/
def masterHeader (s : OutState) : Except Halt OutState := do
  commonAssert cfg
  match cfg.outputFormat with
  | .crumb | .text => return s
  | .json => objectOpen cfg false s
  | .xml => incIndent cfg ((s.wappend xmlDeclaration).wappend (xmlRootOpen cfg))

/-- `master_footer`. -/
def masterFooter (s : OutState) : Except Halt OutState := do
  commonAssert cfg
  match cfg.outputFormat with
  | .crumb | .text => return s.wappend [nl]
  | .json =>
    -- the newline is no part of the object
    let s ← objectClose cfg false s
    return s.wappend [nl]
  | .xml =>
    let s ← decIndent cfg (s.wappend [nl])
    return s.wappend (lit "</" ++ packageName ++ lit ">\n")

/-! ## Events -/

/-- A call of a display routine. -/
inductive Event
  | entry (name : MbStr) (value : WStr)
  | sectionOpen (name : MbStr)
  | sectionClose
  | containerOpen (name : MbStr)
  | containerClose
  | objectOpen (retain : Bool)
  | objectClose (retain : Bool)
deriving DecidableEq, Repr

/-- Run one call. -/
def step (s : OutState) : Event → Except Halt OutState
  | .entry name value => entry cfg name value s
  | .sectionOpen name => sectionOpen cfg name s
  | .sectionClose => sectionClose cfg s
  | .containerOpen name => containerOpen cfg name s
  | .containerClose => containerClose cfg s
  | .objectOpen retain => objectOpen cfg retain s
  | .objectClose retain => objectClose cfg retain s

/-- Run a sequence of calls. -/
def runEvents (es : List Event) (s : OutState) : Except Halt OutState := es.foldlM (step cfg) s

end Procenv
