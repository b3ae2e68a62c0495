import Procenv.Data.Buffer
import Procenv.Model.Pstring

/-!
# Strings that grow: `pstring` and the append functions

A `pstring` is a buffer of wide characters with a length. The length of a document
is its number of characters; `pstring_create`, and `wappendva` without a destination,
count the terminator too. An access outside the cells of the buffer, or of a
cell that nothing was written to, is `Halt.outOfBounds`. Allocation succeeds.

`appendva` and `wappendva` print into a buffer that grows by one character until
the text fits. `Vsnprintf` and `Vswprintf` are what they ask of the C library for a
format and its arguments; a loop that has not ended after `fuel` rounds has no
result yet.
-/

namespace Procenv

open Text Data

/-- `sizeof (wchar_t)`. -/
def sizeofWchar : Nat := 4

/-- `pstring`; an empty `buf` is `NULL`. -/
structure Pstring where
  buf : Buffer WChar := []
  len : Nat := 0
  size : Nat := 0
deriving DecidableEq

/-- An access of the named function. -/
def access {β : Type} (fn : String) : Option β → Except Halt β
  | some b => .ok b
  | none => .error (.outOfBounds fn)

/-- `pstring_new`. -/
def pstringNew : Pstring := {}

/-- `pstring_create`. -/
def pstringCreate (str : WStr) : Pstring :=
  ⟨str.map some ++ [some 0], 1 + str.length, (1 + str.length) * sizeofWchar⟩

/-- `char_to_pstring`. -/
def charToPstring (loc : Locale) (str : MbStr) : Option Pstring := (charToWchar loc str).map pstringCreate

/-! ## Appending texts -/

/-- `wappendn`. -/
def wappendn (dest : Option Pstring) (src : WStr) (len : Nat) : Except Halt (Option Pstring) := do
  if len = 0 then return dest
  let d := dest.getD pstringNew
  let total := d.len + len
  let buf := d.buf.realloc (1 + total)
  -- an empty pstring has no terminator for `wcsncat` to find
  let buf : Buffer WChar := if d.len = 0 then List.replicate (1 + total) (some 0) else buf
  let buf ← access "wappendn" (buf.store total 0)
  let buf ← access "wappendn" (buf.cat 0 d.len src len)
  if buf[total]? = some (some 0) then return some ⟨buf, total, (1 + total) * sizeofWchar⟩
  else .error (.assertFailed "wappendn")

/-- `wappend`. -/
def wappend (dest : Option Pstring) (src : WStr) : Except Halt (Option Pstring) :=
  wappendn dest src src.length

/-- `pappend`; one of the two terminators is not counted. -/
def pappend (dest : Option Pstring) (src : Pstring) : Except Halt (Option Pstring) := do
  if src.len = 0 then return dest
  let d := dest.getD pstringNew
  let total := d.len + src.len - 1
  let buf := d.buf.realloc (1 + total)
  let str ← access "pappend" (src.buf.string 0)
  let buf ← access "pappend" (buf.cat 0 d.len str src.len)
  let buf ← access "pappend" (buf.store total 0)
  return some ⟨buf, total, (1 + total) * sizeofWchar⟩

/-- `wmappend`: `wappend` of the wide string. -/
def wmappend (loc : Locale) (dest : Option Pstring) (src : MbStr) : Except Halt (Option Pstring) :=
  match charToWchar loc src with
  | none => .error (.die "failed to allocate space for wide string" [])
  | some wideSrc => wappend dest wideSrc

/-- `wmappendn`. -/
def wmappendn (loc : Locale) (dest : Option Pstring) (src : MbStr) (len : Nat) : Except Halt (Option Pstring) :=
  if len = 0 then .ok dest
  else
    match charToWchar loc src with
    | none => .error (.die "failed to allocate space for wide string" [])
    | some wideSrc => wappendn dest wideSrc wideSrc.length

/-- `append`: `appendn` of the whole string. -/
def append (dest : Option MbStr) (src : MbStr) : Option MbStr :=
  if src.length = 0 then dest else some (dest.getD [] ++ src)

/-- `appendn`, on the cells of the string. -/
def appendn (dest : Option (Buffer UInt8)) (src : MbStr) (len : Nat) : Except Halt (Option (Buffer UInt8)) := do
  if len = 0 then return dest
  -- `strdup ("")`
  let d := dest.getD [some 0]
  let str ← access "appendn" (d.string 0)
  let total := str.length + 1 + len
  let buf ← access "appendn" ((d.realloc total).cat 0 0 src len)
  if buf[total - 1]? = some (some 0) then return some buf
  else .error (.assertFailed "appendn")

/-- `append`, on the cells of the string. -/
def appendCells (dest : Option (Buffer UInt8)) (src : MbStr) : Except Halt (Option (Buffer UInt8)) :=
  appendn dest src src.length

/-! ## Appending expansions -/

/-- `DEFAULT_ALLOC_GUESS_SIZE`. -/
def defaultAllocGuessSize : Nat := 8

/-- `vsnprintf` for a format and its arguments: what it returns and writes for a size. -/
structure Vsnprintf where
  /-- The text, if every argument can be converted. -/
  expansion : Option MbStr
  call : (size : Nat) → Int × MbStr
  fits : ∀ text, expansion = some text → ∀ size, text.length < size → call size = ((text.length : Int), text)
  long : ∀ text, expansion = some text → ∀ size, size ≤ text.length → (call size).1 = text.length
  unconvertible : expansion = none → ∀ size, (call size).1 < 0

/-- `vswprintf` for a format and its arguments; it does not say how long a text is that does not
fit. -/
structure Vswprintf where
  /-- The text, if every argument can be converted. -/
  expansion : Option WStr
  call : (size : Nat) → Int × WStr
  fits : ∀ text, expansion = some text → ∀ size, text.length < size → call size = ((text.length : Int), text)
  long : ∀ text, expansion = some text → ∀ size, size ≤ text.length → (call size).1 < 0
  unconvertible : expansion = none → ∀ size, (call size).1 < 0
  /-- A wide string has no terminator in it. -/
  noZero : ∀ text, expansion = some text → 0 ∉ text

/-- The loop of `appendva`: the text in `new`. -/
def appendvaLoop (v : Vsnprintf) : (fuel len : Nat) → Option (Except Halt MbStr)
  | 0, _ => none
  | fuel + 1, len =>
    let (ret, new) := v.call len
    if ret < 0 then some (.error (.die "failed to format string" []))
    else if ret < len then some (.ok new)
    else appendvaLoop v fuel (len + 1)

/-- `appendva`, with at most `fuel` rounds of its loop. -/
def appendva (fuel : Nat) (dest : Option MbStr) (v : Vsnprintf) : Option (Except Halt (Option MbStr)) :=
  (appendvaLoop v fuel defaultAllocGuessSize).map fun new => do
    let new ← new
    match dest with
    | some _ => return append dest new
    | none => return some new

/-- The loop of `wappendva`: `ret` and the buffer `new`. A negative `ret` is larger than every
size when it is converted to `size_t`. -/
def wappendvaLoop (v : Vswprintf) : (fuel len : Nat) → Option (Except Halt (Nat × Buffer WChar))
  | 0, _ => none
  | fuel + 1, len =>
    let (ret, text) := v.call len
    if 0 ≤ ret ∧ ret < len then
      let new : Buffer WChar := List.replicate (1 + len) (some 0)
      some (do
        let new ← access "wappendva" (new.storeAll 0 (text ++ [0]))
        return (ret.toNat, new))
    else wappendvaLoop v fuel (len + 1)

/-- `wappendva`, with at most `fuel` rounds of its loop. -/
def wappendva (fuel : Nat) (dest : Option Pstring) (v : Vswprintf) :
    Option (Except Halt (Option Pstring)) :=
  (wappendvaLoop v fuel defaultAllocGuessSize).map fun new => do
    let (ret, new) ← new
    match dest with
    | some _ =>
      let src ← access "wappendva" (new.string 0)
      wappend dest src
    | none =>
      let len := ret + 1
      return some ⟨new.realloc (1 + len), len, (1 + len) * sizeofWchar⟩

/-! ## Chomping and compressing -/

/-- The loop of `pstring_chomp`, on the cells from the last character backwards. -/
def chompCells (wideIndentChar : WChar) : (rev : Buffer WChar) → (removable : Nat) → Except Halt Nat
  | some p :: rev, removable =>
    if p = nl ∨ p = wideIndentChar then chompCells wideIndentChar rev (removable + 1) else .ok removable
  | _, _ => .error (.outOfBounds "pstring_chomp")

/-- `pstring_chomp`, on the buffer. -/
def Pstring.chomp (wideIndentChar : WChar) (str : Pstring) : Except Halt Pstring := do
  if str.len < 2 then return str
  if str.buf.length < str.len then .error (.outOfBounds "pstring_chomp")
  let removable ← chompCells wideIndentChar (str.buf.take str.len).reverse 0
  if removable > 1 then
    let len := str.len - (removable - 1)
    let buf ← access "pstring_chomp" (str.buf.store (len - 1) nl)
    let buf ← access "pstring_chomp" (buf.store len 0)
    return { str with buf := buf, len := len }
  return str

/-- `pstring_compress`, on the buffer: what the copy loop keeps is written from its start on. -/
def Pstring.compress (removeChar : WChar) (wstr : Pstring) : Except Halt Pstring := do
  if wstr.buf = [] then .error (.assertFailed "pstring_compress")
  let text ← access "pstring_compress" (wstr.buf.string 0)
  let (out, count, blanks) ← compressCopy removeChar text
  let buf ← access "pstring_compress" (wstr.buf.storeAll 0 (out ++ [0]))
  if blanks ≠ 0 ∨ count ≠ 0 then
    let newLen := wstr.len - (blanks + count)
    let buf ← access "pstring_compress" ((buf.realloc newLen).store (newLen - 1) 0)
    return ⟨buf, newLen, newLen * sizeofWchar⟩
  return { wstr with buf := buf }

end Procenv
