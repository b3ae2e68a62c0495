import Procenv.Model.Append

/-!
# `char_to_wchar` and `wchar_to_char`

Both measure the converted string first, take memory for it and convert then. Sizes are of the type
`size_t`, and a string that does not convert has the size `(size_t)-1`. What the memory functions answer
for a size is a parameter, and so is the encoding of the locale.
-/

namespace Procenv

open Text

/-- `(size_t)-1`. -/
def sizeMax : Nat := 2 ^ 64 - 1

/-- Arithmetic of `size_t`. -/
def sizeT (n : Nat) : Nat := n % 2 ^ 64

section CharToWchar

variable (loc : Locale) (malloc : Nat → Bool)

/-- `mbsrtowcs (NULL, &str, 0, &ps)`. -/
def mbsrtowcsLen (str : MbStr) : Nat :=
  match loc.mbsrtowcs str with
  | none => sizeMax
  | some w => w.length

/-- `mbsrtowcs (wstr, &p, len, &ps)` into `size` bytes: what it stores, and what it returns. -/
def mbsrtowcsInto (str : MbStr) (len size : Nat) : Except Halt (WStr × Nat) :=
  match loc.mbsrtowcs str with
  | none => .ok ([], sizeMax)
  | some w =>
    if size < (w.take len).length * sizeofWchar then .error (.outOfBounds "char_to_wchar")
    else .ok (w.take len, (w.take len).length)

/-- `char_to_wchar`, with the answers of `malloc`. -/
def charToWcharWith (str : MbStr) : Except Halt (Option WStr) := do
  let len := mbsrtowcsLen loc str
  if len = 0 then return none
  if len = sizeMax then return none
  -- include space for terminator
  let size := sizeT ((1 + len) * sizeofWchar)
  if !malloc size then return none
  let (wstr, ret) ← mbsrtowcsInto loc str len size
  if ret ≠ len then return none
  -- the write of the terminator
  if size < (len + 1) * sizeofWchar then .error (.outOfBounds "char_to_wchar")
  return some wstr

end CharToWchar

section WcharToChar

variable (encode : WStr → Option MbStr) (calloc : Nat → Bool)

/-- `wcstombs (NULL, wstr, len)`. -/
def wcstombsLen (wstr : WStr) : Nat :=
  match encode wstr with
  | none => sizeMax
  | some str => str.length

/-- `wcstombs (str, wstr, n)` into `size` bytes: what it stores, and what it returns. It may store `n` bytes,
also before it finds what does not convert. -/
def wcstombsInto (wstr : WStr) (n size : Nat) : Except Halt (MbStr × Nat) :=
  if size < n then .error (.outOfBounds "wchar_to_char")
  else
    match encode wstr with
    | none => .ok ([], sizeMax)
    | some str => .ok (str.take n, (str.take n).length)

/-- `wchar_to_char`, with the answers of `calloc`. -/
def wcharToChar (wstr : WStr) : Except Halt (Option MbStr) := do
  let len := wcstombsLen encode wstr
  if len = 0 then return none
  let size := sizeT (len + 1)
  if !calloc size then return none
  let (str, ret) ← wcstombsInto encode wstr len size
  if ret = 0 then return none
  return some str

end WcharToChar

/-- `wchar_to_char (char_to_wchar (str))`. -/
def roundTrip (loc : Locale) (encode : WStr → Option MbStr) (malloc calloc : Nat → Bool) (str : MbStr) :
    Except Halt (Option MbStr) := do
  match ← charToWcharWith loc malloc str with
  | none => return none
  | some wstr => wcharToChar encode calloc wstr

end Procenv
