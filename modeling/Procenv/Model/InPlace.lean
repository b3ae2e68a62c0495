import Procenv.Model.Append

/-!
# `pstring_chomp` and `pstring_compress` by index

Both functions as they run: pointers are indices into the buffer, and `pstring_compress`
writes to the buffer that it reads. Every access is checked: outside of `0..len`, where `len`
is the length of the string and so the index of its terminator, or in a cell that nothing was
written to, it is `Halt.outOfBounds`. A loop that goes on for more than `len` rounds is
`Halt.hang`. `src` is `to`, and `dst` is `from`.
-/

namespace Procenv

open Text Data

section Access

variable (fn : String) (len : Nat) (buf : Buffer WChar)

/-- `buf[i]`. -/
def readCell (i : Nat) : Except Halt WChar :=
  if i ≤ len then access fn (buf[i]?.join) else .error (.outOfBounds fn)

/-- `buf[i] = x`. -/
def writeCell (i : Nat) (x : WChar) : Except Halt (Buffer WChar) :=
  if i ≤ len then access fn (buf.store i x) else .error (.outOfBounds fn)

end Access

/-! ## `pstring_chomp` -/

/-- The loop of `pstring_chomp`; `p` is one more than the index that is read. -/
def chompLoopAt (wideIndentChar : WChar) (len : Nat) (buf : Buffer WChar) :
    (p removable : Nat) → Except Halt Nat
  | 0, _ => .error (.outOfBounds "pstring_chomp")
  | p + 1, removable => do
    let x ← readCell "pstring_chomp" len buf p
    if x = nl ∨ x = wideIndentChar then chompLoopAt wideIndentChar len buf p (removable + 1)
    else return removable

/-- `pstring_chomp`. -/
def Pstring.chompAt (wideIndentChar : WChar) (str : Pstring) : Except Halt Pstring := do
  if str.len < 2 then return str
  let removable ← chompLoopAt wideIndentChar str.len str.buf str.len 0
  if removable > 1 then
    let len := str.len - (removable - 1)
    let buf ← writeCell "pstring_chomp" str.len str.buf (len - 1) nl
    let buf ← writeCell "pstring_chomp" str.len buf len 0
    return { str with buf := buf, len := len }
  return str

/-! ## `pstring_compress` -/

section Loops

variable (len : Nat)

/-- `while (*to == L'\n' && *(to+1) == L'\n')`. -/
def skipBlanksAt (buf : Buffer WChar) : (fuel src blanks : Nat) → Except Halt (Nat × Nat)
  | 0, _, _ => .error .hang
  | fuel + 1, src, blanks => do
    if (← readCell "pstring_compress" len buf src) ≠ nl then return (src, blanks)
    if (← readCell "pstring_compress" len buf (src + 1)) ≠ nl then return (src, blanks)
    skipBlanksAt buf fuel (src + 1) (blanks + 1)

/-- `while (*to == x) { to++; count++; }`. -/
def skipCharsAt (x : WChar) (buf : Buffer WChar) : (fuel src count : Nat) → Except Halt (Nat × Nat)
  | 0, _, _ => .error .hang
  | fuel + 1, src, count => do
    if (← readCell "pstring_compress" len buf src) ≠ x then return (src, count)
    skipCharsAt x buf fuel (src + 1) (count + 1)

variable (removeChar : WChar)

/-- From `again` to the copy, or to `goto again`. -/
def compressRoundAt (buf : Buffer WChar) (src count blanks : Nat) : Except Halt (Nat × Bool × Nat × Nat) := do
  let (start, blanks) ← skipBlanksAt len buf (len + 1) src blanks
  let (src, count) ← skipCharsAt len removeChar buf (len + 1) start count
  if src ≠ start then
    if (← readCell "pstring_compress" len buf src) = nl ∧ src ≠ start + 1 then
      let (src, _) ← skipCharsAt len nl buf (len + 1) src 0
      if (← readCell "pstring_compress" len buf src) = removeChar then return (src, true, count, blanks)
      return (src, false, count, blanks + 1)
    return (start, false, 0, blanks)
  return (src, false, count, blanks)

/-- The outer loop: the buffer, `from` and the counters. The jump to `again` leads to the start of the
loop, since `*to` is no terminator there. -/
def compressLoopAt : (fuel : Nat) → (buf : Buffer WChar) → (dst src count blanks : Nat) →
    Except Halt (Buffer WChar × Nat × Nat × Nat)
  | 0, _, _, _, _, _ => .error .hang
  | fuel + 1, buf, dst, src, count, blanks => do
    if (← readCell "pstring_compress" len buf src) = 0 then return (buf, dst, count, blanks)
    let (src, again, count, blanks) ← compressRoundAt len removeChar buf src count blanks
    if again then compressLoopAt fuel buf dst src count blanks
    else
      let x ← readCell "pstring_compress" len buf src
      let buf ← writeCell "pstring_compress" len buf dst x
      compressLoopAt fuel buf (dst + 1) (src + 1) count blanks

end Loops

/-- `pstring_compress`. -/
def Pstring.compressAt (removeChar : WChar) (wstr : Pstring) : Except Halt Pstring := do
  if wstr.buf = [] then throw (.assertFailed "pstring_compress")
  let (buf, dst, count, blanks) ← compressLoopAt wstr.len removeChar (wstr.len + 1) wstr.buf 0 0 0 0
  let buf ← writeCell "pstring_compress" wstr.len buf dst 0
  if blanks ≠ 0 ∨ count ≠ 0 then
    if wstr.len ≤ blanks + count then throw (.outOfBounds "pstring_compress")
    let newLen := wstr.len - (blanks + count)
    let buf ← writeCell "pstring_compress" wstr.len (buf.realloc newLen) (newLen - 1) 0
    return ⟨buf, newLen, newLen * sizeofWchar⟩
  return { wstr with buf := buf }

end Procenv
