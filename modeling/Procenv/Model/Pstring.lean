import Procenv.Model.Basic

/-!
# `pstring_chomp` and `pstring_compress`

Both work on the document before it is shown. Pointers into the buffer are the
texts from them on (`src` is `to`), and at the end stands the terminator; an access before the
buffer or after the terminator is `Halt.outOfBounds`. The remove character is not
the terminator. `pstring_compress` writes behind what it reads, so that what it has
written (`out`) never changes what is still to be read.
-/

namespace Procenv

open Text

variable (removeChar : WChar)

/-! ## `pstring_chomp` -/

/-- The loop of `pstring_chomp` from the last character backwards: the characters that can be
removed. A text of nothing else is read before its start. -/
def chompScan (wideIndentChar : WChar) : (rev : WStr) → (removable : Nat) → Except Halt Nat
  | [], _ => .error (.outOfBounds "pstring_chomp")
  | p :: rev, removable =>
    if p = nl ∨ p = wideIndentChar then chompScan wideIndentChar rev (removable + 1) else .ok removable

/-- `pstring_chomp`. -/
def pstringChomp (wideIndentChar : WChar) (str : WStr) : Except Halt WStr := do
  if str.length < 2 then return str
  let removable ← chompScan wideIndentChar str.reverse 0
  if removable > 1 then
    let len := str.length - (removable - 1)
    return (str.take len).set (len - 1) nl
  return str

/-! ## `pstring_compress` -/

/-- `while (*to == L'\n' && *(to+1) == L'\n')`: skip over blank lines. -/
def skipBlanks : (src : WStr) → (blanks : Nat) → WStr × Nat
  | x :: y :: src, blanks =>
    if x = nl ∧ y = nl then skipBlanks (y :: src) (blanks + 1) else (x :: y :: src, blanks)
  | src, blanks => (src, blanks)

/-- `while (*to == remove_char)`: skip a run, with its length. -/
def skipRun : (src : WStr) → (run : Nat) → WStr × Nat
  | x :: src, run => if x = removeChar then skipRun src (run + 1) else (x :: src, run)
  | [], run => ([], run)

/-- `while (*to == L'\n')`: consume the newlines after a run. -/
def skipNewlines : WStr → WStr
  | x :: src => if x = nl then skipNewlines src else x :: src
  | [] => []

/-- Where a round of the copy loop leads: to the copy of `*src`, or back to `again`. -/
structure Round where
  src : WStr
  again : Bool
  count : Nat
  blanks : Nat
deriving DecidableEq

/-- A round of the copy loop, up to the copy. -/
def compressRound (src : WStr) (count blanks : Nat) : Round :=
  let (start, blanks) := skipBlanks src blanks
  let (src, run) := skipRun removeChar start 0
  if run ≠ 0 then
    if src.head? = some nl ∧ run ≠ 1 then
      let src := skipNewlines src
      if src.head? = some removeChar then ⟨src, true, count + run, blanks⟩
      else ⟨src, false, count + run, blanks + 1⟩
    else ⟨start, false, 0, blanks⟩
  else ⟨start, false, count, blanks⟩

/-- The copy loop: the text written, `count` and `blanks`. The jump to `again` leads to the start of
the loop, since `*to` is no terminator there. A copy of the terminator does not end the loop: it
goes on reading after it. -/
def compressLoop : (fuel : Nat) → (src out : WStr) → (count blanks : Nat) → Except Halt (WStr × Nat × Nat)
  | 0, _, _, _, _ => .error .hang
  | _ + 1, [], out, count, blanks => .ok (out, count, blanks)
  | fuel + 1, x :: src, out, count, blanks =>
    match compressRound removeChar (x :: src) count blanks with
    | ⟨src, true, count, blanks⟩ => compressLoop fuel src out count blanks
    | ⟨y :: src, false, count, blanks⟩ => compressLoop fuel src (out ++ [y]) count blanks
    | ⟨[], false, _, _⟩ => .error (.outOfBounds "pstring_compress")

/-- The copy loop on a whole text. -/
def compressCopy (s : WStr) : Except Halt (WStr × Nat × Nat) :=
  compressLoop removeChar (s.length + 1) s [] 0 0

/-- `pstring_compress`: when something was counted, the text is cut at the length computed from the
two counters. -/
def pstringCompress (s : WStr) : Except Halt WStr := do
  let (out, count, blanks) ← compressCopy removeChar s
  if blanks ≠ 0 ∨ count ≠ 0 then
    let newLen := s.length - (blanks + count)
    if newLen = 0 then .error (.outOfBounds "pstring_compress")
    else return out.take (newLen - 1)
  else return out

end Procenv
