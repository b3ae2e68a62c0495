import Procenv.Model.Basic

/-!
# `output_translate` and `encode_string`

Strings are first rewritten by the table of the output format, then their
non-printable characters are escaped into a buffer whose size is computed
beforehand from the number of them. The second pass writes through a cursor: the
model keeps the cells of the buffer and the cursor, and stops at any access
outside the cells (`Halt.outOfBounds`). Allocation succeeds.
-/

namespace Procenv

open Text

/-- `OutputFormat`. -/
inductive OutputFormat
  | text | crumb | json | xml
deriving DecidableEq, Repr

/-! ## The translation tables -/

/-- `TranslateMapEntry`; `toText` is `NULL` in the terminators. -/
structure TranslateMapEntry where
  toText : Option WStr
  fromChar : WChar

/-- `translate_table`, by output format: six entries each. -/
def translateTable : OutputFormat → List TranslateMapEntry
  | .xml =>
    [ ⟨lit "&apos;", 39⟩,
      ⟨lit "&quot;", 34⟩,
      ⟨lit "&amp;", 38⟩,
      ⟨lit "&lt;", 60⟩,
      ⟨lit "&gt;", 62⟩,
      ⟨none, 0⟩ ]
  | .json =>
    [ ⟨lit "\\\"", 34⟩,
      ⟨lit "\\\\\\\\", 92⟩,
      ⟨none, 0⟩,
      ⟨none, 0⟩,
      ⟨none, 0⟩,
      ⟨none, 0⟩ ]
  | .text | .crumb => []

/-- The first loop of `output_translate`: the characters the result needs on top. -/
def translateExtra (fmt : OutputFormat) (s : WStr) : Nat :=
  (s.map fun c => ((translateTable fmt).map fun e =>
    if c = e.fromChar then (e.toText.getD []).length - 1 else 0).sum).sum

/-- The second loop of `output_translate`: `p` is what is left of the input, `start` the
characters since the last match, copied when the next match or the end comes. -/
def translateLoop (fmt : OutputFormat) : (p start result : WStr) → WStr
  | [], start, result => result ++ start
  | c :: p, start, result =>
    match (translateTable fmt).find? (fun e => c = e.fromChar) with
    | some e => translateLoop fmt p [] (result ++ start ++ e.toText.getD [])
    | none => translateLoop fmt p (start ++ [c]) result

/-- `output_translate`. -/
def outputTranslate (fmt : OutputFormat) (s : WStr) : WStr :=
  if translateExtra fmt s = 0 then s else translateLoop fmt s [] []

/-! ## Hexadecimal conversions of `swprintf` -/

/-- A digit of `%x`. -/
def hexDigit (d : Nat) : WChar := Fin.ofNat _ (if d < 10 then 48 + d else 87 + d)

/-- The last `w` hexadecimal digits of `n`. -/
def hexFixed : Nat → Nat → WStr
  | 0, _ => []
  | w + 1, n => hexFixed w (n / 16) ++ [hexDigit (n % 16)]

/-- The number of hexadecimal digits of a code point. -/
def hexWidth (n : Nat) : Nat :=
  if n < 0x10 then 1 else if n < 0x100 then 2 else if n < 0x1000 then 3
  else if n < 0x10000 then 4 else if n < 0x100000 then 5 else 6

/-- `%p.px`: at least `p` digits. -/
def fmtHex (p n : Nat) : WStr := hexFixed (max p (hexWidth n)) n

/-- The expansion of `json_format` or `xml_format` for a character. -/
def escapeText (fmt : OutputFormat) (c : WChar) : WStr :=
  if fmt = .json then lit "\\u" ++ fmtHex 4 c.val
  else lit "&#x" ++ fmtHex 2 c.val ++ lit ";"

/-! ## The non-printable pass -/

/-- A store to cell `i`. -/
def store (buf : WStr) (i : Int) (c : WChar) : Except Halt WStr :=
  if 0 ≤ i ∧ i < buf.length then .ok (buf.set i.toNat c) else .error (.outOfBounds "encode_string")

/-- Stores to consecutive cells. -/
def storeAll (buf : WStr) (i : Int) : WStr → Except Halt WStr
  | [] => .ok buf
  | c :: cs => do
    let buf ← store buf i c
    storeAll buf (i + 1) cs

/-- `swprintf (q, n, ..)` of an expansion: what does not fit is cut, and the result is `-1`. -/
def swprintf (buf : WStr) (q : Int) (n : Nat) (text : WStr) : Except Halt (WStr × Int) := do
  if text.length < n then
    let buf ← storeAll buf q (text ++ [0])
    return (buf, text.length)
  else
    let buf ← storeAll buf q (text.take (n - 1) ++ [0])
    return (buf, -1)

/-- The state of the second loop of `encode_string`. -/
structure EncState where
  buf : WStr
  q : Int
  ret : Int

/-- One character of the second loop of `encode_string`. -/
def encodeStep (loc : Locale) (fmt : OutputFormat) (newSize : Nat) (st : EncState) (c : WChar) :
    Except Halt EncState := do
  if loc.iswprint c then
    let buf ← store st.buf st.q c
    return { st with buf := buf, q := st.q + 1 }
  else
    let (buf, ret) ← swprintf st.buf st.q newSize (escapeText fmt c)
    return ⟨buf, st.q + ret, ret⟩

/-- `wcslen` of a buffer's string, which must end inside the buffer, and the string itself. -/
def wcsContent (buf : WStr) : Except Halt WStr :=
  if 0 ∈ buf then .ok (buf.takeWhile (· ≠ 0)) else .error (.outOfBounds "encode_string")

/-- The number of non-printable characters. -/
def nonPrintables (loc : Locale) (s : WStr) : Nat := s.countP fun c => !loc.iswprint c

/-- `new_size`: both expansions are counted with six characters. -/
def encodeSize (loc : Locale) (s : WStr) : Nat :=
  (s.length + 1 - nonPrintables loc s) + nonPrintables loc s * 6

/-- `encode_string`: the value returned and the string left in `*pstr`. -/
def encodeString (loc : Locale) (fmt : OutputFormat) (s : WStr) : Except Halt (Int × WStr) := do
  if s.length + 1 ≤ 1 then return (0, s)
  match fmt with
  | .crumb | .text => return (0, s)
  | .json | .xml =>
    let s := outputTranslate fmt s
    if nonPrintables loc s = 0 then return (0, s)
    let newSize := encodeSize loc s
    let st ← s.foldlM (encodeStep loc fmt newSize) ⟨List.replicate (1 + newSize) 0, 0, 0⟩
    let new ← wcsContent st.buf
    return (st.ret, new)

end Procenv
