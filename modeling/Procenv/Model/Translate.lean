import Procenv.Model.Append
import Procenv.Model.Encode

/-!
# `output_translate` on the cells of its buffers

The first loop counts the characters that the result needs on top. If there are none the
string is copied as it is; otherwise the second loop appends to a buffer of zeros with
`wcsncat`: at every match what is between the last match and this one, and the replacement.
-/

namespace Procenv

open Text Data

/-- What one character adds to `extra`. -/
def translateExtraChar (fmt : OutputFormat) (c : WChar) : Nat :=
  ((translateTable fmt).map fun e => if c = e.fromChar then (e.toText.getD []).length - 1 else 0).sum

/-- The first loop, on the cells from `start` on. -/
def translateCount (fmt : OutputFormat) : (start : Buffer WChar) → (extra : Nat) → Except Halt Nat
  | some c :: start, extra =>
    if c = 0 then .ok extra else translateCount fmt start (extra + translateExtraChar fmt c)
  | _, _ => .error (.outOfBounds "output_translate")

/-- `wcsncat (result->buf + result->len, src, amount)`, and what it adds to the length. -/
def translateCat (result : Pstring) (src : WStr) (amount : Nat) : Except Halt Pstring := do
  let buf ← access "output_translate" (result.buf.cat 0 result.len src amount)
  return { result with buf, len := result.len + amount }

/-- The second loop, on the cells `rest` from index `p` of `buf` on: where `p` and `start` end, and the
result. -/
def translateCells (fmt : OutputFormat) (buf : Buffer WChar) :
    (rest : Buffer WChar) → (p start : Nat) → (result : Pstring) → Except Halt (Nat × Nat × Pstring)
  | some c :: rest, p, start, result =>
    if c = 0 then .ok (p, start, result)
    else
      match (translateTable fmt).find? fun e => c = e.fromChar with
      | none => translateCells fmt buf rest (p + 1) start result
      | some e => do
        let src ← access "output_translate" (Buffer.string 0 (buf.drop start))
        let result ← translateCat result src (p - start)
        let text ← access "output_translate" e.toText
        let result ← translateCat result text text.length
        translateCells fmt buf rest (p + 1) (p + 1) result
  | _, _, _, _ => .error (.outOfBounds "output_translate")

/-- The terminator in cell `len - 1`. -/
def assertTerminator (buf : Buffer WChar) (len : Nat) : Except Halt Unit := do
  let cell ← access "output_translate" (buf[len - 1]?)
  if cell = some 0 then return () else throw (.assertFailed "output_translate")

/-- `output_translate`. -/
def outputTranslatePstring (fmt : OutputFormat) (pstr : Pstring) : Except Halt Pstring := do
  if fmt = .text ∨ fmt = .crumb then throw (.assertFailed "output_translate")
  -- without a buffer there is nothing to count, and `pstring_create` has no string
  if pstr.buf = [] then throw (.assertFailed "pstring_create")
  let extra ← translateCount fmt pstr.buf 0
  if extra = 0 then return pstringCreate (← access "pstring_create" (Buffer.string 0 pstr.buf))
  let len := pstr.len + extra
  let result : Pstring := { buf := List.replicate len (some 0), len := 0, size := len * sizeofWchar }
  assertTerminator result.buf len
  let (p, start, result) ← translateCells fmt pstr.buf pstr.buf 0 0 result
  let src ← access "output_translate" (Buffer.string 0 (pstr.buf.drop start))
  let result ← translateCat result src (p - start)
  assertTerminator result.buf len
  return { result with len := result.len + 1 }

end Procenv
