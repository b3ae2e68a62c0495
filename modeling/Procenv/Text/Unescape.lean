import Procenv.Text.Json

/-!
# What a JSON string stands for

The characters between the quotes are read one by one (`pieces`), each escape as one
piece. Two `\u` escapes in a row for a high and a low surrogate stand for one code
point (`joinPairs`); any other escaped surrogate stands for itself.
-/

namespace Procenv.Text.Json

/-- The value of a hexadecimal digit. -/
def hexVal (c : CodePoint) : Option Nat :=
  if 0x30 ≤ c.val ∧ c.val ≤ 0x39 then some (c.val - 0x30)
  else if 0x41 ≤ c.val ∧ c.val ≤ 0x46 then some (c.val - 0x37)
  else if 0x61 ≤ c.val ∧ c.val ≤ 0x66 then some (c.val - 0x57)
  else none

/-- The characters of the two-character escapes. -/
def simpleEscape (c : CodePoint) : Option CodePoint :=
  if c = 0x22 ∨ c = 0x5C ∨ c = 0x2F then some c
  else if c = 0x62 then some 0x08
  else if c = 0x66 then some 0x0C
  else if c = 0x6E then some 0x0A
  else if c = 0x72 then some 0x0D
  else if c = 0x74 then some 0x09
  else none

/-- A code point, and whether a `\u` escape wrote it. -/
structure Piece where
  escaped : Bool
  code : CodePoint
deriving DecidableEq

/-- Where a reader of a string stands: between characters, after a backslash, or before `left + 1`
digits of a `\u` escape. -/
inductive Mode
  | plain
  | escape
  | hex (left n : Nat)

/-- The pieces of a string. -/
def pieces : Mode → List CodePoint → Option (List Piece)
  | .plain, [] => some []
  | .escape, [] | .hex _ _, [] => none
  | .plain, c :: s =>
    if c = 0x5C then pieces .escape s
    else if c.val < 0x20 ∨ c = 0x22 then none
    else (pieces .plain s).map (⟨false, c⟩ :: ·)
  | .escape, c :: s =>
    if c = 0x75 then pieces (.hex 3 0) s
    else match simpleEscape c with
      | none => none
      | some x => (pieces .plain s).map (⟨false, x⟩ :: ·)
  | .hex left n, c :: s =>
    match hexVal c, left with
    | none, _ => none
    | some d, 0 => (pieces .plain s).map (⟨true, Fin.ofNat _ (n * 16 + d)⟩ :: ·)
    | some d, left + 1 => pieces (.hex left (n * 16 + d)) s

def isHigh (c : CodePoint) : Bool := 0xD800 ≤ c.val && c.val ≤ 0xDBFF

def isLow (c : CodePoint) : Bool := 0xDC00 ≤ c.val && c.val ≤ 0xDFFF

/-- Two escapes for one code point. -/
def Piece.pairs (p q : Piece) : Bool := p.escaped && q.escaped && isHigh p.code && isLow q.code

/-- The code points that pieces stand for. -/
def joinPairs : List Piece → List CodePoint
  | [] => []
  | [p] => [p.code]
  | p :: q :: ps =>
    if p.pairs q then
      Fin.ofNat _ (0x10000 + (p.code.val - 0xD800) * 0x400 + (q.code.val - 0xDC00)) :: joinPairs ps
    else p.code :: joinPairs (q :: ps)

/-- **What a JSON string stands for**, from the characters between its quotes. -/
def unescape (s : List CodePoint) : Option (List CodePoint) := (pieces .plain s).map joinPairs

/-- Without pairs every piece stands for itself. -/
theorem joinPairs_eq {ps : List Piece} (h : ps.IsChain fun p q => p.pairs q = false) :
    joinPairs ps = ps.map Piece.code := by
  induction ps with
  | nil => rfl
  | cons p ps ih =>
    cases ps with
    | nil => rfl
    | cons q ps =>
      rw [List.isChain_cons_cons] at h
      rw [joinPairs, h.1, ih h.2]
      rfl

end Procenv.Text.Json
