import Procenv.Text.Unescape

/-!
# What XML character data stands for

A reference is a name between `&` and `;`: one of the five predefined entities, or
`#x` and the hexadecimal digits of a code point. `dereference` replaces the references
of a text by the characters they denote, and leaves all else as it is.

* `dereference_reference`: **a reference stands for the character it denotes**.
-/

namespace Procenv.Text.Xml

open Json

/-- The predefined entities. -/
def entities : List (List CodePoint × CodePoint) :=
  [(lit "amp", 38), (lit "lt", 60), (lit "gt", 62), (lit "quot", 34), (lit "apos", 39)]

/-- The number that hexadecimal digits stand for, after those of `n`. -/
def hexNumber : (n : Nat) → List CodePoint → Option Nat
  | n, [] => some n
  | n, c :: s =>
    match hexVal c with
    | some d => hexNumber (n * 16 + d) s
    | none => none

/-- The code point of `#x` and its digits. -/
def hexReference : List CodePoint → Option CodePoint
  | 35 :: 120 :: c :: s =>
    match hexNumber 0 (c :: s) with
    | some n => if h : n < 0x110000 then some ⟨n, h⟩ else none
    | none => none
  | _ => none

/-- The character that the name of a reference denotes. -/
def denoted (name : List CodePoint) : Option CodePoint := (entities.lookup name).or (hexReference name)

/-- Replace the references of a text. The name is what has been read since the last `&`, if
it may be one. -/
def dereferenceFrom : (name : Option (List CodePoint)) → List CodePoint → List CodePoint
  | none, [] => []
  | some name, [] => 38 :: name
  | none, c :: s => if c = 38 then dereferenceFrom (some []) s else c :: dereferenceFrom none s
  | some name, c :: s =>
    if c = 59 then
      match denoted name with
      | some d => d :: dereferenceFrom none s
      | none => 38 :: name ++ 59 :: dereferenceFrom none s
    else if c = 38 then 38 :: name ++ dereferenceFrom (some []) s
    else dereferenceFrom (some (name ++ [c])) s

/-- The text with its references replaced. -/
def dereference (s : List CodePoint) : List CodePoint := dereferenceFrom none s

theorem dereference_plain {c : CodePoint} (hc : c ≠ 38) (s : List CodePoint) :
    dereference (c :: s) = c :: dereference s := by
  simp [dereference, dereferenceFrom, hc]

theorem dereferenceFrom_name {cs : List CodePoint} (hcs : ∀ c ∈ cs, c ≠ 59 ∧ c ≠ 38) (name s : List CodePoint) :
    dereferenceFrom (some name) (cs ++ s) = dereferenceFrom (some (name ++ cs)) s := by
  induction cs generalizing name with
  | nil => simp
  | cons c cs ih =>
    obtain ⟨h1, h2⟩ := hcs c (by simp)
    rw [List.cons_append, dereferenceFrom, if_neg h1, if_neg h2, ih (fun d hd => hcs d (by simp [hd]))]
    simp

/-- **A reference stands for the character it denotes.** -/
theorem dereference_reference {name : List CodePoint} {d : CodePoint} (hname : ∀ c ∈ name, c ≠ 59 ∧ c ≠ 38)
    (hd : denoted name = some d) (s : List CodePoint) :
    dereference (38 :: (name ++ 59 :: s)) = d :: dereference s := by
  rw [dereference, dereferenceFrom, if_pos rfl, dereferenceFrom_name hname, List.nil_append, dereferenceFrom,
    if_pos rfl, hd]
  rfl

end Procenv.Text.Xml
