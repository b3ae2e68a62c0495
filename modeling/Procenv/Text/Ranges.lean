import Procenv.Text.Basic

/-!
# Lists of numbers and ranges

A set of numbers written as in `0,2-5,9`: numbers and ranges `a-b` in decimal, separated by
commas. `readItems` reads such a text, `RangeItem.members` is what an item stands for, and
`Ranges items numbers` says that the items are the maximal ranges of the numbers.

* `readNumber_decimal`: a number is read back from its decimal digits.
* `readItems_join`: a list of items is read back from its text.
-/

namespace Procenv.Text

/-- A number, or the numbers from `first` to `last`. -/
inductive RangeItem
  | one (n : Nat)
  | range (first last : Nat)
deriving DecidableEq

namespace RangeItem

def first : RangeItem → Nat
  | one n => n
  | range first _ => first

def last : RangeItem → Nat
  | one n => n
  | range _ last => last

/-- The numbers of the item, in ascending order. -/
def members (i : RangeItem) : List Nat := List.range' i.first (i.last + 1 - i.first)

/-- A range has at least two numbers. -/
def Proper : RangeItem → Prop
  | one _ => True
  | range first last => first < last

instance : DecidablePred Proper := fun i => by cases i <;> unfold Proper <;> infer_instance

end RangeItem

/-- The items are the maximal ranges of the numbers: these in ascending order, with a gap between
one item and the next. -/
structure Ranges (items : List RangeItem) (numbers : List Nat) : Prop where
  members : items.flatMap RangeItem.members = numbers
  proper : ∀ i ∈ items, i.Proper
  apart : items.Pairwise fun i j => i.last + 1 < j.first

theorem RangeItem.first_mem {i : RangeItem} (h : i.Proper) : i.first ∈ i.members := by
  cases i with
  | one n => simp [members, first, last]
  | range a b =>
    have hab : a < b := h
    rw [members, List.mem_range'_1]
    exact ⟨Nat.le_refl a, by simp only [first, last]; omega⟩

theorem Ranges.nil_iff {items : List RangeItem} {numbers : List Nat} (h : Ranges items numbers) :
    items = [] ↔ numbers = [] := by
  rw [← h.members]
  constructor
  · rintro rfl
    rfl
  · intro hnil
    rw [List.flatMap_eq_nil_iff] at hnil
    refine List.eq_nil_iff_forall_not_mem.2 fun i hi => ?_
    have hfirst := RangeItem.first_mem (h.proper i hi)
    rw [hnil i hi] at hfirst
    cases hfirst

/-! ## Texts -/

def comma : CodePoint := 44

def hyphen : CodePoint := 45

/-- The decimal digits of a number. -/
def decimal (n : Nat) : List CodePoint := lit (toString n)

def isDigit (c : CodePoint) : Bool := 48 ≤ c.val && c.val ≤ 57

/-- The number that decimal digits stand for. -/
def readNumber (s : List CodePoint) : Option Nat :=
  if s ≠ [] ∧ s.all isDigit then some (s.foldl (fun n c => 10 * n + (c.val - 48)) 0) else none

/-- A number, or two with a hyphen in between. -/
def readItem (s : List CodePoint) : Option RangeItem :=
  match s.splitOn hyphen with
  | [n] => (readNumber n).map .one
  | [a, b] => do return .range (← readNumber a) (← readNumber b)
  | _ => none

/-- Items separated by commas. -/
def readItems (s : List CodePoint) : Option (List RangeItem) := (s.splitOn comma).mapM readItem

/-- The text of an item. -/
def RangeItem.text : RangeItem → List CodePoint
  | one n => decimal n
  | range first last => decimal first ++ hyphen :: decimal last

/-- The items separated by commas. -/
def joinItems (items : List RangeItem) : List CodePoint := [comma].intercalate (items.map RangeItem.text)

/-! ## Reading back -/

theorem decimal_eq (n : Nat) : decimal n = (Nat.toDigits 10 n).map CodePoint.ofChar := by
  simp [decimal, lit]

theorem decimal_ne_nil (n : Nat) : decimal n ≠ [] := by
  rw [decimal_eq]
  simp [Nat.toDigits_ne_nil]

theorem isDigit_of_decimal {n : Nat} {c : CodePoint} (h : c ∈ decimal n) : isDigit c = true := by
  rw [decimal_eq] at h
  obtain ⟨d, hd, rfl⟩ := List.mem_map.1 h
  have hdigit := Nat.isDigit_of_mem_toDigits (by decide) (by decide) hd
  have hbounds : 48 ≤ d.toNat ∧ d.toNat ≤ 57 := by
    simpa [Char.isDigit, UInt32.le_iff_toNat_le] using hdigit
  simp [isDigit, CodePoint.ofChar, hbounds]

theorem not_mem_decimal {n : Nat} {c : CodePoint} (h : isDigit c = false) : c ∉ decimal n := by
  intro hc
  rw [isDigit_of_decimal hc] at h
  cases h

/-- A number is read back from its digits. -/
@[simp] theorem readNumber_decimal (n : Nat) : readNumber (decimal n) = some n := by
  have hall : (decimal n).all isDigit = true := List.all_eq_true.2 fun c hc => isDigit_of_decimal hc
  rw [readNumber, if_pos ⟨decimal_ne_nil n, hall⟩, decimal_eq, List.foldl_map]
  exact congrArg some (Nat.ofDigitChars_ten_toDigits (n := n))

theorem RangeItem.comma_not_mem (i : RangeItem) : comma ∉ i.text := by
  cases i with
  | one n => exact not_mem_decimal rfl
  | range a b =>
    have ha : comma ∉ decimal a := not_mem_decimal rfl
    have hb : comma ∉ decimal b := not_mem_decimal rfl
    have hne : comma ≠ hyphen := by decide
    simp [RangeItem.text, ha, hb, hne]

/-- An item is read back from its text. -/
@[simp] theorem readItem_text (i : RangeItem) : readItem i.text = some i := by
  have hhyphen : ∀ n, hyphen ∉ decimal n := fun n => not_mem_decimal rfl
  have hsplit : ∀ ls : List (List CodePoint), (∀ l ∈ ls, hyphen ∉ l) → ls ≠ [] →
      ([hyphen].intercalate ls).splitOn hyphen = ls := fun ls => List.splitOn_intercalate hyphen
  cases i with
  | one n =>
    have hone := hsplit [decimal n] (by simp [hhyphen]) (by simp)
    rw [List.intercalate_singleton] at hone
    simp [readItem, RangeItem.text, hone]
  | range a b =>
    have htwo := hsplit [decimal a, decimal b] (by simp [hhyphen]) (by simp)
    rw [List.intercalate_cons_cons, List.intercalate_singleton] at htwo
    simp only [List.append_assoc, List.singleton_append] at htwo
    simp [readItem, RangeItem.text, htwo]

/-- **A list of items is read back from its text.** -/
theorem readItems_join {items : List RangeItem} (h : items ≠ []) : readItems (joinItems items) = some items := by
  have hsplit : (joinItems items).splitOn comma = items.map RangeItem.text := by
    apply List.splitOn_intercalate
    · simp [RangeItem.comma_not_mem]
    · simpa using h
  rw [readItems, hsplit]
  clear hsplit h
  induction items with
  | nil => rfl
  | cons i items ih => simp [ih]

/-- What cannot be read is no list of items. -/
theorem joinItems_ne {items : List RangeItem} {s : List CodePoint} (h : items ≠ []) (hs : readItems s = none) :
    joinItems items ≠ s := by
  rintro rfl
  rw [readItems_join h] at hs
  cases hs

/-- One more item at the end. -/
theorem joinItems_concat (items : List RangeItem) (i : RangeItem) :
    joinItems (items ++ [i]) = joinItems items ++ (if items = [] then [] else [comma]) ++ i.text := by
  unfold joinItems
  induction items with
  | nil => simp
  | cons j items ih =>
    cases items with
    | nil => simp [List.intercalate_cons_cons]
    | cons k items =>
      simp only [List.map_cons, List.cons_append, List.map_append, List.intercalate_cons_cons] at ih ⊢
      rw [ih]
      simp

end Procenv.Text
