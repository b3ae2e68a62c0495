import Mathlib.Data.List.Nodup
import Mathlib.Logic.Function.Basic
import Mathlib.Tactic.Common

/-!
# Doubly linked lists that end

Cells with a value and two links each, by their addresses: a link may lead nowhere,
and so may an address. `Chain m p qs` says that the cells `qs` follow the cell `p`, linked
in both directions, up to one whose link leads nowhere.

* `Chain.prepend`: a cell linked in behind the first one comes first of the others.
* `Chain.unlink`: a cell that is unlinked and freed is gone, and no other.
* `Chain.tail`: the cells behind one are a chain of their own, also when it is freed.
-/

namespace Procenv.Data

/-- A cell. -/
structure Cell (β : Type) where
  value : β
  next : Option Nat
  prev : Option Nat

/-- The cells by their addresses. -/
abbrev Cells (β : Type) := Nat → Option (Cell β)

namespace Cells

variable {β : Type} (m : Cells β)

/-- Where the forward link of a cell leads. -/
def next (p : Nat) : Option (Option Nat) := (m p).map Cell.next

/-- Where its backward link leads. -/
def prev (p : Nat) : Option (Option Nat) := (m p).map Cell.prev

/-- Its value. -/
def value (p : Nat) : Option β := (m p).map Cell.value

/-- `p->next = q`. -/
def setNext (p : Nat) (q : Option Nat) : Option (Cells β) :=
  (m p).map fun c => Function.update m p (some { c with next := q })

/-- `p->prev = q`. -/
def setPrev (p : Nat) (q : Option Nat) : Option (Cells β) :=
  (m p).map fun c => Function.update m p (some { c with prev := q })

/-- A cell with a value, at a new address. -/
def alloc (p : Nat) (v : β) : Cells β := Function.update m p (some ⟨v, none, none⟩)

/-- `free`. -/
def free (p : Nat) : Option (Cells β) := (m p).map fun _ => Function.update m p none

/-- `if (q) q->prev = p`. -/
def setPrevOf (q p : Option Nat) : Option (Cells β) :=
  match q with
  | some q => m.setPrev q p
  | none => some m

/-- Link `e` in behind `head`. -/
def prepend (head e : Nat) : Option (Cells β) := do
  let m ← m.setNext e (← m.next head)
  let m ← m.setPrevOf (← m.next head) (some e)
  let m ← m.setPrev e (some head)
  m.setNext head (some e)

/-- Unlink `x` and free it. -/
def unlink (x : Nat) : Option (Cells β) := do
  let p ← (← m.prev x)
  let m ← m.setNext p (← m.next x)
  let m ← m.setPrevOf (← m.next x) (← m.prev x)
  m.free x

/-! ## What the operations leave of the links and values -/

variable {m} {m' : Cells β} {p q r x e head : Nat} {o : Option Nat} {v : β}

theorem alloc_next : (m.alloc p v).next r = if r = p then some none else m.next r := by
  by_cases hr : r = p
  · simp [alloc, next, hr]
  · simp [alloc, next, hr]

theorem alloc_prev : (m.alloc p v).prev r = if r = p then some none else m.prev r := by
  by_cases hr : r = p
  · simp [alloc, prev, hr]
  · simp [alloc, prev, hr]

theorem alloc_value : (m.alloc p v).value r = if r = p then some v else m.value r := by
  by_cases hr : r = p
  · simp [alloc, value, hr]
  · simp [alloc, value, hr]

theorem setNext_some (n : Option Nat) (h : m.next p = some o) : ∃ m', m.setNext p n = some m' ∧
    (∀ r, m'.next r = if r = p then some n else m.next r) ∧ (∀ r, m'.prev r = m.prev r) ∧
      ∀ r, m'.value r = m.value r := by
  obtain ⟨c, hc, rfl⟩ := Option.map_eq_some_iff.1 h
  refine ⟨_, by rw [setNext, hc, Option.map_some], fun r => ?_, fun r => ?_, fun r => ?_⟩
  all_goals
    by_cases hr : r = p
    · subst hr
      simp [next, prev, value, hc]
    · simp [next, prev, value, hr]

theorem setPrev_some (n : Option Nat) (h : m.prev p = some o) : ∃ m', m.setPrev p n = some m' ∧
    (∀ r, m'.next r = m.next r) ∧ (∀ r, m'.prev r = if r = p then some n else m.prev r) ∧
      ∀ r, m'.value r = m.value r := by
  obtain ⟨c, hc, rfl⟩ := Option.map_eq_some_iff.1 h
  refine ⟨_, by rw [setPrev, hc, Option.map_some], fun r => ?_, fun r => ?_, fun r => ?_⟩
  all_goals
    by_cases hr : r = p
    · subst hr
      simp [next, prev, value, hc]
    · simp [next, prev, value, hr]

theorem setPrevOf_some (n : Option Nat) {q : Option Nat} (h : ∀ p, q = some p → ∃ o, m.prev p = some o) :
    ∃ m', m.setPrevOf q n = some m' ∧
      (∀ r, m'.next r = m.next r) ∧ (∀ r, m'.prev r = if some r = q then some n else m.prev r) ∧
        ∀ r, m'.value r = m.value r := by
  cases q with
  | none => exact ⟨m, rfl, fun _ => rfl, fun _ => rfl, fun _ => rfl⟩
  | some p =>
    obtain ⟨o, ho⟩ := h p rfl
    obtain ⟨m', hm, hn, hp, hv⟩ := setPrev_some n ho
    exact ⟨m', hm, hn, by simpa using hp, hv⟩

theorem free_some (h : m.next p = some o) : ∃ m', m.free p = some m' ∧
    (∀ r, m'.next r = if r = p then none else m.next r) ∧ (∀ r, m'.prev r = if r = p then none else m.prev r) ∧
      ∀ r, m'.value r = if r = p then none else m.value r := by
  obtain ⟨c, hc, rfl⟩ := Option.map_eq_some_iff.1 h
  refine ⟨_, by rw [free, hc, Option.map_some], fun r => ?_, fun r => ?_, fun r => ?_⟩
  all_goals
    by_cases hr : r = p
    · simp [next, prev, value, hr]
    · simp [next, prev, value, hr]

/-- A cell with one link has the other. -/
theorem prev_of_next (h : m.next p = some o) : ∃ o', m.prev p = some o' := by
  obtain ⟨c, hc, -⟩ := Option.map_eq_some_iff.1 h
  exact ⟨c.prev, by rw [prev, hc, Option.map_some]⟩

end Cells

/-! ## Chains -/

variable {β : Type} {m m' : Cells β} {p q x e head : Nat} {qs rs : List Nat}

/-- The cells `qs` follow the cell `p`. -/
def Chain (m : Cells β) : Nat → List Nat → Prop
  | p, [] => m.next p = some none
  | p, q :: qs => m.next p = some (some q) ∧ m.prev q = some (some p) ∧ Chain m q qs

theorem Chain.next_eq (h : Chain m p qs) : m.next p = some qs.head? := by
  cases qs with
  | nil => exact h
  | cons q qs => exact h.1

/-- A chain depends on the links of its cells only, and not on the backward link of the first one. -/
theorem Chain.congr (h : Chain m p qs) (hn : ∀ r ∈ p :: qs, m'.next r = m.next r)
    (hp : ∀ r ∈ qs, m'.prev r = m.prev r) : Chain m' p qs := by
  induction qs generalizing p with
  | nil =>
    rw [Chain, hn p List.mem_cons_self]
    exact h
  | cons q qs ih =>
    obtain ⟨h₁, h₂, h₃⟩ := h
    refine ⟨by rw [hn p List.mem_cons_self, h₁], by rw [hp q List.mem_cons_self, h₂], ih h₃ ?_ ?_⟩
    · exact fun r hr => hn r (List.mem_cons_of_mem _ hr)
    · exact fun r hr => hp r (List.mem_cons_of_mem _ hr)

/-- The cells behind one are a chain of their own. -/
theorem Chain.tail (h : Chain m p (qs ++ x :: rs)) : Chain m x rs := by
  induction qs generalizing p with
  | nil => exact h.2.2
  | cons q qs ih => exact ih h.2.2

/-- The cell before one. -/
theorem Chain.prev_mem (h : Chain m p (qs ++ x :: rs)) : ∃ y ∈ p :: qs, m.prev x = some (some y) := by
  induction qs generalizing p with
  | nil => exact ⟨p, List.mem_cons_self, h.2.1⟩
  | cons q qs ih =>
    obtain ⟨y, hy, hprev⟩ := ih h.2.2
    exact ⟨y, List.mem_cons_of_mem _ hy, hprev⟩

/-- Every cell of a chain is there. -/
theorem Chain.next_some (h : Chain m p qs) (hq : q ∈ p :: qs) : ∃ o, m.next q = some o := by
  induction qs generalizing p with
  | nil =>
    obtain rfl : q = p := by simpa using hq
    exact ⟨none, h⟩
  | cons r qs ih =>
    rcases List.mem_cons.1 hq with rfl | hq
    · exact ⟨some r, h.1⟩
    · exact ih h.2.2 hq

/-- **A cell linked in behind the first one.** -/
theorem Chain.prepend (h : Chain m head qs) (hnd : (e :: head :: qs).Nodup) (he : ∃ o, m.next e = some o) :
    ∃ m', m.prepend head e = some m' ∧ Chain m' head (e :: qs) ∧ ∀ r, m'.value r = m.value r := by
  obtain ⟨o, he⟩ := he
  obtain ⟨hneHead, heQs⟩ : e ≠ head ∧ e ∉ qs := by
    simpa [not_or] using (List.nodup_cons.1 hnd).1
  obtain ⟨hheadQs, hqs⟩ := List.nodup_cons.1 (List.nodup_cons.1 hnd).2
  obtain ⟨m₁, h₁, hn₁, hp₁, hv₁⟩ := Cells.setNext_some qs.head? he
  -- the link of the head is read again
  have hhead₁ : m₁.next head = some qs.head? := by rw [hn₁, if_neg (Ne.symm hneHead), h.next_eq]
  have hsecond : ∀ p, qs.head? = some p → ∃ o, m₁.prev p = some o := by
    intro p hp
    cases qs with
    | nil => cases hp
    | cons q qs =>
      obtain rfl := Option.some.inj hp
      exact ⟨_, by rw [hp₁, h.2.1]⟩
  obtain ⟨m₂, h₂, hn₂, hp₂, hv₂⟩ := Cells.setPrevOf_some (some e) hsecond
  obtain ⟨o', he₂⟩ : ∃ o', m₂.prev e = some o' := by
    have hnext : m₂.next e = some qs.head? := by rw [hn₂, hn₁, if_pos rfl]
    exact Cells.prev_of_next hnext
  obtain ⟨m₃, h₃, hn₃, hp₃, hv₃⟩ := Cells.setPrev_some (some head) he₂
  have hhead₃ : m₃.next head = some qs.head? := by rw [hn₃, hn₂, hhead₁]
  obtain ⟨m₄, h₄, hn₄, hp₄, hv₄⟩ := Cells.setNext_some (some e) hhead₃
  -- the links behind the head, and behind the new cell
  have hnext : ∀ r, m₄.next r =
      if r = head then some (some e) else if r = e then some qs.head? else m.next r := by
    intro r
    rw [hn₄, hn₃, hn₂, hn₁]
  have hprev : ∀ r, m₄.prev r = if r = e then some (some head) else if some r = qs.head? then some (some e)
      else m.prev r := by
    intro r
    rw [hp₄, hp₃, hp₂, hp₁]
  refine ⟨m₄, ?_, ⟨by rw [hnext, if_pos rfl], by rw [hprev, if_pos rfl], ?_⟩, fun r => by rw [hv₄, hv₃, hv₂, hv₁]⟩
  · simp only [Cells.prepend, h.next_eq, h₁, hhead₁, h₂, h₃, h₄, bind, Option.bind]
  · cases qs with
    | nil =>
      rw [Chain, hnext, if_neg hneHead, if_pos rfl]
      rfl
    | cons q qs =>
      have hq : q ≠ e := fun h => heQs (by rw [h]; exact List.mem_cons_self)
      refine ⟨?_, ?_, h.2.2.congr (fun r hr => ?_) fun r hr => ?_⟩
      · rw [hnext, if_neg hneHead, if_pos rfl]
        rfl
      · rw [hprev, if_neg hq]
        exact if_pos rfl
      · have hrHead : r ≠ head := fun h => hheadQs (h ▸ hr)
        have hrE : r ≠ e := fun h => heQs (h ▸ hr)
        rw [hnext, if_neg hrHead, if_neg hrE]
      · have hrE : r ≠ e := fun h => heQs (h ▸ List.mem_cons_of_mem _ hr)
        have hrq : ¬ some r = (q :: qs).head? := by
          intro h
          obtain rfl : r = q := Option.some.inj h
          exact (List.nodup_cons.1 hqs).1 hr
        rw [hprev, if_neg hrE, if_neg hrq]

/-- What is left of a chain when the links skip a cell. -/
theorem Chain.skip {y : Nat} (h : Chain m p (qs ++ x :: rs)) (hnd : (p :: (qs ++ x :: rs)).Nodup)
    (hy : m.prev x = some (some y))
    (hn : ∀ r, m'.next r = if r = x then none else if r = y then some rs.head? else m.next r)
    (hp : ∀ r, m'.prev r = if r = x then none else if some r = rs.head? then some (some y) else m.prev r) :
    Chain m' p (qs ++ rs) := by
  induction qs generalizing p with
  | nil =>
    obtain rfl : p = y := by
      have hprev := h.2.1
      rw [hy] at hprev
      exact (Option.some.inj (Option.some.inj hprev)).symm
    obtain ⟨hpx, hndx⟩ := List.nodup_cons.1 hnd
    obtain ⟨hxrs, hrs⟩ := List.nodup_cons.1 hndx
    have hpne : p ≠ x := fun h => hpx (by simp [h])
    have hnext : m'.next p = some rs.head? := by rw [hn, if_neg hpne, if_pos rfl]
    cases rs with
    | nil => exact hnext
    | cons r rs =>
      have hrx : r ≠ x := fun h => hxrs (by simp [h])
      have hrest : Chain m r rs := h.2.2.2.2
      refine ⟨hnext, by rw [hp, if_neg hrx]; exact if_pos rfl, hrest.congr ?_ ?_⟩
      · intro z hz
        have hzx : z ≠ x := fun h => hxrs (h ▸ hz)
        have hzp : z ≠ p := fun h => hpx (by rw [← h]; exact List.mem_cons_of_mem _ hz)
        rw [hn, if_neg hzx, if_neg hzp]
      · intro z hz
        have hzx : z ≠ x := fun h => hxrs (h ▸ List.mem_cons_of_mem _ hz)
        have hzr : ¬ some z = (r :: rs).head? := by
          intro h
          obtain rfl : z = r := Option.some.inj h
          exact (List.nodup_cons.1 hrs).1 hz
        rw [hp, if_neg hzx, if_neg hzr]
  | cons q qs ih =>
    obtain ⟨h₁, h₂, h₃⟩ := h
    obtain ⟨hpq, hndq⟩ := List.nodup_cons.1 hnd
    obtain ⟨hqrest, -⟩ := List.nodup_cons.1 hndq
    -- the cell before `x` is not the first one
    have hpy : p ≠ y := by
      obtain ⟨y', hmem, hprev⟩ := h₃.prev_mem
      rw [hy] at hprev
      obtain rfl : y = y' := Option.some.inj (Option.some.inj hprev)
      intro h
      refine hpq ?_
      rw [h, List.cons_append]
      rcases List.mem_cons.1 hmem with hmem | hmem
      · exact hmem ▸ List.mem_cons_self
      · exact List.mem_cons_of_mem _ (List.mem_append_left _ hmem)
    have hpx : p ≠ x := fun h => hpq (by simp [h])
    have hqx : q ≠ x := fun h => hqrest (by simp [h])
    have hqrs : ¬ some q = rs.head? := by
      intro h
      refine hqrest (List.mem_append_right _ (List.mem_cons_of_mem _ ?_))
      exact List.mem_of_mem_head? h.symm
    refine ⟨?_, ?_, ih h₃ hndq⟩
    · rw [hn, if_neg hpx, if_neg hpy, h₁]
    · rw [hp, if_neg hqx, if_neg hqrs, h₂]

/-- **A cell that is unlinked and freed is gone**, and no other. -/
theorem Chain.unlink (h : Chain m head (qs ++ x :: rs)) (hnd : (head :: (qs ++ x :: rs)).Nodup) :
    ∃ m', m.unlink x = some m' ∧ Chain m' head (qs ++ rs) ∧
      ∀ r, m'.value r = if r = x then none else m.value r := by
  obtain ⟨y, hmem, hy⟩ := h.prev_mem
  have hx := h.tail.next_eq
  have hyx : y ≠ x := by
    rintro rfl
    rw [← List.cons_append, List.nodup_append] at hnd
    exact hnd.2.2 y hmem y List.mem_cons_self rfl
  obtain ⟨o, hyo⟩ : ∃ o, m.next y = some o := by
    refine h.next_some ?_
    rcases List.mem_cons.1 hmem with hmem | hmem
    · exact hmem ▸ List.mem_cons_self
    · exact List.mem_cons_of_mem _ (List.mem_append_left _ hmem)
  obtain ⟨m₁, h₁, hn₁, hp₁, hv₁⟩ := Cells.setNext_some rs.head? hyo
  have hx₁ : m₁.next x = some rs.head? := by rw [hn₁, if_neg (Ne.symm hyx), hx]
  have hxp₁ : m₁.prev x = some (some y) := by rw [hp₁, hy]
  have hsecond : ∀ p, rs.head? = some p → ∃ o, m₁.prev p = some o := by
    intro p hp
    cases rs with
    | nil => cases hp
    | cons r rs =>
      obtain rfl := Option.some.inj hp
      exact ⟨_, by rw [hp₁, h.tail.2.1]⟩
  obtain ⟨m₂, h₂, hn₂, hp₂, hv₂⟩ := Cells.setPrevOf_some (some y) hsecond
  have hx₂ : m₂.next x = some rs.head? := by rw [hn₂, hx₁]
  obtain ⟨m₃, h₃, hn₃, hp₃, hv₃⟩ := Cells.free_some hx₂
  refine ⟨m₃, ?_, h.skip hnd hy (fun r => by rw [hn₃, hn₂, hn₁]) (fun r => by rw [hp₃, hp₂, hp₁]),
    fun r => by rw [hv₃, hv₂, hv₁]⟩
  simp only [Cells.unlink, hy, hx, h₁, hx₁, hxp₁, h₂, h₃, bind, Option.bind]

end Procenv.Data
