import Mathlib.Logic.Basic

/-!
# Two computations that stop together

`Lockstep E R x y` relates two computations in `Except` when both have results, and `R`
relates these, or both stop, and `E` relates the stops: `x` runs on a concrete state
and `y` on an abstract one.

* `Lockstep.bind`, `Lockstep.foldlM`: the rules for sequences and loops.
* `Lockstep.mapError`: a computation that does not depend on the state.
-/

namespace Procenv.Outcome

variable {ε ε' α α' β β' σ σ' ι : Type} {E : ε → ε' → Prop} {R : α → α' → Prop} {S : β → β' → Prop}
  {I : σ → σ' → Prop} {x : Except ε α} {y : Except ε' α'}

/-- Both have related results, or both stop and the stops are related. -/
def Lockstep (E : ε → ε' → Prop) (R : α → α' → Prop) : Except ε α → Except ε' α' → Prop
  | .ok a, .ok a' => R a a'
  | .error e, .error e' => E e e'
  | _, _ => False

@[simp] theorem lockstep_ok {a : α} {a' : α'} : Lockstep E R (.ok a) (.ok a') ↔ R a a' := Iff.rfl

@[simp] theorem lockstep_pure {a : α} {a' : α'} : Lockstep E R (pure a) (pure a') ↔ R a a' := Iff.rfl

@[simp] theorem lockstep_error {e : ε} {e' : ε'} : Lockstep E R (.error e) (.error e') ↔ E e e' := Iff.rfl

/-- What the result of the concrete computation is related to. -/
theorem Lockstep.result (h : Lockstep E R x y) {a : α} (hx : x = .ok a) : ∃ a', y = .ok a' ∧ R a a' := by
  subst hx
  cases y with
  | ok a' => exact ⟨a', rfl, h⟩
  | error e' => exact h.elim

/-- What the result of the abstract computation is related to. -/
theorem Lockstep.result' (h : Lockstep E R x y) {a' : α'} (hy : y = .ok a') : ∃ a, x = .ok a ∧ R a a' := by
  subst hy
  cases x with
  | ok a => exact ⟨a, rfl, h⟩
  | error e => exact h.elim

theorem Lockstep.mono {R' : α → α' → Prop} (h : Lockstep E R x y) (hR : ∀ a a', R a a' → R' a a') :
    Lockstep E R' x y := by
  cases x with
  | ok a =>
    cases y with
    | ok a' => exact hR a a' h
    | error e' => exact h
  | error e =>
    cases y with
    | ok a' => exact h
    | error e' => exact h

/-- The result is that of the abstract computation. -/
theorem Lockstep.and_result (h : Lockstep E R x y) : Lockstep E (fun a a' => R a a' ∧ y = .ok a') x y := by
  cases x with
  | ok a =>
    cases y with
    | ok a' => exact ⟨h, rfl⟩
    | error e' => exact h
  | error e =>
    cases y with
    | ok a' => exact h
    | error e' => exact h

/-- One sequence after the other. -/
theorem Lockstep.bind {f : α → Except ε β} {g : α' → Except ε' β'} (h : Lockstep E R x y)
    (hf : ∀ a a', R a a' → Lockstep E S (f a) (g a')) : Lockstep E S (x >>= f) (y >>= g) := by
  cases x with
  | ok a =>
    cases y with
    | ok a' => exact hf a a' h
    | error e' => exact h.elim
  | error e =>
    cases y with
    | ok a' => exact h.elim
    | error e' => exact h

/-- **A loop over one list keeps the relation that its steps keep.** -/
theorem Lockstep.foldlM {f : σ → ι → Except ε σ} {g : σ' → ι → Except ε' σ'} {as : List ι} {s : σ} {s' : σ'}
    (hf : ∀ s s' a, a ∈ as → I s s' → Lockstep E I (f s a) (g s' a)) (hs : I s s') :
    Lockstep E I (as.foldlM f s) (as.foldlM g s') := by
  induction as generalizing s s' with
  | nil => exact hs
  | cons a as ih =>
    rw [List.foldlM_cons, List.foldlM_cons]
    apply (hf s s' a List.mem_cons_self hs).bind
    intro t t' ht
    exact ih (fun t t' b hb => hf t t' b (List.mem_cons_of_mem _ hb)) ht

/-- The same computation on both sides: its result is the same, and the stops are related. -/
theorem Lockstep.mapError {P : α → Prop} {z : Except ε' α} {g : ε' → ε} (hE : ∀ e, z = .error e → E (g e) e)
    (hP : ∀ a, z = .ok a → P a) : Lockstep E (fun a a' => a = a' ∧ P a) (z.mapError g) z := by
  cases z with
  | ok a => exact ⟨rfl, hP a rfl⟩
  | error e => exact hE e rfl

end Procenv.Outcome
