import Mathlib.Logic.Basic

/-!
# Computations that may stop

Rules for `Except ε`: `Sat E P x` says of a computation that every result satisfies
`P` and every stop satisfies `E`, and `Always f E I as s` says that of each step of
the run of the actions `as` from `s`.

* `Sat.bind`, `Sat.foldlM`: the rules for sequences and loops, `ok_of_bind` the one for
  a sequence that is known to have a result.
* `Always.append`, `always_iff`: a run is one part after the other, and what always
  holds holds after every initial part of the run.
-/

namespace Procenv.Outcome

variable {ε α β σ : Type} {E : ε → Prop} {P : α → Prop}

/-- Every result satisfies `P` and every stop satisfies `E`. -/
def Sat (E : ε → Prop) (P : α → Prop) : Except ε α → Prop
  | .ok a => P a
  | .error e => E e

@[simp] theorem sat_ok {a : α} : Sat E P (.ok a) ↔ P a := Iff.rfl

@[simp] theorem sat_error {e : ε} : Sat E P (.error e) ↔ E e := Iff.rfl

@[simp] theorem sat_pure {a : α} : Sat E P (pure a) ↔ P a := Iff.rfl

theorem Sat.result {x : Except ε α} (h : Sat E P x) {a : α} (hx : x = .ok a) : P a := by
  subst hx
  exact h

theorem Sat.mono {x : Except ε α} {Q : α → Prop} (h : Sat E P x) (hPQ : ∀ a, P a → Q a) : Sat E Q x := by
  cases x with
  | ok a => exact hPQ a h
  | error e => exact h

theorem Sat.bind {x : Except ε α} {f : α → Except ε β} {Q : β → Prop} (h : Sat E P x)
    (hf : ∀ a, P a → Sat E Q (f a)) : Sat E Q (x >>= f) := by
  cases x with
  | ok a => exact hf a h
  | error e => exact h

/-- A sequence that has a result has one in between. -/
theorem ok_of_bind {x : Except ε α} {f : α → Except ε β} {b : β} (h : x >>= f = .ok b) :
    ∃ a, x = .ok a ∧ f a = .ok b := by
  cases x with
  | ok a => exact ⟨a, rfl, h⟩
  | error e => cases h

/-- The stop of a computation, if it has no result. -/
def failure : Except ε α → Option ε
  | .ok _ => none
  | .error e => some e

theorem ok_of_failure {x : Except ε α} (h : failure x = none) : ∃ a, x = .ok a := by
  cases x with
  | ok a => exact ⟨a, rfl⟩
  | error e => cases h

theorem error_of_failure {x : Except ε α} {e : ε} (h : failure x = some e) : x = .error e := by
  cases x with
  | ok a => cases h
  | error e' => rw [Option.some.inj h]

/-- A loop keeps what each of its steps keeps. -/
theorem Sat.foldlM {f : σ → α → Except ε σ} {I : σ → Prop} {as : List α} {s : σ}
    (hf : ∀ s a, a ∈ as → I s → Sat E I (f s a)) (hs : I s) : Sat E I (as.foldlM f s) := by
  induction as generalizing s with
  | nil => exact hs
  | cons a as ih =>
    rw [List.foldlM_cons]
    exact (hf s a List.mem_cons_self hs).bind fun s' hs' =>
      ih (fun t b hb => hf t b (List.mem_cons_of_mem _ hb)) hs'

/-! ## Runs -/

variable {f : σ → α → Except ε σ} {I : α → σ → Prop} {as bs : List α} {s : σ}

/-- After each action `a` of the run of `as` from `s` stands a state that satisfies `I a`, or the run
has stopped with `E`. -/
def Always (f : σ → α → Except ε σ) (E : ε → Prop) (I : α → σ → Prop) : List α → σ → Prop
  | [], _ => True
  | a :: as, s => Sat E (fun s' => I a s' ∧ Always f E I as s') (f s a)

theorem Always.append (h : Always f E I as s)
    (h' : ∀ s', as.foldlM f s = .ok s' → Always f E I bs s') : Always f E I (as ++ bs) s := by
  induction as generalizing s with
  | nil => exact h' s rfl
  | cons a as ih =>
    simp only [List.cons_append, Always, List.foldlM_cons] at h h' ⊢
    cases hs : f s a with
    | error e => simpa [hs] using h
    | ok t =>
      rw [hs] at h h'
      exact ⟨h.1, ih h.2 fun s' hs' => h' s' hs'⟩

/-- **What always holds holds after every initial part of the run.** -/
theorem always_iff :
    Always f E I as s ↔ ∀ p a, p ++ [a] <+: as → Sat E (I a) ((p ++ [a]).foldlM f s) := by
  induction as generalizing s with
  | nil => simp [Always]
  | cons b as ih =>
    constructor
    · intro h p a hp
      cases p with
      | nil =>
        obtain rfl : a = b := by simpa using hp
        simpa [List.foldlM_cons] using h.mono fun s' hs' => hs'.1
      | cons c p =>
        obtain ⟨rfl, hp'⟩ : c = b ∧ p ++ [a] <+: as := by simpa [List.cons_prefix_cons] using hp
        rw [List.cons_append, List.foldlM_cons]
        exact h.bind fun s' hs' => ih.1 hs'.2 p a hp'
    · intro h
      have h0 := h [] b (by simp)
      simp only [Always, List.nil_append, List.foldlM_cons, List.foldlM_nil, bind_pure] at h0 ⊢
      cases hs : f s b with
      | error e => simpa [hs] using h0
      | ok t =>
        refine ⟨by simpa [hs] using h0, ih.2 fun p a hp => ?_⟩
        have h1 := h (b :: p) a (by simpa [List.cons_prefix_cons] using hp)
        rw [List.cons_append, List.foldlM_cons, hs] at h1
        exact h1

end Procenv.Outcome
