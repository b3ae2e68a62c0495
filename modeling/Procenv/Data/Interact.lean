import Mathlib.Data.List.Forall2

/-!
# Programs that ask and emit

A program asks its environment questions (`C β` is the type of the questions with
answers in `β`), emits outputs, and returns or stops: `Prog` is the tree of all that it
may do, with a branch for every answer. A run follows an oracle, which may answer the
same question differently each time.

`Ends δ Q m s` says that an acceptor `δ`, started in `s`, accepts what `m` emits on
every branch on which `m` returns, and is then in a state that satisfies `Q`.

* `ends_bind`: the rule for sequences, an equivalence.
* `Keeps.forM`, `Keeps.foldlM`: a loop keeps the state that its body keeps.
* `run_bind`: a run of a sequence is the runs of its parts.
* `run_forM_ok`: when a loop returns whose rounds ask one question each.
* `Ends.run`: what holds on every branch holds of every run.
* `Ends.trace`: a run that is stopped has emitted what the acceptor accepts.
* `Sim.bind`, `Sim.foldlM`: the rules for programs that do the same with different data.
* `Runs.bind`, `Runs.foldlM`, `Runs.forM`: the rules for what a run leaves, or why it stops.
* `Ends.collected`: what is picked from the outputs of a run, from all branches.
* `Picks.append`, `Runs.picks_bind`: what an automaton picks from the outputs, piece by piece.
-/

namespace Procenv.Interact

/-- A program with questions in `C`, outputs in `ω`, stops in `ε` and results in `α`. -/
inductive Prog (C : Type → Type) (ω ε α : Type) : Type 1
  | ret (a : α)
  | stop (e : ε)
  | emit (w : ω) (k : Prog C ω ε α)
  | ask {β : Type} (c : C β) (k : β → Prog C ω ε α)

namespace Prog

variable {C : Type → Type} {ω ε α β σ : Type}

/-- One program after the other. -/
def bind (m : Prog C ω ε α) (f : α → Prog C ω ε β) : Prog C ω ε β :=
  match m with
  | ret a => f a
  | stop e => stop e
  | emit w k => emit w (k.bind f)
  | ask c k => ask c fun b => (k b).bind f

instance : Monad (Prog C ω ε) where
  pure := ret
  bind := bind

instance : MonadLift C (Prog C ω ε) where
  monadLift c := ask c ret

/-- What answers the questions: the `n`-th question is `c`. -/
abbrev Oracle (C : Type → Type) := (n : Nat) → {β : Type} → C β → β

/-- A run after `n` questions: the result, the outputs and the questions asked. -/
def run (o : Oracle C) : Nat → Prog C ω ε α → Except ε (α × List ω × Nat)
  | n, ret a => .ok (a, [], n)
  | _, stop e => .error e
  | n, emit w k => (k.run o n).map fun (a, ws, n') => (a, w :: ws, n')
  | n, ask c k => (k (o n c)).run o (n + 1)

/-- What a run emits, and what stops it, if anything does. -/
def trace (o : Oracle C) : Nat → Prog C ω ε α → List ω × Option ε
  | _, ret _ => ([], none)
  | _, stop e => ([], some e)
  | n, emit w k =>
    let (ws, stopped) := k.trace o n
    (w :: ws, stopped)
  | n, ask c k => (k (o n c)).trace o (n + 1)

/-! ## Acceptors -/

variable {δ : σ → ω → Option σ} {Q : α → σ → Prop} {s : σ}

/-- On every branch that returns, the acceptor accepts the outputs and `Q` holds at the end. -/
def Ends (δ : σ → ω → Option σ) (Q : α → σ → Prop) : Prog C ω ε α → σ → Prop
  | ret a, s => Q a s
  | stop _, _ => True
  | emit w k, s => ∃ t, δ s w = some t ∧ k.Ends δ Q t
  | ask _ k, s => ∀ b, (k b).Ends δ Q s

@[simp] theorem ends_pure {a : α} : (pure a : Prog C ω ε α).Ends δ Q s ↔ Q a s := Iff.rfl

@[simp] theorem ends_stop {e : ε} : (stop e : Prog C ω ε α).Ends δ Q s ↔ True := Iff.rfl

@[simp] theorem ends_emit {w : ω} {k : Prog C ω ε α} :
    (emit w k).Ends δ Q s ↔ ∃ t, δ s w = some t ∧ k.Ends δ Q t := Iff.rfl

@[simp] theorem ends_ret {a : α} : (ret a : Prog C ω ε α).Ends δ Q s ↔ Q a s := Iff.rfl

@[simp] theorem ends_lift {c : C α} : (liftM c : Prog C ω ε α).Ends δ Q s ↔ ∀ a, Q a s := Iff.rfl

@[simp] theorem ends_bind {m : Prog C ω ε α} {f : α → Prog C ω ε β} {Q : β → σ → Prop} :
    (m >>= f).Ends δ Q s ↔ m.Ends δ (fun a t => (f a).Ends δ Q t) s := by
  change (m.bind f).Ends δ Q s ↔ _
  induction m generalizing s with
  | ret a => rfl
  | stop e => rfl
  | emit w k ih => exact exists_congr fun t => and_congr_right fun _ => ih
  | ask c k ih => exact forall_congr' fun b => ih b

@[simp] theorem ends_ite {c : Prop} [Decidable c] {m m' : Prog C ω ε α} :
    (if c then m else m').Ends δ Q s ↔ if c then m.Ends δ Q s else m'.Ends δ Q s := by
  split <;> rfl

theorem Ends.mono {m : Prog C ω ε α} {R : α → σ → Prop} (h : m.Ends δ Q s) (hQR : ∀ a t, Q a t → R a t) :
    m.Ends δ R s := by
  induction m generalizing s with
  | ret a => exact hQR a s h
  | stop e => trivial
  | emit w k ih =>
    obtain ⟨t, ht, hk⟩ := h
    exact ⟨t, ht, ih hk⟩
  | ask c k ih => exact fun b => ih b (h b)

theorem Ends.and {m : Prog C ω ε α} {R : α → σ → Prop} (h : m.Ends δ Q s) (hR : m.Ends δ R s) :
    m.Ends δ (fun a t => Q a t ∧ R a t) s := by
  induction m generalizing s with
  | ret a => exact ⟨h, hR⟩
  | stop e => trivial
  | emit w k ih =>
    obtain ⟨t, ht, hk⟩ := h
    obtain ⟨t', ht', hk'⟩ := hR
    obtain rfl : t = t' := by simpa [ht] using ht'
    exact ⟨t, ht, ih hk hk'⟩
  | ask c k ih => exact fun b => ih b (h b) (hR b)

/-! ## What keeps the state of the acceptor -/

/-- On every branch that returns, the acceptor is back in its state. -/
def Keeps (δ : σ → ω → Option σ) (m : Prog C ω ε α) (s : σ) : Prop := m.Ends δ (fun _ t => t = s) s

theorem Keeps.ends {m : Prog C ω ε α} (h : Keeps δ m s) (hQ : ∀ a, Q a s) : m.Ends δ Q s :=
  h.mono fun a t ht => by
    subst ht
    exact hQ a

/-- Whether there is a branch that returns, or one that the acceptor refuses. -/
def MayEnd (δ : σ → ω → Option σ) (m : Prog C ω ε α) (s : σ) : Prop := ¬ m.Ends δ (fun _ _ => False) s

/-- **What keeps the state leaves the rest to do from it**, if the rest does not read the result. -/
@[simp] theorem Keeps.ends_iff {m : Prog C ω ε α} (h : Keeps δ m s) {R : σ → Prop} :
    m.Ends δ (fun _ t => R t) s ↔ (MayEnd δ m s → R s) := by
  constructor
  · intro hR hm
    refine Classical.byContradiction fun hs => hm ((h.and hR).mono ?_)
    rintro a t ⟨rfl, hRt⟩
    exact hs hRt
  · intro hR
    by_cases hm : MayEnd δ m s
    · exact h.ends fun _ => hR hm
    · exact (not_not.1 hm).mono fun _ _ hf => hf.elim

theorem Keeps.bind {m : Prog C ω ε α} {f : α → Prog C ω ε β} (h : Keeps δ m s)
    (hf : ∀ a, Keeps δ (f a) s) : Keeps δ (m >>= f) s := ends_bind.2 (h.ends hf)

/-- A loop keeps the state that its body keeps. -/
theorem Keeps.forM {xs : List β} {f : β → Prog C ω ε PUnit} (h : ∀ x ∈ xs, Keeps δ (f x) s) :
    Keeps δ (xs.forM f) s := by
  induction xs with
  | nil => exact rfl
  | cons x xs ih =>
    exact (h x List.mem_cons_self).bind fun _ => ih fun y hy => h y (List.mem_cons_of_mem _ hy)

/-- A loop with an accumulator keeps the state that its body keeps. -/
theorem Keeps.foldlM {xs : List β} {f : α → β → Prog C ω ε α} {a : α} (h : ∀ a, ∀ x ∈ xs, Keeps δ (f a x) s) :
    Keeps δ (xs.foldlM f a) s := by
  induction xs generalizing a with
  | nil => exact rfl
  | cons x xs ih =>
    rw [List.foldlM_cons]
    exact (h a x List.mem_cons_self).bind fun _ => ih fun b y hy => h b y (List.mem_cons_of_mem _ hy)

theorem Keeps.mapM {xs : List β} {f : β → Prog C ω ε α} (h : ∀ x ∈ xs, Keeps δ (f x) s) :
    Keeps δ (xs.mapM f) s := by
  unfold List.mapM
  generalize ([] : List α) = acc
  induction xs generalizing acc with
  | nil => exact rfl
  | cons x xs ih =>
    exact (h x List.mem_cons_self).bind fun _ => ih (fun y hy => h y (List.mem_cons_of_mem _ hy)) _

/-! ## Runs -/

theorem run_bind {m : Prog C ω ε α} {f : α → Prog C ω ε β} {o : Oracle C} {n : Nat} :
    (m >>= f).run o n = (m.run o n).bind fun (a, ws, n') =>
      ((f a).run o n').map fun (b, ws', n'') => (b, ws ++ ws', n'') := by
  have hid (x : Except ε (β × List ω × Nat)) : x = x.map fun (b, ws', n'') => (b, [] ++ ws', n'') := by
    cases x <;> rfl
  change (m.bind f).run o n = _
  induction m generalizing n with
  | ret a => exact hid _
  | stop e => rfl
  | emit w k ih =>
    simp only [bind, run, ih]
    cases k.run o n with
    | error e => rfl
    | ok r => cases h : (f r.1).run o r.2.2 <;> simp [Except.bind, Except.map, h]
  | ask c k ih => exact ih _

@[simp] theorem run_pure {a : α} {o : Oracle C} {n : Nat} :
    (pure a : Prog C ω ε α).run o n = .ok (a, [], n) := rfl

@[simp] theorem run_lift {c : C α} {o : Oracle C} {n : Nat} :
    (liftM c : Prog C ω ε α).run o n = .ok (o n c, [], n + 1) := rfl

/-- A run goes on with the answer. -/
theorem run_lift_bind {c : C α} {f : α → Prog C ω ε β} {o : Oracle C} {n : Nat} :
    ((liftM c : Prog C ω ε α) >>= f).run o n = (f (o n c)).run o (n + 1) := rfl

/-- **What holds on every branch holds of every run.** -/
theorem Ends.run {m : Prog C ω ε α} (h : m.Ends δ Q s) {o : Oracle C} {n n' : Nat} {a : α} {ws : List ω}
    (hrun : m.run o n = .ok (a, ws, n')) : ∃ t, ws.foldlM δ s = some t ∧ Q a t := by
  induction m generalizing s n ws with
  | ret a =>
    obtain ⟨rfl, rfl, -⟩ : a = _ ∧ [] = ws ∧ n = n' := by simpa [Prog.run] using hrun
    exact ⟨s, rfl, h⟩
  | stop e => simp [Prog.run] at hrun
  | emit w k ih =>
    obtain ⟨t, ht, hk⟩ := h
    simp only [Prog.run] at hrun
    cases hk' : k.run o n with
    | error e => simp [hk', Except.map] at hrun
    | ok r =>
      obtain ⟨rfl, rfl, rfl⟩ : r.1 = a ∧ w :: r.2.1 = ws ∧ r.2.2 = n' := by
        simpa [hk', Except.map] using hrun
      obtain ⟨u, hu, hQ⟩ := ih hk hk'
      exact ⟨u, by simp [List.foldlM_cons, ht, hu], hQ⟩
  | ask c k ih => exact ih _ (h _) hrun

/-- **A run that is stopped has emitted what the acceptor accepts**, as one that returns has. -/
theorem Ends.trace {m : Prog C ω ε α} (h : m.Ends δ Q s) (o : Oracle C) (n : Nat) :
    ∃ t, (m.trace o n).1.foldlM δ s = some t := by
  induction m generalizing s n with
  | ret a => exact ⟨s, rfl⟩
  | stop e => exact ⟨s, rfl⟩
  | emit w k ih =>
    obtain ⟨t, ht, hk⟩ := h
    obtain ⟨u, hu⟩ := ih hk n
    exact ⟨u, by rw [Prog.trace, List.foldlM_cons, ht]; exact hu⟩
  | ask c k ih => exact ih _ (h _) (n + 1)

/-- A run returns if nothing stops it. -/
theorem trace_none {m : Prog C ω ε α} {o : Oracle C} {n : Nat} {ws : List ω} :
    m.trace o n = (ws, none) ↔ ∃ a n', m.run o n = .ok (a, ws, n') := by
  induction m generalizing n ws with
  | ret b => simp [Prog.trace, Prog.run, eq_comm]
  | stop e => simp [Prog.trace, Prog.run]
  | emit w k ih =>
    rcases hk : k.trace o n with ⟨ws', stopped⟩
    simp only [Prog.trace, Prog.run, hk, Prod.mk.injEq]
    constructor
    · rintro ⟨rfl, rfl⟩
      obtain ⟨a, n', hrun⟩ := ih.1 hk
      exact ⟨a, n', by rw [hrun]; rfl⟩
    · rintro ⟨a, n', hrun⟩
      cases hk' : k.run o n with
      | error e => simp [hk', Except.map] at hrun
      | ok r =>
        obtain ⟨rfl, rfl, rfl⟩ : r.1 = a ∧ w :: r.2.1 = ws ∧ r.2.2 = n' := by
          simpa [hk', Except.map] using hrun
        obtain ⟨hws, hstopped⟩ := Prod.mk.inj (hk.symm.trans (ih.2 ⟨r.1, r.2.2, hk'⟩))
        exact ⟨congrArg (w :: ·) hws, hstopped⟩
  | ask c k ih => exact ih _

/-! ## Programs that do the same -/

/-- Both programs ask and emit the same and stop in the same way, and what they return is related. -/
inductive Sim (R : α → β → Prop) : Prog C ω ε α → Prog C ω ε β → Prop
  | ret {a : α} {b : β} : R a b → Sim R (ret a) (ret b)
  | stop (e : ε) : Sim R (stop e) (stop e)
  | emit (w : ω) {k : Prog C ω ε α} {k' : Prog C ω ε β} : Sim R k k' → Sim R (emit w k) (emit w k')
  | ask {γ : Type} (c : C γ) {k : γ → Prog C ω ε α} {k' : γ → Prog C ω ε β} :
      (∀ x, Sim R (k x) (k' x)) → Sim R (ask c k) (ask c k')

section Sim

variable {γ α' β' : Type} {R : α → β → Prop} {S : α' → β' → Prop} {m : Prog C ω ε α} {m' : Prog C ω ε β}

theorem Sim.refl (m : Prog C ω ε α) : Sim Eq m m := by
  induction m with
  | ret a => exact .ret rfl
  | stop e => exact .stop e
  | emit w k ih => exact .emit w ih
  | ask c k ih => exact .ask c ih

theorem Sim.bind {f : α → Prog C ω ε α'} {g : β → Prog C ω ε β'} (h : Sim R m m')
    (hfg : ∀ a b, R a b → Sim S (f a) (g b)) : Sim S (m >>= f) (m' >>= g) := by
  change Sim S (m.bind f) (m'.bind g)
  induction h with
  | ret hab => exact hfg _ _ hab
  | stop e => exact .stop e
  | emit w _ ih => exact .emit w ih
  | ask c _ ih => exact .ask c ih

/-- The same program before both. -/
theorem Sim.bind_left {f : α → Prog C ω ε α'} {g : α → Prog C ω ε β'} (m : Prog C ω ε α)
    (hfg : ∀ a, Sim S (f a) (g a)) : Sim S (m >>= f) (m >>= g) :=
  (Sim.refl m).bind fun a _ hab => hab ▸ hfg a

theorem Sim.foldlM {f : α → γ → Prog C ω ε α} {g : β → γ → Prog C ω ε β} {xs : List γ} {a : α}
    {b : β} (hab : R a b) (hfg : ∀ a b, ∀ x ∈ xs, R a b → Sim R (f a x) (g b x)) :
    Sim R (xs.foldlM f a) (xs.foldlM g b) := by
  induction xs generalizing a b with
  | nil => exact .ret hab
  | cons x xs ih =>
    rw [List.foldlM_cons, List.foldlM_cons]
    exact (hfg a b x List.mem_cons_self hab).bind fun _ _ hab' =>
      ih hab' fun a b y hy => hfg a b y (List.mem_cons_of_mem _ hy)

/-- The runs stop in the same way, or emit and ask the same and return related results. -/
def SameRun (R : α → β → Prop) : Except ε (α × List ω × Nat) → Except ε (β × List ω × Nat) → Prop
  | .ok (a, ws, n), .ok (b, ws', n') => R a b ∧ ws = ws' ∧ n = n'
  | .error e, .error e' => e = e'
  | _, _ => False

/-- **A run of one is a run of the other.** -/
theorem Sim.run (h : Sim R m m') (o : Oracle C) (n : Nat) : SameRun R (m.run o n) (m'.run o n) := by
  induction h generalizing n with
  | ret hab => exact ⟨hab, rfl, rfl⟩
  | stop e => rfl
  | @emit w k k' _ ih =>
    have hk := ih n
    simp only [Prog.run]
    rcases hr : k.run o n with e | ⟨a, ws, i⟩ <;>
      rcases hr' : k'.run o n with e' | ⟨b, ws', i'⟩ <;> rw [hr, hr'] at hk
    · exact hk
    · cases hk
    · cases hk
    · exact ⟨hk.1, congrArg (w :: ·) hk.2.1, hk.2.2⟩
  | ask c _ ih => exact ih _ _

theorem Sim.run_eq {m m' : Prog C ω ε α} (h : Sim Eq m m') (o : Oracle C) (n : Nat) : m.run o n = m'.run o n := by
  have hrun := h.run o n
  rcases hm : m.run o n with e | ⟨a, ws, k⟩ <;> rcases hm' : m'.run o n with e' | ⟨b, ws', k'⟩ <;>
    rw [hm, hm'] at hrun
  · exact congrArg _ hrun
  · cases hrun
  · cases hrun
  · obtain ⟨rfl, rfl, rfl⟩ := hrun
    rfl

end Sim

/-! ## What runs leave -/

/-- What a run returns and emits satisfies `P`, or what it stops with `E`. -/
def Leaves (P : α → List ω → Prop) (E : ε → Prop) : Except ε (α × List ω × Nat) → Prop
  | .ok (a, ws, _) => P a ws
  | .error e => E e

/-- Every run leaves this. -/
def Runs (o : Oracle C) (P : α → List ω → Prop) (E : ε → Prop) (m : Prog C ω ε α) : Prop :=
  ∀ n, Leaves P E (m.run o n)

section Runs

variable {γ : Type} {o : Oracle C} {P : α → List ω → Prop} {E : ε → Prop} {m : Prog C ω ε α}

theorem Leaves.mono {P' : α → List ω → Prop} {run : Except ε (α × List ω × Nat)} (h : Leaves P E run)
    (hP : ∀ a ws, P a ws → P' a ws) : Leaves P' E run := by
  rcases run with e | ⟨a, ws, n⟩
  · exact h
  · exact hP a ws h

theorem Runs.mono {P' : α → List ω → Prop} (h : Runs o P E m) (hP : ∀ a ws, P a ws → P' a ws) : Runs o P' E m :=
  fun n => (h n).mono hP

/-- What a run that returns leaves. -/
theorem Runs.returned (h : Runs o P E m) {n n' : Nat} {a : α} {ws : List ω} (hrun : m.run o n = .ok (a, ws, n')) :
    P a ws := by
  have hn := h n
  rw [hrun] at hn
  exact hn

/-- More reasons to stop. -/
theorem Runs.weaken {E' : ε → Prop} (h : Runs o P E m) (hE : ∀ e, E e → E' e) : Runs o P E' m := by
  intro n
  have hn := h n
  cases hrun : m.run o n with
  | ok r =>
    rw [hrun] at hn
    exact hn
  | error e =>
    rw [hrun] at hn
    exact hE e hn

theorem Runs.bind {f : α → Prog C ω ε β} {P' : β → List ω → Prop} (h : Runs o P E m)
    (hf : ∀ a ws, P a ws → Runs o (fun b ws' => P' b (ws ++ ws')) E (f a)) : Runs o P' E (m >>= f) := by
  intro n
  have hn := h n
  rw [run_bind]
  rcases hr : m.run o n with e | ⟨a, ws, k⟩ <;> rw [hr] at hn
  · exact hn
  · have hk := hf a ws hn k
    simp only [Except.bind]
    rcases hr' : (f a).run o k with e | ⟨b, ws', k'⟩ <;> rw [hr'] at hk
    · exact hk
    · exact hk

theorem Runs.ret {a : α} (h : P a []) : Runs o P E (Prog.ret a) := fun _ => h

theorem Runs.stop {e : ε} (h : E e) : Runs o P E (Prog.stop e) := fun _ => h

/-- A question emits nothing. -/
theorem Runs.lift (c : C α) : Runs o (fun _ ws => ws = []) E (liftM c : Prog C ω ε α) := fun _ => rfl

/-- The answer to a question. -/
theorem Runs.asked (c : C α) : Runs o (fun a ws => ws = [] ∧ ∃ n, o n c = a) E (liftM c : Prog C ω ε α) :=
  fun n => ⟨rfl, n, rfl⟩

theorem Runs.emit {w : ω} {k : Prog C ω ε α} (h : Runs o (fun a ws => P a (w :: ws)) E k) :
    Runs o P E (Prog.emit w k) := by
  intro n
  have hn := h n
  simp only [Prog.run]
  rcases hr : k.run o n with e | ⟨a, ws, n'⟩ <;> rw [hr] at hn
  · exact hn
  · exact hn

/-- **A loop that leaves some out** leaves what the other rounds leave, one after the other. -/
theorem Runs.forM_filter {xs : List β} {f : β → Prog C ω ε PUnit} {B : β → List ω → Prop} {p : β → Bool}
    (h : ∀ x ∈ xs, Runs o (fun _ ws => if p x then B x ws else ws = []) E (f x)) :
    Runs o (fun _ ws => ∃ blocks, List.Forall₂ B (xs.filter p) blocks ∧ ws = blocks.flatten) E (xs.forM f) := by
  induction xs with
  | nil => exact Runs.ret ⟨[], .nil, rfl⟩
  | cons x xs ih =>
    refine (h x List.mem_cons_self).bind fun _ ws hws => ?_
    refine (ih fun y hy => h y (List.mem_cons_of_mem _ hy)).mono fun _ ws' hws' => ?_
    obtain ⟨blocks, hblocks, rfl⟩ := hws'
    by_cases hp : p x = true
    · rw [if_pos hp] at hws
      rw [List.filter_cons_of_pos hp]
      exact ⟨ws :: blocks, .cons hws hblocks, rfl⟩
    · rw [if_neg hp] at hws
      rw [List.filter_cons_of_neg hp, hws]
      exact ⟨blocks, hblocks, rfl⟩

/-- **A loop** leaves what its rounds leave, one after the other. -/
theorem Runs.forM {xs : List β} {f : β → Prog C ω ε PUnit} {B : β → List ω → Prop}
    (h : ∀ x ∈ xs, Runs o (fun _ ws => B x ws) E (f x)) :
    Runs o (fun _ ws => ∃ blocks, List.Forall₂ B xs blocks ∧ ws = blocks.flatten) E (xs.forM f) := by
  have hall := @Runs.forM_filter C ω ε β o E xs f B (fun _ => true) h
  rwa [List.filter_true] at hall

/-- A loop whose rounds emit nothing. -/
theorem Runs.forM_silent {xs : List β} {f : β → Prog C ω ε PUnit}
    (h : ∀ x ∈ xs, Runs o (fun _ ws => ws = []) E (f x)) : Runs o (fun _ ws => ws = []) E (xs.forM f) := by
  refine (Runs.forM h).mono fun _ ws hws => ?_
  obtain ⟨blocks, hblocks, rfl⟩ := hws
  clear h
  induction hblocks with
  | nil => rfl
  | cons hx _ ih => rw [List.flatten_cons, hx, ih, List.append_nil]

/-- A loop whose rounds emit one output each. -/
theorem Runs.forM_single {xs : List β} {f : β → Prog C ω ε PUnit} {R : β → ω → Prop}
    (h : ∀ x ∈ xs, Runs o (fun _ ws => ∃ w, R x w ∧ ws = [w]) E (f x)) :
    Runs o (fun _ ws => List.Forall₂ R xs ws) E (xs.forM f) := by
  refine (Runs.forM h).mono fun _ ws hws => ?_
  obtain ⟨blocks, hblocks, rfl⟩ := hws
  clear h
  induction hblocks with
  | nil => exact .nil
  | cons hx _ ih =>
    obtain ⟨w, hw, rfl⟩ := hx
    rw [List.flatten_cons, List.singleton_append]
    exact .cons hw ih

/-- **A loop**, by an invariant of what it has done. -/
theorem Runs.foldlM {f : α → β → Prog C ω ε α} (I : List β → α → List ω → Prop) {xs done : List β} {a : α}
    {ws : List ω} (ha : I done a ws)
    (hf : ∀ first x rest a ws, xs = first ++ x :: rest → I (done ++ first) a ws →
      Runs o (fun a' ws' => I (done ++ first ++ [x]) a' (ws ++ ws')) E (f a x)) :
    Runs o (fun a' ws' => I (done ++ xs) a' (ws ++ ws')) E (xs.foldlM f a) := by
  induction xs generalizing done a ws with
  | nil =>
    intro n
    change I (done ++ []) a (ws ++ [])
    rwa [List.append_nil, List.append_nil]
  | cons x xs ih =>
    rw [List.foldlM_cons]
    have hx := hf [] x xs a ws rfl (by rwa [List.append_nil])
    refine hx.bind fun a' ws' ha' => ?_
    rw [List.append_nil] at ha'
    have hrest := ih ha' fun first y rest b vs hsplit hI => by
      have hy := hf (x :: first) y rest b vs (by rw [hsplit]; rfl)
      simp only [List.append_assoc, List.cons_append, List.nil_append] at hI hy ⊢
      exact hy hI
    simp only [List.append_assoc, List.cons_append, List.nil_append] at hrest
    exact hrest

end Runs

/-! ## What is picked from the outputs -/

section Collect

variable {γ : Type} {g : ω → Option γ}

/-- The acceptor that picks what `g` finds in the outputs. -/
def collect (g : ω → Option γ) (s : List γ) (w : ω) : Option (List γ) := some (s ++ (g w).toList)

theorem foldlM_collect (ws : List ω) (s : List γ) : ws.foldlM (collect g) s = some (s ++ ws.filterMap g) := by
  induction ws generalizing s with
  | nil => simp
  | cons w ws ih =>
    rw [List.foldlM_cons]
    change ws.foldlM (collect g) (s ++ (g w).toList) = _
    rw [ih, List.filterMap_cons]
    cases g w with
    | none => simp
    | some c => simp

@[simp] theorem ends_collect_emit {w : ω} {k : Prog C ω ε α} {s : List γ} {Q : α → List γ → Prop} :
    (emit w k).Ends (collect g) Q s ↔ k.Ends (collect g) Q (s ++ (g w).toList) := by
  simp [collect]

/-- **A run picks what every branch picks.** -/
theorem Ends.collected {m : Prog C ω ε α} {s : List γ} {Q : α → List γ → Prop} {o : Oracle C} {n n' : Nat} {a : α}
    {ws : List ω} (h : m.Ends (collect g) Q s) (hrun : m.run o n = .ok (a, ws, n')) :
    Q a (s ++ ws.filterMap g) := by
  obtain ⟨t, ht, hQ⟩ := h.run hrun
  rw [foldlM_collect] at ht
  obtain rfl := Option.some.inj ht
  exact hQ

end Collect

/-! ## What an automaton picks from the outputs -/

section Pick

variable {γ : Type} {d : σ → ω → σ × List γ} {cs cs' : List γ} {ws ws' : List ω}

/-- What the automaton picks, from the state on. -/
def picked (d : σ → ω → σ × List γ) : σ → List ω → List γ
  | _, [] => []
  | s, w :: ws => (d s w).2 ++ picked d (d s w).1 ws

/-- From every state the automaton picks this. -/
def Picks (d : σ → ω → σ × List γ) (cs : List γ) (ws : List ω) : Prop := ∀ s, picked d s ws = cs

theorem Picks.nil : Picks d [] [] := fun _ => rfl

theorem Picks.append (h : Picks d cs ws) (h' : Picks d cs' ws') : Picks d (cs ++ cs') (ws ++ ws') := by
  intro s
  rw [← h s]
  clear h
  induction ws generalizing s with
  | nil => exact h' s
  | cons w ws ih => rw [List.cons_append, picked, picked, ih, List.append_assoc]

/-- What is picked from blocks, one after the other. -/
theorem Picks.flatten {τ : Type} {A : β → τ → Prop} {f : τ → List γ} {xs : List β} {blocks : List (List ω)}
    (h : List.Forall₂ (fun x ws => ∃ y, A x y ∧ Picks d (f y) ws) xs blocks) :
    ∃ ys, List.Forall₂ A xs ys ∧ Picks d (ys.flatMap f) blocks.flatten := by
  induction h with
  | nil => exact ⟨[], .nil, Picks.nil⟩
  | cons hx _ ih =>
    obtain ⟨y, hy, hpicks⟩ := hx
    obtain ⟨ys, hys, hrest⟩ := ih
    exact ⟨y :: ys, .cons hy hys, hpicks.append hrest⟩

variable {o : Oracle C} {E : ε → Prop}

theorem Runs.picks_bind {m : Prog C ω ε α} {f : α → Prog C ω ε β} (h : Runs o (fun _ ws => Picks d cs ws) E m)
    (hf : ∀ a, Runs o (fun _ ws => Picks d cs' ws) E (f a)) :
    Runs o (fun _ ws => Picks d (cs ++ cs') ws) E (m >>= f) :=
  h.bind fun a _ hws => (hf a).mono fun _ _ hws' => hws.append hws'

/-- **A loop** picks what its rounds pick, one after the other. -/
theorem Runs.picks_forM {τ : Type} {A : β → τ → Prop} {g : τ → List γ} {xs : List β} {f : β → Prog C ω ε PUnit}
    (h : ∀ x ∈ xs, Runs o (fun _ ws => ∃ y, A x y ∧ Picks d (g y) ws) E (f x)) :
    Runs o (fun _ ws => ∃ ys, List.Forall₂ A xs ys ∧ Picks d (ys.flatMap g) ws) E (xs.forM f) := by
  refine (Runs.forM h).mono fun _ ws hws => ?_
  obtain ⟨blocks, hblocks, rfl⟩ := hws
  exact Picks.flatten hblocks

/-- A loop whose rounds pick nothing. -/
theorem Runs.picks_forM_nil {xs : List β} {f : β → Prog C ω ε PUnit}
    (h : ∀ x ∈ xs, Runs o (fun _ ws => Picks d [] ws) E (f x)) :
    Runs o (fun _ ws => Picks d [] ws) E (xs.forM f) := by
  have hloop := @Runs.picks_forM C ω ε β σ γ d o E Unit (fun _ _ => True) (fun _ => []) xs f fun x hx =>
    (h x hx).mono fun _ _ hws => ⟨(), trivial, hws⟩
  refine hloop.mono fun _ ws hws => ?_
  obtain ⟨ys, -, hpicks⟩ := hws
  rwa [List.flatMap_eq_nil_iff.2 fun _ _ => rfl] at hpicks

end Pick

end Prog

end Procenv.Interact
