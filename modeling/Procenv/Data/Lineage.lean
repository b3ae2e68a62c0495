import Mathlib.Data.Fintype.Card
import Mathlib.Data.Set.Finite.Basic
import Mathlib.Data.List.Nodup
import Mathlib.Logic.Relation

/-!
# Lines of ancestors in a table

The entries of a table have a key and the key of a parent, which may be missing. The line of a key
(`Lineage`) goes from its entry to the entry of the parent and on, and ends at the last one that is in
the table.

* `Lineage.unique`: with different keys there is one line at most.
* `Acyclic.lineage`: without cycles there is one.
* `Lineage.perm`: it does not depend on the order of the table.
-/

namespace Procenv.Data

variable {α κ : Type} {key parent : α → κ} {t t' : List α} {k k' : κ} {l l' : List α}

/-- A key of the table and the key of its parent. -/
def ParentOf (key parent : α → κ) (t : List α) (k k' : κ) : Prop := ∃ e ∈ t, key e = k ∧ parent e = k'

/-- No key is among its own ancestors. -/
def Acyclic (key parent : α → κ) (t : List α) : Prop := ∀ k, ¬ Relation.TransGen (ParentOf key parent t) k k

/-- The entry of a key, the entry of its parent, and so on up to the last one in the table. -/
inductive Lineage (key parent : α → κ) (t : List α) : κ → List α → Prop
  | missing {k : κ} : (∀ e ∈ t, key e ≠ k) → Lineage key parent t k []
  | entry {e : α} {l : List α} : e ∈ t → Lineage key parent t (parent e) l → Lineage key parent t (key e) (e :: l)

/-- Different entries have different keys. -/
theorem eq_of_key_eq (hnd : (t.map key).Nodup) {e e' : α} (he : e ∈ t) (he' : e' ∈ t) (heq : key e = key e') :
    e = e' := List.inj_on_of_nodup_map hnd he he' heq

theorem Lineage.subset (h : Lineage key parent t k l) : l ⊆ t := by
  induction h with
  | missing _ => exact List.nil_subset _
  | entry he _ ih => exact List.cons_subset.2 ⟨he, ih⟩

/-- The line of a key that is not in the table. -/
theorem Lineage.eq_nil (h : Lineage key parent t k l) (hk : ∀ e ∈ t, key e ≠ k) : l = [] := by
  cases h with
  | missing _ => rfl
  | entry he _ => exact absurd rfl (hk _ he)

/-- The line of a key with an entry. -/
theorem Lineage.eq_cons (hnd : (t.map key).Nodup) {e : α} (he : e ∈ t) (h : Lineage key parent t (key e) l) :
    ∃ l', l = e :: l' ∧ Lineage key parent t (parent e) l' := by
  generalize hk : key e = k at h
  cases h with
  | missing hmissing => exact absurd hk (hmissing e he)
  | entry he' h =>
    obtain rfl := eq_of_key_eq hnd he he' hk
    exact ⟨_, rfl, h⟩

/-- **There is one line of a key at most.** -/
theorem Lineage.unique (hnd : (t.map key).Nodup) (h : Lineage key parent t k l) (h' : Lineage key parent t k l') :
    l = l' := by
  induction h generalizing l' with
  | missing hmissing => exact (h'.eq_nil hmissing).symm
  | entry he _ ih =>
    obtain ⟨l'', rfl, h''⟩ := h'.eq_cons hnd he
    rw [ih h'']

/-- **The order of the table does not matter.** -/
theorem Lineage.perm (h : Lineage key parent t k l) (hperm : t.Perm t') : Lineage key parent t' k l := by
  induction h with
  | missing hmissing => exact .missing fun e he => hmissing e (hperm.mem_iff.2 he)
  | entry he _ ih => exact .entry (hperm.mem_iff.1 he) ih

/-- A rank that grows towards the descendants rules out cycles. -/
theorem acyclic_of_rank (rank : κ → Nat) (hrank : ∀ e ∈ t, rank (parent e) < rank (key e)) :
    Acyclic key parent t := by
  have hlt : ∀ k k', Relation.TransGen (ParentOf key parent t) k k' → rank k' < rank k := by
    intro k k' h
    induction h with
    | single h =>
      obtain ⟨e, he, rfl, rfl⟩ := h
      exact hrank e he
    | tail _ h ih =>
      obtain ⟨e, he, rfl, rfl⟩ := h
      exact lt_trans (hrank e he) ih
  exact fun k h => lt_irrefl _ (hlt k k h)

/-- **Without cycles every key has a line.** -/
theorem Acyclic.lineage (h : Acyclic key parent t) (k : κ) : ∃ l, Lineage key parent t k l := by
  classical
  -- the ancestors of an entry are well founded, as the table is finite
  let above (a b : {e // e ∈ t}) : Prop := Relation.TransGen (ParentOf key parent t) (key b.1) (key a.1)
  have htrans : IsTrans _ above := ⟨fun _ _ _ hab hbc => hbc.trans hab⟩
  have hirrefl : Std.Irrefl above := ⟨fun a ha => h _ ha⟩
  have hfinite : Finite {e // e ∈ t} := List.finite_toSet t
  have hwf : WellFounded above := Finite.wellFounded_of_trans_of_irrefl above
  have hentry : ∀ e : {e // e ∈ t}, ∃ l, Lineage key parent t (key e.1) l := by
    intro e
    induction e using hwf.induction with
    | h e ih =>
      by_cases hparent : ∃ p ∈ t, key p = parent e.1
      · obtain ⟨p, hp, hkey⟩ := hparent
        obtain ⟨l, hl⟩ := ih ⟨p, hp⟩ (.single ⟨e.1, e.2, rfl, hkey.symm⟩)
        exact ⟨e.1 :: l, .entry e.2 (hkey ▸ hl)⟩
      · have hmissing : ∀ p ∈ t, key p ≠ parent e.1 := fun p hp hkey => hparent ⟨p, hp, hkey⟩
        exact ⟨[e.1], .entry e.2 (.missing hmissing)⟩
  by_cases hk : ∃ e ∈ t, key e = k
  · obtain ⟨e, he, rfl⟩ := hk
    exact hentry ⟨e, he⟩
  · exact ⟨[], .missing fun e he hkey => hk ⟨e, he, hkey⟩⟩

end Procenv.Data
