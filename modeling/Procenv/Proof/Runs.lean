import Procenv.Model.Display

/-!
# What the helper routines leave

The runs of the routines that all displays use: what they emit, and what they stop with.
-/

namespace Procenv

open Text Interact Show

variable {env : Env} {o : Prog.Oracle Call} {E : Halt → Prop}

/-- `%s`: the text, or a run that does not go on. -/
theorem runs_str {text : MbStr} (hE : env.locale.mbsrtowcs text = none → E .hang) :
    Prog.Runs o (fun w ws => ws = [] ∧ env.locale.mbsrtowcs text = some w) E (str env text) := by
  unfold str expandStr
  cases htext : env.locale.mbsrtowcs text with
  | none => exact Prog.Runs.stop (hE htext)
  | some w => exact Prog.Runs.ret ⟨rfl, rfl⟩

theorem runs_assert {fn : String} {c : Bool} (hE : c = false → E (.assertFailed fn)) :
    Prog.Runs o (fun _ ws => ws = []) E (Show.assert fn c) := by
  unfold Show.assert
  cases c with
  | false => exact Prog.Runs.stop (hE rfl)
  | true => exact Prog.Runs.ret rfl

/-- Memory that is taken for granted. -/
theorem runs_assertAlloc {fn : String} (hE : (∃ n, o n Call.alloc = false) → E (.assertFailed fn)) :
    Prog.Runs o (fun _ ws => ws = []) E (do Show.assert fn (← Call.alloc)) := by
  refine (Prog.Runs.asked _).bind fun memory ws hmemory => ?_
  obtain ⟨rfl, n, hmemory⟩ := hmemory
  refine runs_assert fun hrefused => hE ⟨n, ?_⟩
  rw [hmemory, hrefused]

/-- **A routine that emits nothing** returns what some run of it returns. -/
theorem runs_returned {α : Type} {m : Show α} (h : Prog.Runs o (fun _ ws => ws = []) E m) :
    Prog.Runs o (fun a ws => ws = [] ∧ ∃ n n', m.run o n = .ok (a, [], n')) E m := by
  intro n
  have hn := h n
  rcases hr : m.run o n with e | ⟨a, ws, n'⟩ <;> rw [hr] at hn
  · exact hn
  · obtain rfl : ws = [] := hn
    exact ⟨rfl, n, n', hr⟩

/-- What a condition guards is left, or nothing. -/
theorem runs_when {c : Bool} {m : Show Unit} {P : List Event → Prop} (hnil : P [])
    (h : c = true → Prog.Runs o (fun _ ws => P ws) E m) : Prog.Runs o (fun _ ws => P ws) E (when c m) := by
  unfold when
  cases c with
  | false => exact Prog.Runs.ret hnil
  | true => exact h rfl

/-- Taking memory emits nothing, and dies if it is refused. -/
theorem runs_allocOrDie {message : String} (hE : (∃ n, o n Call.alloc = false) → E (.die message [])) :
    Prog.Runs o (fun _ ws => ws = []) E (allocOrDie message) := by
  unfold allocOrDie
  refine (Prog.Runs.asked _).bind fun memory ws hmemory => ?_
  obtain ⟨rfl, n, rfl⟩ := hmemory
  exact runs_when rfl fun hrefused => Prog.Runs.stop (hE ⟨n, by simpa using hrefused⟩)

end Procenv
