import Procenv.Model.ExecArgs
import Procenv.Proof.Strsep

/-!
# The two loops over `PROCENV_EXEC`

Both scanners go from one blank to the next, so they find the same number of arguments, at the blanks at
either end and next to each other as well.

* `countLoop_eq`: the loop that counts ends, with one more than the blanks.
* `buildLoop_fields`: the other loop writes the fields that are left into the places that are left.
* `execArgs_fields`: **as many arguments are written as were counted, the terminator stays, and the
  arguments joined by blanks are the value**.
-/

namespace Procenv.ExecArgs

open Show

variable {memory : Nat → Bool} {fuel count : Nat} {e s : MbStr}

/-- The arguments in the array, and the places that are free. -/
def slots (done : List MbStr) (free : Nat) : List (Option MbStr) := done.map some ++ List.replicate free none

/-- Why the arguments are not built: a request for memory was refused. -/
def NoMemory (memory : Nat → Bool) (err : Halt) : Prop := (∃ fmt, err = .die fmt []) ∧ ∃ k, memory k = false

/-! ## The scanners -/

/-- **The loop that counts** ends, with one more for every blank. -/
theorem countLoop_eq (hfuel : s.length + 1 ≤ fuel) :
    countLoop fuel (some s) count = .ok (count + s.count 32) := by
  induction fuel generalizing s count with
  | zero => omega
  | succ fuel ih =>
    cases s with
    | nil => rfl
    | cons c s =>
      rw [List.length_cons] at hfuel
      rcases delim_cases 32 (c :: s) with ⟨hdrop, -, hblank⟩ | ⟨rest, hdrop, hsplit, hfield⟩
      · -- no blank is left: the loop ends at the next round
        obtain ⟨fuel, rfl⟩ : ∃ k, fuel = k + 1 := ⟨fuel - 1, by omega⟩
        rw [countLoop, index, hdrop, List.count_eq_zero.2 hblank]
        rfl
      · have hlen : s.length + 1 = ((c :: s).takeWhile (· ≠ 32)).length + (rest.length + 1) := by
          have h := congrArg List.length hsplit
          rwa [List.length_append, List.length_cons, List.length_cons] at h
        have hcount : (c :: s).count 32 = rest.count 32 + 1 := by
          rw [hsplit, List.count_append, List.count_eq_zero.2 hfield, List.count_cons_self, Nat.zero_add]
        have hnext : countLoop (fuel + 1) (some (c :: s)) count = countLoop fuel (some rest) (count + 1) := by
          rw [countLoop, index, hdrop]
          rfl
        rw [hnext, ih (by omega), hcount]
        congr 1
        omega

/-- What `strsep` cuts off, and what it leaves. -/
theorem strsepNext_fields (s : MbStr) : strsep 32 s = (strsepNext s).1 ::
    match (strsepNext s).2 with
    | none => []
    | some rest => strsep 32 rest := by
  rw [strsep_next, strsepNext]
  cases s.dropWhile (· ≠ 32) with
  | nil => rfl
  | cons c rest => rfl

/-- What `strsep` leaves is shorter. -/
theorem strsepNext_length {rest : MbStr} (h : (strsepNext s).2 = some rest) : rest.length < s.length := by
  rcases delim_cases 32 s with ⟨hdrop, -, -⟩ | ⟨rest', hdrop, hsplit, -⟩
  · simp only [strsepNext, hdrop] at h
    cases h
  · simp only [strsepNext, hdrop, Option.some.injEq] at h
    rw [hsplit, List.length_append, List.length_cons, h]
    omega

/-! ## The array -/

theorem slots_length {done : List MbStr} {free : Nat} : (slots done free).length = done.length + free := by
  simp [slots]

/-- The next free place is taken. -/
theorem store_slots {done : List MbStr} {free : Nat} {token : MbStr} :
    store (slots done (free + 1)) done.length token = .ok (slots (done ++ [token]) free) := by
  have hlt : done.length < (slots done (free + 1)).length := by
    rw [slots_length]
    omega
  rw [store, if_pos hlt]
  simp [slots, List.replicate_succ]

/-- **The loop that builds** writes the fields that are left into the places that are left, but for the last
one. -/
theorem buildLoop_fields {done : List MbStr} (hfuel : s.length + 2 ≤ fuel) :
    buildLoop memory fuel (some s) done.length (slots done ((strsep 32 s).length + 1)) =
        .ok (slots (done ++ strsep 32 s) 1) ∨
      ∃ err, buildLoop memory fuel (some s) done.length (slots done ((strsep 32 s).length + 1)) = .error err ∧
        NoMemory memory err := by
  induction fuel generalizing s done with
  | zero => omega
  | succ fuel ih =>
    cases hmem : memory (2 + done.length) with
    | false =>
      refine Or.inr ⟨.die "failed to allocate space for exec arg" [], ?_, ⟨_, rfl⟩, _, hmem⟩
      simp only [buildLoop, hmem]
      rfl
    | true =>
      have hnext := strsepNext_fields s
      have hround : buildLoop memory (fuel + 1) (some s) done.length (slots done ((strsep 32 s).length + 1)) =
          buildLoop memory fuel (strsepNext s).2 (done.length + 1)
            (slots (done ++ [(strsepNext s).1]) (strsep 32 s).length) := by
        simp only [buildLoop, hmem, store_slots]
        rfl
      rw [hround]
      cases hrest : (strsepNext s).2 with
      | none =>
        obtain ⟨fuel, rfl⟩ : ∃ k, fuel = k + 1 := ⟨fuel - 1, by omega⟩
        rw [hrest] at hnext
        rw [hnext]
        exact Or.inl rfl
      | some rest =>
        have hshort := strsepNext_length hrest
        have hloop := @ih rest (done ++ [(strsepNext s).1]) (by omega)
        rw [hrest] at hnext
        simp only at hnext
        rw [hnext, List.length_cons]
        rwa [List.length_append, List.length_singleton, List.append_assoc, List.singleton_append] at hloop

/-! ## The arguments -/

/-- The array in the end: the fields and the terminator. -/
theorem execArgs_slots (he : e ≠ []) (hfuel : e.length + 2 ≤ fuel) :
    execArgs memory fuel e = .ok (slots (strsep 32 e) 1) ∨
      ∃ err, execArgs memory fuel e = .error err ∧ NoMemory memory err := by
  have hcount := @countLoop_eq fuel 1 e (by omega)
  cases hcopy : memory 0 with
  | false =>
    refine Or.inr ⟨.die "failed to copy environment string" [], ?_, ⟨_, rfl⟩, _, hcopy⟩
    simp only [execArgs, hcopy]
    rfl
  | true =>
    cases harray : memory 1 with
    | false =>
      refine Or.inr ⟨.die "failed to allocate space for args copy" [], ?_, ⟨_, rfl⟩, _, harray⟩
      simp only [execArgs, hcopy, harray, if_neg he, hcount]
      rfl
    | true =>
      have hrun : execArgs memory fuel e =
        buildLoop memory fuel (some e) 0 (slots [] ((strsep 32 e).length + 1)) := by
        simp only [execArgs, hcopy, harray, if_neg he, hcount, length_strsep, Nat.add_comm 1]
        rfl
      rw [hrun]
      exact @buildLoop_fields memory fuel e [] hfuel

/-- **With memory** the arguments are those of `check_envvars`. -/
theorem execArgs_eq (he : e ≠ []) (hfuel : e.length + 2 ≤ fuel) :
    execArgs (fun _ => true) fuel e = .ok ((strsepFields e).map some ++ [none]) := by
  rcases @execArgs_slots (fun _ => true) fuel e he hfuel with hrun | ⟨err, -, -, k, hk⟩
  · rw [hrun, strsepFields_eq]
    rfl
  · cases hk

/-- **As many arguments are written as were counted, and the terminator stays.** The loop that counts ends; with
memory the arguments fill the array but for its last place, and joined by blanks they are the value. -/
theorem execArgs_fields (he : e ≠ []) (hfuel : e.length + 2 ≤ fuel) :
    ∃ count, countLoop fuel (some e) 1 = .ok count ∧
      ((∃ fields : List MbStr, execArgs memory fuel e = .ok (fields.map some ++ [none]) ∧ fields.length = count ∧
          [32].intercalate fields = e) ∨
        ∃ err, execArgs memory fuel e = .error err ∧ NoMemory memory err) := by
  refine ⟨1 + e.count 32, countLoop_eq (by omega), ?_⟩
  have hlen := @length_strsep 32 e
  rcases @execArgs_slots memory fuel e he hfuel with hrun | hfailed
  · exact Or.inl ⟨strsep 32 e, hrun, by omega, intercalate_strsep e⟩
  · exact Or.inr hfailed

theorem execArgs_fields_blanks :
    ∃ count, countLoop 8 (some (bytes " ls  ")) 1 = .ok count ∧
      ((∃ fields : List MbStr, execArgs (fun _ => true) 8 (bytes " ls  ") = .ok (fields.map some ++ [none]) ∧
          fields.length = count ∧ [32].intercalate fields = bytes " ls  ") ∨
        ∃ err, execArgs (fun _ => true) 8 (bytes " ls  ") = .error err ∧ NoMemory (fun _ => true) err) :=
  execArgs_fields (by decide) (by decide)

end Procenv.ExecArgs
