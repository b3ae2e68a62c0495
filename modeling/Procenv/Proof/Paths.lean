import Procenv.Model.Paths

/-!
# Where `get_path` and `get_canonical_generic_linux` write

`get_path` looks at the last character of every element of the path, and writes into its buffers without
their sizes, or with sizes that leave no room for the terminator; `get_canonical_generic_linux` terminates a
target that fills the buffer behind it.

* `leaves_searchPath`: one path is tried for each element until there is such a file.
* `paths_iff`: **all accesses are inside exactly when no element that is tried is empty, and all texts are
  shorter than `PATH_MAX`**.
* `run_showGetPath`, `run_showGetCanonical`: the routines of the display do the same then.
-/

namespace Procenv.Paths

open Text Interact Show

variable {env : Env} {o : Prog.Oracle Call} {n : Nat} {argv0 : MbStr} {α : Type}

/-! ## What is to be tried -/

/-- The directory that an element names: a slash at its end is not part of it. -/
def dirOf (element : MbStr) : MbStr := if element.getLast? = some 47 then element.dropLast else element

/-- `dir/argv0`. -/
def candidate (argv0 element : MbStr) : MbStr := dirOf element ++ 47 :: argv0

/-- The elements up to the first one with the file in it, the question `n` being whether there is a file. -/
def triedElements (o : Prog.Oracle Call) (argv0 : MbStr) : Nat → List MbStr → List MbStr
  | _, [] => []
  | n, element :: elements =>
    element :: if (o n (Call.stat (candidate argv0 element))).isSome then []
      else triedElements o argv0 (n + 1) elements

/-- The elements of the path that `get_path` tries. -/
def pathElements (env : Env) (o : Prog.Oracle Call) (n : Nat) (argv0 : MbStr) : List MbStr :=
  if o (n + 1) Call.alloc then
    triedElements o argv0 (n + 2) (strsep 58 ((o n (Call.getenv "PATH")).getD (env.build.text "_PATH_STDPATH")))
  else []

/-- The paths to be tried: none for an absolute path, one for a relative one, and else one for each element. -/
def pathsToTry (env : Env) (o : Prog.Oracle Call) (n : Nat) (argv0 : MbStr) : List MbStr :=
  if argv0.head? = some 47 then []
  else if 47 ∈ argv0 then (o n Call.getcwd).toList.map fun cwd => cwd ++ 47 :: argv0
  else (pathElements env o n argv0).map (candidate argv0)

/-- The texts fit in their buffers, and no element that is tried is empty. -/
def PathsFit (env : Env) (o : Prog.Oracle Call) (n : Nat) (argv0 : MbStr) : Prop :=
  if argv0.head? = some 47 then True
  else if 47 ∈ argv0 then ∀ cwd, o n Call.getcwd = some cwd → cwd.length + 1 + argv0.length < pathMax
  else ∀ element ∈ pathElements env o n argv0, element ≠ [] ∧ (candidate argv0 element).length < pathMax

/-- The run was not ended by an access outside. -/
def Inside (e : Halt) : Prop := ∀ fn, e ≠ .outOfBounds fn

theorem candidate_eq (element : MbStr) :
    element ++ (if element.getLast? = some 47 then [] else [47]) ++ argv0 = candidate argv0 element := by
  unfold candidate dirOf
  by_cases hlast : element.getLast? = some 47
  · rw [if_pos hlast, if_pos hlast, List.append_nil]
    have hsplit := List.dropLast_append_getLast? 47 hlast
    conv_lhs => rw [← hsplit]
    rw [List.append_assoc]
    rfl
  · rw [if_neg hlast, if_neg hlast, List.append_assoc]
    rfl

/-! ## Accesses -/

theorem run_access_bind {fn : String} {size first count : Nat} {f : Unit → PathRun α} :
    (access fn size first count >>= f).run o n =
      if first + count ≤ size then (f ()).run o n else .error (.outOfBounds fn) := by
  unfold access
  split <;> rfl

theorem run_strncat_bind {fn : String} {dst src : MbStr} {k : Nat} {f : MbStr → PathRun α} :
    (strncat fn dst src k >>= f).run o n =
      if dst.length + (src.take k).length + 1 ≤ pathMax then (f (dst ++ src.take k)).run o n
      else .error (.outOfBounds fn) := by
  have hassoc : strncat fn dst src k >>= f = access fn pathMax 0 (dst.length + 1) >>= fun _ =>
      access fn pathMax dst.length ((src.take k).length + 1) >>= fun _ => f (dst ++ src.take k) := by
    unfold strncat access
    split <;> split <;> rfl
  rw [hassoc, run_access_bind, run_access_bind]
  by_cases hfit : dst.length + (src.take k).length + 1 ≤ pathMax
  · rw [if_pos hfit, if_pos (by omega), if_pos (by omega)]
  · rw [if_neg hfit]
    by_cases hdst : 0 + (dst.length + 1) ≤ pathMax
    · rw [if_pos hdst, if_neg (by omega)]
    · rw [if_neg hdst]

/-- A path is tried, and then it is known whether there is such a file. -/
theorem run_tryStat_bind {path : MbStr} {f : Bool → PathRun α} :
    (tryStat path >>= f).run o n = ((f (o n (Call.stat path)).isSome).run o (n + 1)).map
      fun (a, tried, n') => (a, path :: tried, n') := rfl

theorem leaves_map {P : α → List MbStr → Prop} {E : Halt → Prop} {path : MbStr}
    {run : Except Halt (α × List MbStr × Nat)} :
    Prog.Leaves P E (run.map fun (a, tried, n') => (a, path :: tried, n')) ↔
      Prog.Leaves (fun a tried => P a (path :: tried)) E run := by
  cases run <;> exact Iff.rfl

theorem run_strdup (s : MbStr) :
    (strdup s).run o n = .ok (if o n Call.alloc then some s else none, [], n + 1) := rfl

/-- What is guarded stays inside if the guard holds. -/
theorem leaves_guard {c : Prop} [Decidable c] {P : α → List MbStr → Prop} {fn : String}
    {run : Except Halt (α × List MbStr × Nat)} :
    Prog.Leaves P Inside (if c then run else .error (.outOfBounds fn)) ↔ c ∧ Prog.Leaves P Inside run := by
  by_cases hc : c
  · rw [if_pos hc]
    exact (and_iff_right hc).symm
  · rw [if_neg hc]
    exact ⟨fun hinside => absurd rfl (hinside fn), fun h => absurd h.1 hc⟩

/-! ## The path -/

/-- A round of the loop: the element is not empty and its path fits, or the run ends. -/
theorem run_searchPath_cons {element : MbStr} {elements : List MbStr} :
    (searchPath argv0 (element :: elements)).run o n =
      if element ≠ [] ∧ (candidate argv0 element).length < pathMax then
        ((if (o n (Call.stat (candidate argv0 element))).isSome then strdup (candidate argv0 element)
          else searchPath argv0 elements).run o (n + 1)).map
            fun (a, tried, n') => (a, candidate argv0 element :: tried, n')
      else .error (.outOfBounds "get_path") := by
  rw [searchPath, run_access_bind, if_pos (by omega), run_access_bind]
  by_cases hempty : element = []
  · -- the character before the element is looked at
    have hlast : ¬ sizeT (element.length + sizeMax) + 1 ≤ element.length + 1 := by
      rw [hempty]
      decide
    rw [if_neg hlast, if_neg (fun h => h.1 hempty)]
  · have hpos : 0 < element.length := List.length_pos_iff.2 hempty
    have hlast : sizeT (element.length + sizeMax) + 1 ≤ element.length + 1 := by
      unfold sizeT sizeMax
      omega
    rw [if_pos hlast]
    simp only [candidate_eq]
    rw [run_access_bind]
    by_cases hfit : (candidate argv0 element).length < pathMax
    · rw [if_pos (by omega), if_pos ⟨hempty, hfit⟩, run_tryStat_bind]
    · rw [if_neg (by omega), if_neg (fun h => hfit h.2)]

/-- **One path is tried for each element until there is such a file**, if no element is empty and the paths
fit. -/
theorem leaves_searchPath {elements : List MbStr} :
    Prog.Leaves (fun _ tried => tried = (triedElements o argv0 n elements).map (candidate argv0)) Inside
        ((searchPath argv0 elements).run o n) ↔
      ∀ element ∈ triedElements o argv0 n elements, element ≠ [] ∧
        (candidate argv0 element).length < pathMax := by
  induction elements generalizing n with
  | nil => exact ⟨fun _ _ hmem => absurd hmem List.not_mem_nil, fun _ => rfl⟩
  | cons element elements ih =>
    rw [run_searchPath_cons, leaves_guard, triedElements, List.forall_mem_cons, List.map_cons]
    refine and_congr_right fun _ => ?_
    rw [leaves_map]
    simp only [List.cons.injEq, true_and]
    cases (o n (Call.stat (candidate argv0 element))).isSome with
    | true => exact ⟨fun _ _ hmem => absurd hmem List.not_mem_nil, fun _ => rfl⟩
    | false => exact ih

/-- **A relative path** is put behind the current directory, or the run ends: the space that is left for it leaves
none for the terminator. -/
theorem run_getPath_relative {cwd : MbStr} (habsolute : argv0.head? ≠ some 47) (hrelative : (47 : UInt8) ∈ argv0)
    (hcwd : o n Call.getcwd = some cwd) :
    (getPath env argv0).run o n =
      if cwd.length + 1 + argv0.length < pathMax then
        ((if (o (n + 1) (Call.stat (cwd ++ 47 :: argv0))).isSome then strdup (cwd ++ 47 :: argv0)
          else pure none).run o (n + 2)).map fun (a, tried, n') => (a, (cwd ++ 47 :: argv0) :: tried, n')
      else .error (.outOfBounds "get_path") := by
  unfold getPath
  rw [if_neg habsolute, if_pos hrelative, run_access_bind, if_pos (by omega), Prog.run_lift_bind, hcwd]
  simp only
  rw [run_access_bind]
  by_cases hstored : cwd.length + 1 ≤ pathMax
  · have hslash : ([47] : MbStr).take (pathMax - cwd.length) = [47] := List.take_of_length_le (by simp; omega)
    rw [if_pos (by omega), run_strncat_bind, hslash, List.length_singleton]
    by_cases hroom : cwd.length + 1 + 1 ≤ pathMax
    · rw [if_pos hroom, run_strncat_bind]
      by_cases hfit : cwd.length + 1 + argv0.length < pathMax
      · have hargv0 : argv0.take (pathMax - cwd.length - 1) = argv0 := List.take_of_length_le (by omega)
        have hpath : cwd ++ [47] ++ argv0 = cwd ++ 47 :: argv0 := List.append_assoc ..
        have hlen : (cwd ++ 47 :: argv0).length = cwd.length + 1 + argv0.length := by
          rw [List.length_append, List.length_cons]
          omega
        have hwhole : (cwd ++ 47 :: argv0).take (pathMax - 1) = cwd ++ 47 :: argv0 :=
          List.take_of_length_le (by omega)
        have hcopy : (cwd ++ [47]).length + argv0.length + 1 ≤ pathMax := by
          rw [List.length_append, List.length_singleton]
          omega
        rw [if_pos hfit, hargv0, if_pos hcopy, run_access_bind, if_pos (by omega), hpath,
          hwhole, run_tryStat_bind]
      · -- the copy fills the buffer, and the terminator stands behind it
        have hcopy : ¬ (cwd ++ [47]).length + (argv0.take (pathMax - cwd.length - 1)).length + 1 ≤ pathMax := by
          rw [List.length_append, List.length_singleton, List.length_take]
          omega
        rw [if_neg hfit, if_neg hcopy]
    · rw [if_neg hroom, if_neg (by omega)]
  · rw [if_neg (by omega), if_neg (by omega)]

/-- The search in the path, once the path is copied. -/
theorem run_getPath_search (habsolute : argv0.head? ≠ some 47) (hrelative : (47 : UInt8) ∉ argv0) :
    (getPath env argv0).run o n =
      if o (n + 1) Call.alloc then
        (searchPath argv0
          (strsep 58 ((o n (Call.getenv "PATH")).getD (env.build.text "_PATH_STDPATH")))).run o (n + 2)
      else .error (.assertFailed "get_path") := by
  unfold getPath
  rw [if_neg habsolute, if_neg hrelative, Prog.run_lift_bind, Prog.run_bind, run_strdup]
  cases o (n + 1) Call.alloc with
  | false => rfl
  | true =>
    change Except.map _ ((searchPath argv0 _).run o (n + 2)) = _
    generalize (searchPath argv0 _).run o (n + 2) = run
    cases run <;> rfl

/-- **`get_path` stays inside and tries the right paths** exactly when the texts fit and no element is empty. -/
theorem leaves_getPath :
    Prog.Leaves (fun _ tried => tried = pathsToTry env o n argv0) Inside ((getPath env argv0).run o n) ↔
      PathsFit env o n argv0 := by
  unfold pathsToTry PathsFit
  by_cases habsolute : argv0.head? = some 47
  · simp only [if_pos habsolute]
    have hrun : (getPath env argv0).run o n = (strdup argv0).run o n := by rw [getPath, if_pos habsolute]
    rw [hrun, run_strdup]
    exact ⟨fun _ => trivial, fun _ => rfl⟩
  simp only [if_neg habsolute]
  by_cases hrelative : (47 : UInt8) ∈ argv0
  · simp only [if_pos hrelative]
    cases hcwd : o n Call.getcwd with
    | none =>
      have hrun : (getPath env argv0).run o n = .error (.assertFailed "get_path") := by
        unfold getPath
        rw [if_neg habsolute, if_pos hrelative, run_access_bind, if_pos (by omega), Prog.run_lift_bind, hcwd]
        rfl
      rw [hrun]
      refine ⟨fun _ cwd hnone => ?_, fun _ fn heq => ?_⟩
      · cases hnone
      · cases heq
    | some cwd =>
      simp only [Option.some.injEq, forall_eq', Option.toList_some, List.map_cons, List.map_nil]
      rw [run_getPath_relative habsolute hrelative hcwd, leaves_guard, leaves_map]
      refine ⟨fun h => h.1, fun hfit => ⟨hfit, ?_⟩⟩
      cases (o (n + 1) (Call.stat (cwd ++ 47 :: argv0))).isSome with
      | true => exact rfl
      | false => exact rfl
  · simp only [if_neg hrelative, pathElements]
    rw [run_getPath_search habsolute hrelative]
    cases o (n + 1) Call.alloc with
    | false =>
      refine ⟨fun _ _ hmem => ?_, fun _ fn heq => ?_⟩
      · cases hmem
      · cases heq
    | true => exact leaves_searchPath

/-! ## The link -/

/-- **`get_canonical_generic_linux`** stays inside if the target leaves room for the terminator. -/
theorem run_getCanonical {path : MbStr} :
    (getCanonicalGenericLinux path pathMax).run o n =
      match o n (Call.readlink path) with
      | none => .ok ((bytes "unknown", false), [], n + 1)
      | some target =>
        if target.length < pathMax then .ok ((target, true), [], n + 1)
        else .error (.outOfBounds "get_canonical_generic_linux") := by
  unfold getCanonicalGenericLinux
  rw [Prog.run_lift_bind]
  cases o n (Call.readlink path) with
  | none =>
    have hroom : 0 + ((bytes "unknown").length + 1) ≤ pathMax := by decide
    rw [run_access_bind, if_pos hroom]
    rfl
  | some target =>
    have hstored : (target.take pathMax).length ≤ pathMax := by
      rw [List.length_take]
      omega
    rw [run_access_bind, if_pos (by omega), run_access_bind, if_pos hstored, List.length_take]
    simp only
    by_cases hfit : target.length < pathMax
    · have hle := Nat.le_of_lt hfit
      rw [if_pos hfit, if_pos (by omega), Nat.min_eq_right hle, List.take_of_length_le hle, List.take_length]
      rfl
    · rw [if_neg hfit, if_neg (by omega)]

theorem leaves_getCanonical {path : MbStr} :
    Prog.Leaves (fun _ _ => True) Inside ((getCanonicalGenericLinux path pathMax).run o n) ↔
      ∀ target, o n (Call.readlink path) = some target → target.length < pathMax := by
  rw [run_getCanonical]
  cases o n (Call.readlink path) with
  | none =>
    refine ⟨fun _ target hnone => ?_, fun _ => trivial⟩
    cases hnone
  | some target =>
    simp only [Option.some.injEq, forall_eq']
    rw [leaves_guard]
    exact ⟨fun h => h.1, fun hfit => ⟨hfit, trivial⟩⟩

/-- **All accesses are inside, and the right paths are tried**, exactly when no element that is tried is empty and
all texts are shorter than `PATH_MAX`; so for the target of a link. -/
theorem paths_iff (env : Env) (o : Prog.Oracle Call) (n : Nat) (argv0 path : MbStr) :
    (Prog.Leaves (fun _ tried => tried = pathsToTry env o n argv0) Inside ((getPath env argv0).run o n) ↔
      PathsFit env o n argv0) ∧
    (Prog.Leaves (fun _ _ => True) Inside ((getCanonicalGenericLinux path pathMax).run o n) ↔
      ∀ target, o n (Call.readlink path) = some target → target.length < pathMax) :=
  ⟨leaves_getPath, leaves_getCanonical⟩

/-- A system whose path starts with an empty element, with memory but without files. -/
def emptyElement : Prog.Oracle Call := fun _ β c => match β, c with
  | _, .getenv _ => some (bytes ":/bin")
  | _, .alloc => true
  | _, .readlink _ => some (List.replicate pathMax 97)
  | _, c => c.answer

/-- **The character before an empty element is read**, and a target of `PATH_MAX` bytes is terminated behind the
buffer. -/
theorem paths_outside :
    (getPath default (bytes "procenv")).run emptyElement 0 = .error (.outOfBounds "get_path") ∧
    (getCanonicalGenericLinux (bytes "/dev/root") pathMax).run emptyElement 0 =
      .error (.outOfBounds "get_canonical_generic_linux") := by
  constructor
  · rw [run_getPath_search (by decide) (by decide)]
    have hfields : strsep 58 (bytes ":/bin") = [[], bytes "/bin"] := by decide
    change (searchPath (bytes "procenv") (strsep 58 (bytes ":/bin"))).run emptyElement 2 = _
    rw [hfields, run_searchPath_cons, if_neg (fun h => h.1 rfl)]
  · rw [run_getCanonical]
    change (if (List.replicate pathMax (97 : UInt8)).length < pathMax then _ else _) = _
    rw [List.length_replicate, if_neg (Nat.lt_irrefl _)]

/-! ## The routines of the display -/

/-- A run without the paths that were tried. -/
def untried {ω : Type} : Except Halt (α × List MbStr × Nat) → Except Halt (α × List ω × Nat) :=
  Except.map fun (a, _, n') => (a, [], n')

/-- **The search of the display** is this one, if it stays inside. -/
theorem run_showSearchPath {isFirst : Bool} {elements : List MbStr}
    (h : ∀ element ∈ triedElements o argv0 n elements, element ≠ [] ∧
      (candidate argv0 element).length < pathMax) :
    (Show.searchPath argv0 isFirst elements).run o n = untried ((searchPath argv0 elements).run o n) := by
  induction elements generalizing n isFirst with
  | nil => rfl
  | cons element elements ih =>
    rw [triedElements, List.forall_mem_cons] at h
    obtain ⟨hfits, hrest⟩ := h
    have hempty : (isFirst && decide (element = [])) = false := by simp [hfits.1]
    have hshort : decide (pathMax ≤ (candidate argv0 element).length) = false := by
      rw [decide_eq_false_iff_not]
      omega
    rw [run_searchPath_cons, if_pos hfits, Show.searchPath]
    simp only [candidate_eq, hempty, hshort]
    change Prog.run o (n + 1) (if (o n (Call.stat (candidate argv0 element))).isSome then _ else _) = _
    cases hstat : (o n (Call.stat (candidate argv0 element))).isSome with
    | true => rfl
    | false =>
      rw [hstat] at hrest
      simp only [Bool.false_eq_true, if_false] at hrest ⊢
      rw [ih hrest]
      generalize (searchPath argv0 elements).run o (n + 1) = run
      cases run <;> rfl

/-- **`get_path` of the display** is this one, if it stays inside. -/
theorem run_showGetPath (h : PathsFit env o n argv0) :
    (Show.getPath env argv0).run o n = untried ((getPath env argv0).run o n) := by
  unfold PathsFit at h
  by_cases habsolute : argv0.head? = some 47
  · rw [Show.getPath, if_pos habsolute, getPath, if_pos habsolute]
    rfl
  rw [if_neg habsolute] at h
  by_cases hrelative : (47 : UInt8) ∈ argv0
  · rw [if_pos hrelative] at h
    unfold Show.getPath
    rw [if_neg habsolute, if_pos hrelative, Prog.run_lift_bind]
    cases hcwd : o n Call.getcwd with
    | none =>
      unfold getPath
      rw [if_neg habsolute, if_pos hrelative, run_access_bind, if_pos (by omega), Prog.run_lift_bind, hcwd]
      rfl
    | some cwd =>
      have hfit := h cwd hcwd
      have hpath : cwd ++ [47] ++ argv0 = cwd ++ 47 :: argv0 := List.append_assoc ..
      have hshort : decide (pathMax ≤ (cwd ++ 47 :: argv0).length) = false := by
        rw [decide_eq_false_iff_not, List.length_append, List.length_cons]
        omega
      rw [run_getPath_relative habsolute hrelative hcwd, if_pos hfit]
      simp only [hpath, hshort]
      change Prog.run o (n + 2) (if (o (n + 1) (Call.stat (cwd ++ 47 :: argv0))).isNone then _ else _) = _
      cases o (n + 1) (Call.stat (cwd ++ 47 :: argv0)) <;> rfl
  · rw [if_neg hrelative, pathElements] at h
    rw [run_getPath_search habsolute hrelative]
    unfold Show.getPath
    rw [if_neg habsolute, if_neg hrelative, Prog.run_lift_bind, Prog.run_lift_bind]
    cases hmem : o (n + 1) Call.alloc with
    | false => rfl
    | true =>
      rw [if_pos hmem] at h
      exact run_showSearchPath h

/-- **`get_canonical_generic_linux` of the display** is this one. -/
theorem run_showGetCanonical {path : MbStr} :
    (Show.getCanonicalGenericLinux path).run o n = untried ((getCanonicalGenericLinux path pathMax).run o n) := by
  rw [run_getCanonical]
  unfold Show.getCanonicalGenericLinux
  rw [Prog.run_lift_bind]
  cases o n (Call.readlink path) with
  | none => rfl
  | some target =>
    by_cases hfit : target.length < pathMax
    · have hshort : decide (pathMax ≤ target.length) = false := decide_eq_false (by omega)
      simp only [hshort, if_pos hfit]
      rfl
    · have hlong : decide (pathMax ≤ target.length) = true := decide_eq_true (by omega)
      simp only [hlong, if_neg hfit]
      rfl

end Procenv.Paths
