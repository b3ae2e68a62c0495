import Procenv.Model.Mounts

/-!
# The option string of a mount

The first pass counts the names that share a bit with the flags and their characters; the second one counts
down while it appends them, and writes a comma as long as more than one is left. What is still to be
written when `m` bytes are left is `m` bytes long before every row.

* `sizeLoop_eq`: what the first pass counts.
* `buildLoop_eq`: what the second pass leaves.
* `getMountOpts_joined`: **the string is the names joined by commas, and fills its memory**.
* `joinMountOpts_eq`: it is the string of the display model.
-/

namespace Procenv.MountOpts

open Data

variable {flags : Nat} {opts : List ProcenvMap64} {rest : List (Option ProcenvMap64)} {t : MbStr}

/-- The names of the options that share a bit with the flags, in table order. -/
def optNames (flags : Nat) (opts : List ProcenvMap64) : List MbStr :=
  (opts.filter fun opt => flags &&& opt.num ≠ 0).map ProcenvMap64.name

/-- The names joined by commas. -/
def joined (names : List MbStr) : MbStr := (bytes ",").intercalate names

/-- What a row adds to the names. -/
theorem optNames_cons (opt : ProcenvMap64) :
    optNames flags (opt :: opts) =
      if flags &&& opt.num ≠ 0 then opt.name :: optNames flags opts else optNames flags opts := by
  by_cases hbit : flags &&& opt.num ≠ 0
  · rw [if_pos hbit, optNames, List.filter_cons_of_pos (by simpa using hbit)]
    rfl
  · rw [if_neg hbit, optNames, List.filter_cons_of_neg (by simpa using hbit)]
    rfl

/-- Without flags there are no names. -/
theorem optNames_zero (opts : List ProcenvMap64) : optNames 0 opts = [] := by
  induction opts with
  | nil => rfl
  | cons opt opts ih => rw [optNames_cons, if_neg (by simp), ih]

/-- What is written for a name when `count` are left. -/
def nameText (name : MbStr) (count : Int) : MbStr := name ++ if 1 < count then bytes "," else []

theorem joined_cons (name : MbStr) (names : List MbStr) :
    joined (name :: names) = nameText name (name :: names).length ++ joined names := by
  cases names with
  | nil => simp [joined, nameText]
  | cons name' names =>
    have hmore : 1 < ((name :: name' :: names).length : Int) := by
      simp only [List.length_cons]
      omega
    rw [joined, List.intercalate_cons_cons, nameText, if_pos hmore]
    rfl

theorem zero_notMem_nameText {name : MbStr} {count : Int} (hname : 0 ∉ name) : 0 ∉ nameText name count := by
  have hcomma : (0 : UInt8) ∉ bytes "," := by decide
  rw [nameText, List.mem_append, not_or]
  refine ⟨hname, ?_⟩
  split
  · exact hcomma
  · simp

theorem zero_notMem_joined (opts : List ProcenvMap64) : 0 ∉ joined (optNames flags opts) := by
  induction opts with
  | nil => simp [optNames, joined]
  | cons opt opts ih =>
    rw [optNames_cons]
    split
    · rw [joined_cons, List.mem_append, not_or]
      exact ⟨zero_notMem_nameText opt.noZero, ih⟩
    · exact ih

/-- Joined, the names are as long as they are together with a comma between each two. -/
theorem length_joined (names : List MbStr) :
    (joined names).length = (names.map List.length).sum + (names.length - 1) := by
  induction names with
  | nil => rfl
  | cons name names ih =>
    have hcomma : (bytes ",").length = 1 := rfl
    rw [joined_cons, List.length_append, ih, nameText, List.length_append, List.map_cons, List.sum_cons]
    simp only [List.length_cons]
    split
    · omega
    · rw [List.length_nil]
      omega

/-! ## The two passes -/

/-- **What the first pass counts.** -/
theorem sizeLoop_eq (count : Int) (len : Nat) :
    sizeLoop flags (opts.map some ++ none :: rest) count len =
      .ok (count + (optNames flags opts).length, len + ((optNames flags opts).map List.length).sum) := by
  induction opts generalizing count len with
  | nil => simp [sizeLoop, optNames]
  | cons opt opts ih =>
    rw [List.map_cons, List.cons_append, sizeLoop, optNames_cons]
    by_cases hbit : flags &&& opt.num ≠ 0
    · rw [if_pos hbit, if_pos hbit, ih, List.map_cons, List.sum_cons, List.length_cons]
      congr 2
      · push_cast
        omega
      · omega
    · rw [if_neg hbit, if_neg hbit, ih]

/-- The memory holds a text, and `m` more bytes fit. -/
def room (t : MbStr) (m : Nat) : Buffer UInt8 := t.map some ++ some 0 :: List.replicate m (some 0)

/-- Appending takes some of the room. -/
theorem strcat_room {src : MbStr} {m : Nat} (ht : 0 ∉ t) (h : src.length ≤ m) :
    strcat (room t m) src = .ok (room (t ++ src) (m - src.length)) := by
  have hcat := @Buffer.cat_string UInt8 0 t src src.length _ ht (List.replicate m (some 0)) (by simpa using h)
  rw [List.take_length, List.drop_replicate] at hcat
  rw [strcat, room, hcat]
  rfl

/-- A name and its comma, if more than one name is left. -/
theorem addName_room {name : MbStr} {count : Int} {m : Nat} (ht : 0 ∉ t) (hname : 0 ∉ name)
    (h : (nameText name count).length ≤ m) :
    addName (room t m) name count = .ok (room (t ++ nameText name count) (m - (nameText name count).length)) := by
  have htn : 0 ∉ t ++ name := by
    rw [List.mem_append, not_or]
    exact ⟨ht, hname⟩
  rw [nameText, List.length_append] at h
  rw [addName, strcat_room ht (by omega), nameText]
  split
  · rename_i hcount
    rw [if_pos hcount] at h
    show strcat _ _ = _
    rw [strcat_room htn (by omega), List.append_assoc, List.length_append, Nat.sub_sub]
  · rw [List.append_nil]
    rfl

/-- **What the second pass leaves** of memory with room for the names that are left. -/
theorem buildLoop_eq {m : Nat} (ht : 0 ∉ t) (h : (joined (optNames flags opts)).length ≤ m) :
    buildLoop flags (opts.map some ++ none :: rest) (optNames flags opts).length (room t m) =
      .ok (room (t ++ joined (optNames flags opts)) (m - (joined (optNames flags opts)).length)) := by
  induction opts generalizing t m with
  | nil => simp [buildLoop, optNames, joined]
  | cons opt opts ih =>
    rw [optNames_cons] at h ⊢
    rw [List.map_cons, List.cons_append, buildLoop]
    by_cases hbit : flags &&& opt.num ≠ 0
    · rw [if_pos hbit] at h ⊢
      rw [joined_cons, List.length_append] at h
      have htext : 0 ∉ t ++ nameText opt.name (opt.name :: optNames flags opts).length := by
        rw [List.mem_append, not_or]
        exact ⟨ht, zero_notMem_nameText opt.noZero⟩
      have hcount : (((opt.name :: optNames flags opts).length : Nat) : Int) - 1 =
        (optNames flags opts).length := by
        rw [List.length_cons]
        omega
      rw [if_pos hbit, addName_room ht opt.noZero (by omega), hcount]
      show buildLoop flags _ _ _ = _
      rw [ih htext (by omega), joined_cons, List.append_assoc, List.length_append, Nat.sub_sub]
    · rw [if_neg hbit] at h ⊢
      rw [if_neg hbit]
      exact ih ht h

/-- The memory is the names joined by commas, and the terminator. -/
theorem totalSize_eq (names : List MbStr) :
    totalSize (0 + (names.length : Int)) (0 + (names.map List.length).sum) = (joined names).length + 1 := by
  rw [totalSize, length_joined]
  split <;> omega

/-- The memory holds the names joined by commas, and the terminator. -/
theorem getMountOpts_eq (flags : Nat) (opts : List ProcenvMap64) (rest : List (Option ProcenvMap64)) :
    getMountOpts flags (opts.map some ++ none :: rest) = .ok (room (joined (optNames flags opts)) 0) := by
  by_cases hflags : flags = 0
  · rw [getMountOpts, if_pos hflags, hflags, optNames_zero]
    rfl
  · have hstart : (List.replicate ((joined (optNames flags opts)).length + 1) (some 0) : Buffer UInt8) =
        room [] (joined (optNames flags opts)).length := List.replicate_succ
    rw [getMountOpts, if_neg hflags, sizeLoop_eq]
    show buildLoop flags _ _ _ = _
    rw [totalSize_eq, hstart, Int.zero_add, buildLoop_eq (by simp) (Nat.le_refl _), List.nil_append, Nat.sub_self]

/-- **The option string** is the names of the options that share a bit with the flags, joined by commas. With
its terminator it is as long as the memory allocated for it. -/
theorem getMountOpts_joined (flags : Nat) (opts : List ProcenvMap64) (rest : List (Option ProcenvMap64)) :
    ∃ str : Buffer UInt8, getMountOpts flags (opts.map some ++ none :: rest) = .ok str ∧
      str.string 0 = some ((bytes ",").intercalate (optNames flags opts)) ∧
      (flags ≠ 0 → ((bytes ",").intercalate (optNames flags opts)).length + 1 = str.length) := by
  refine ⟨_, getMountOpts_eq flags opts rest, Buffer.string_map (zero_notMem_joined opts) _, ?_⟩
  intro _
  simp [room, joined]

/-! ## The display model -/

/-- What the display model joins. -/
theorem joinMountOpts_eq (opts : List (String × Nat)) (text : MbStr) :
    Show.joinMountOpts flags opts (opts.countP fun e => flags &&& e.2 ≠ 0) text =
      text ++ joined ((opts.filter fun e => flags &&& e.2 ≠ 0).map fun e => bytes e.1) := by
  induction opts generalizing text with
  | nil => simp [Show.joinMountOpts, joined]
  | cons e opts ih =>
    rw [Show.joinMountOpts]
    by_cases hbit : flags &&& e.2 ≠ 0
    · rw [if_pos hbit, List.countP_cons_of_pos (by simpa using hbit),
        List.filter_cons_of_pos (by simpa using hbit), Nat.add_sub_cancel, ih, List.map_cons, joined_cons,
        nameText, List.append_assoc, List.append_assoc, List.append_assoc]
      congr 3
      rw [List.length_cons, List.length_map, ← List.countP_eq_length_filter]
      congr 1
      simp only [eq_iff_iff]
      omega
    · rw [if_neg hbit, List.countP_cons_of_neg (by simpa using hbit),
        List.filter_cons_of_neg (by simpa using hbit), ih]

/-- **The option string is that of the display model**, for a table with its names and masks. -/
theorem getMountOpts_display {opts : List (String × Nat)} {rows : List ProcenvMap64}
    (hrows : rows.map (fun row => (row.name, row.num)) = opts.map fun e => (bytes e.1, e.2)) :
    ∃ str : Buffer UInt8, getMountOpts flags (rows.map some ++ none :: rest) = .ok str ∧
      str.string 0 = some (Show.joinMountOpts flags opts (opts.countP fun e => flags &&& e.2 ≠ 0) []) := by
  have hnames : optNames flags rows = (opts.filter fun e => flags &&& e.2 ≠ 0).map fun e => bytes e.1 := by
    have hfilter := congrArg (fun l => (l.filter fun p : MbStr × Nat => flags &&& p.2 ≠ 0).map Prod.fst) hrows
    simp only [List.filter_map, List.map_map, Function.comp_def] at hfilter
    exact hfilter
  refine ⟨_, getMountOpts_eq flags rows rest, ?_⟩
  rw [joinMountOpts_eq, List.nil_append, ← hnames]
  exact Buffer.string_map (zero_notMem_joined rows) _

end Procenv.MountOpts
