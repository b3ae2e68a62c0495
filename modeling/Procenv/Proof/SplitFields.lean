import Procenv.Model.SplitFields
import Procenv.Proof.Append
import Procenv.Proof.Strsep

/-!
# The fields of `split_fields`

With `compress` the loop skips the delimiters before a field. Without it, it skips one character before each
field, as if a delimiter stood there: before the first field it is the first character of the string, whatever
that is.

* `splitLoop_compress`, `splitLoop_all`: what the loop adds to the array in each mode.
* `splitFields_compress`, `splitFields_all`: the fields that are returned.
* `splitFields_iff`: **for which strings the fields are those of the string**.
-/

namespace Procenv.SplitFields

open Data Show

variable {string : Buffer UInt8} {d c : UInt8} {s : MbStr} {p fuel : Nat}

/-! ## Reading -/

/-- The cells from `p` on are the end `s` of a string and its terminator, and there is none behind it. -/
structure PointsAt (string : Buffer UInt8) (p : Nat) (s : MbStr) : Prop where
  cells : string.drop p = s.map some ++ [some 0]
  noZero : 0 ∉ s

theorem PointsAt.next (h : PointsAt string p (c :: s)) : PointsAt string (p + 1) s where
  cells := by
    rw [← List.drop_drop, h.cells]
    rfl
  noZero hmem := h.noZero (List.mem_cons_of_mem _ hmem)

/-- Reading gives the first character of the text, or its terminator. -/
theorem PointsAt.read (h : PointsAt string p s) : peek string p = .ok (s.headD 0) := by
  have hcell : string[p]? = some (some (s.headD 0)) := by
    have hget : string[p]? = (string.drop p)[0]? := by simp
    rw [hget, h.cells]
    cases s <;> rfl
  rw [peek, hcell]
  rfl

/-- The text is shorter than the object. -/
theorem PointsAt.length_lt (h : PointsAt string p s) : s.length < string.length := by
  have hlen := congrArg List.length h.cells
  rw [List.length_drop, List.length_append, List.length_map, List.length_singleton] at hlen
  omega

/-- The loop that skips delimiters. -/
theorem skipPrefix_eq (hd : d ≠ 0) (h : PointsAt string p s) (hfuel : s.length < fuel) :
    ∃ q, skipPrefix string d fuel p = .ok q ∧ PointsAt string q (s.dropWhile (· = d)) := by
  induction fuel generalizing s p with
  | zero => omega
  | succ fuel ih =>
    rw [skipPrefix, h.read]
    cases s with
    | nil =>
      refine ⟨p, ?_, h⟩
      exact if_neg (Ne.symm hd)
    | cons c s =>
      by_cases hc : c = d
      · rw [List.dropWhile_cons_of_pos (by simpa using hc)]
        obtain ⟨q, hrun, hq⟩ := ih h.next (by simpa using hfuel)
        refine ⟨q, ?_, hq⟩
        rw [← hrun]
        exact if_pos hc
      · rw [List.dropWhile_cons_of_neg (by simpa using hc)]
        refine ⟨p, ?_, h⟩
        exact if_neg hc

/-- The loop that skips a field. -/
theorem skipField_eq (h : PointsAt string p s) (hfuel : s.length < fuel) :
    skipField string d fuel p = .ok (p + (s.takeWhile (· ≠ d)).length) ∧
      PointsAt string (p + (s.takeWhile (· ≠ d)).length) (s.dropWhile (· ≠ d)) := by
  induction fuel generalizing s p with
  | zero => omega
  | succ fuel ih =>
    rw [skipField, h.read]
    cases s with
    | nil => exact ⟨rfl, h⟩
    | cons c s =>
      have hc0 : c ≠ 0 := by
        intro hc
        exact h.noZero (by simp [hc])
      by_cases hc : c = d
      · rw [List.takeWhile_cons_of_neg (by simpa using hc), List.dropWhile_cons_of_neg (by simpa using hc)]
        refine ⟨?_, h⟩
        exact if_neg fun hboth => hboth.2 hc
      · have hlen : p + ((s.takeWhile (· ≠ d)).length + 1) = p + 1 + (s.takeWhile (· ≠ d)).length := by omega
        rw [List.takeWhile_cons_of_pos (by simpa using hc), List.dropWhile_cons_of_pos (by simpa using hc),
          List.length_cons, hlen]
        obtain ⟨hrun, hend⟩ := ih h.next (by simpa using hfuel)
        refine ⟨?_, hend⟩
        rw [← hrun]
        exact if_pos ⟨hc0, hc⟩

/-- The copy of what stands before the end of a text. -/
theorem strndup_eq {field rest : MbStr} (h : PointsAt string p (field ++ rest)) :
    strndup string p field.length = .ok field := by
  induction field generalizing p with
  | nil => rfl
  | cons c field ih =>
    have hc0 : c ≠ 0 := by
      intro hc
      exact h.noZero (by simp [hc])
    rw [List.length_cons, strndup, h.read]
    simp only [List.cons_append, List.headD_cons, bind, Except.bind, ih h.next]
    exact if_neg hc0

/-! ## The array -/

/-- The array with the fields found so far: one place more is allocated, and holds `NULL` at the start. -/
def fieldArray (fields : List MbStr) : Buffer (Option MbStr) :=
  fields.map (fun field => some (some field)) ++ [if fields = [] then some none else none]

/-- The next field is stored. -/
theorem fieldArray_store (fields : List MbStr) (field : MbStr) :
    ((fieldArray fields).realloc (1 + (fields.length + 1))).store fields.length (some field) =
      some (fieldArray (fields ++ [field])) := by
  have hlen : (fields.map fun field => some (some field)).length = fields.length := List.length_map _
  have hcells : (fieldArray fields).realloc (1 + (fields.length + 1)) = fieldArray fields ++ [none] := by
    have hsize : (fieldArray fields).length = fields.length + 1 := by
      rw [fieldArray, List.length_append, hlen, List.length_singleton]
    rw [Buffer.realloc, List.take_of_length_le (by omega), hsize,
      show 1 + (fields.length + 1) - (fields.length + 1) = 1 by
      omega]
    rfl
  rw [hcells, Buffer.store, if_pos (by simp [fieldArray])]
  rw [fieldArray, List.append_assoc, List.set_append_right _ _ (Nat.le_of_eq hlen), hlen, Nat.sub_self]
  simp [fieldArray]

/-- The fields that are stored. -/
def stored (array : Buffer (Option MbStr)) : List MbStr := array.filterMap Option.join

theorem stored_fieldArray (fields : List MbStr) : stored (fieldArray fields) = fields := by
  have hmap : (fields.map fun field => some (some field)).filterMap Option.join = fields := by
    rw [List.filterMap_map]
    exact List.filterMap_some
  rw [stored, fieldArray, List.filterMap_append, hmap]
  split <;> simp

/-! ## The loop -/

/-- What the loop does with the field that starts at a text. -/
theorem field_found {compress : Bool} (fields : List MbStr) (h : PointsAt string p s) :
    ∃ q, PointsAt string q (s.dropWhile (· ≠ d)) ∧
      (do
        let q ← skipField string d string.length p
        let elem ← strndup string p (q - p)
        let array ← access "split_fields" (((fieldArray fields).realloc (1 + (fields.length + 1))).store
          (fields.length + 1 - 1) (some elem))
        splitLoop string d compress fuel q (fields.length + 1) array) =
      splitLoop string d compress fuel q (fields ++ [s.takeWhile (· ≠ d)]).length
        (fieldArray (fields ++ [s.takeWhile (· ≠ d)])) := by
  obtain ⟨hskip, hend⟩ := @skipField_eq string d s p string.length h h.length_lt
  have hcopy : strndup string p (s.takeWhile (· ≠ d)).length = .ok (s.takeWhile (· ≠ d)) := by
    have hparts : PointsAt string p (s.takeWhile (· ≠ d) ++ s.dropWhile (· ≠ d)) := by
      rw [List.takeWhile_append_dropWhile]
      exact h
    exact strndup_eq hparts
  refine ⟨_, hend, ?_⟩
  simp only [hskip, bind, Except.bind, Nat.add_sub_cancel_left, hcopy, Nat.add_sub_cancel,
    fieldArray_store, access, List.length_append, List.length_singleton]

/-- A round without `compress`: the field starts behind the next character. -/
theorem splitLoop_all_field (fields : List MbStr) (h : PointsAt string p (c :: s)) :
    ∃ q, PointsAt string q (s.dropWhile (· ≠ d)) ∧
      splitLoop string d false (fuel + 1) p fields.length (fieldArray fields) =
        splitLoop string d false fuel q (fields ++ [s.takeWhile (· ≠ d)]).length
          (fieldArray (fields ++ [s.takeWhile (· ≠ d)])) := by
  have hc0 : c ≠ 0 := by
    intro hc
    exact h.noZero (by simp [hc])
  obtain ⟨q, hq, hrun⟩ := @field_found string d s (p + 1) fuel false fields h.next
  refine ⟨q, hq, ?_⟩
  rw [← hrun, splitLoop]
  simp only [h.read, List.headD_cons, bind, Except.bind, if_neg hc0, Bool.false_eq_true,
    if_false, pure, Except.pure]

/-- A round with `compress`: the field starts behind the delimiters, if the string does not end there. -/
theorem splitLoop_compress_field (hd : d ≠ 0) (fields : List MbStr) (h : PointsAt string p s)
    (hne : s.dropWhile (· = d) ≠ []) :
    ∃ q, PointsAt string q ((s.dropWhile (· = d)).dropWhile (· ≠ d)) ∧
      splitLoop string d true (fuel + 1) p fields.length (fieldArray fields) =
        splitLoop string d true fuel q (fields ++ [(s.dropWhile (· = d)).takeWhile (· ≠ d)]).length
          (fieldArray (fields ++ [(s.dropWhile (· = d)).takeWhile (· ≠ d)])) := by
  obtain ⟨start, hskip, hstart⟩ := skipPrefix_eq hd h h.length_lt
  have hs : s.headD 0 ≠ 0 := by
    cases s with
    | nil => exact absurd rfl hne
    | cons c s =>
      intro hc
      exact h.noZero (by simp [← show c = 0 from hc])
  have hs' : (s.dropWhile (· = d)).headD 0 ≠ 0 := by
    cases hdrop : s.dropWhile (· = d) with
    | nil => exact absurd hdrop hne
    | cons c rest =>
      intro hc
      exact hstart.noZero (by rw [hdrop]; simp [← show c = 0 from hc])
  obtain ⟨q, hq, hrun⟩ := @field_found string d _ start fuel true fields hstart
  refine ⟨q, hq, ?_⟩
  rw [← hrun, splitLoop]
  simp only [h.read, bind, Except.bind, if_neg hs, if_true, hskip, hstart.read, if_neg hs']

/-- The fields that are not empty. -/
def nonEmpty (d : UInt8) (s : MbStr) : List MbStr := (strsep d s).filter (· ≠ [])

theorem nonEmpty_delim (s : MbStr) : nonEmpty d (d :: s) = nonEmpty d s := by
  rw [nonEmpty, strsep, if_pos rfl, List.filter_cons_of_neg (by simp)]
  rfl

theorem nonEmpty_skip (s : MbStr) : nonEmpty d (s.dropWhile (· = d)) = nonEmpty d s := by
  induction s with
  | nil => rfl
  | cons c s ih =>
    by_cases hc : c = d
    · rw [List.dropWhile_cons_of_pos (by simpa using hc), ih, hc, nonEmpty_delim]
    · rw [List.dropWhile_cons_of_neg (by simpa using hc)]

/-- A field and the ones after it. -/
theorem nonEmpty_field (hc : c ≠ d) :
    nonEmpty d (c :: s) = (c :: s).takeWhile (· ≠ d) :: nonEmpty d ((c :: s).dropWhile (· ≠ d)) := by
  have hfield : (c :: s).takeWhile (· ≠ d) ≠ [] := by
    rw [List.takeWhile_cons_of_pos (by simpa using hc)]
    simp
  rw [nonEmpty, strsep_next, List.filter_cons_of_pos (by simpa using hfield)]
  congr 1
  rcases delim_cases d (c :: s) with ⟨hdrop, -, -⟩ | ⟨rest, hdrop, -, -⟩
  · rw [hdrop]
    rfl
  · rw [hdrop, nonEmpty_delim]
    rfl

/-- **The loop with `compress`** adds the fields that are not empty. -/
theorem splitLoop_compress (hd : d ≠ 0) (fields : List MbStr) (h : PointsAt string p s)
    (hfuel : s.length < fuel) :
    splitLoop string d true fuel p fields.length (fieldArray fields) =
      .ok ((fields ++ nonEmpty d s).length, fieldArray (fields ++ nonEmpty d s)) := by
  induction fuel generalizing s p fields with
  | zero => omega
  | succ fuel ih =>
    by_cases hne : s.dropWhile (· = d) = []
    · -- nothing but delimiters is left
      obtain ⟨q, hskip, hq⟩ := skipPrefix_eq hd h h.length_lt
      rw [hne] at hq
      have hnil : nonEmpty d s = [] := by
        rw [← nonEmpty_skip, hne]
        rfl
      rw [hnil, List.append_nil, splitLoop, h.read]
      simp only [bind, Except.bind, if_true, hskip, hq.read, List.headD_nil, pure, Except.pure, ite_self]
    · obtain ⟨q, hq, hrun⟩ := @splitLoop_compress_field string d s p fuel hd fields h hne
      obtain ⟨c, rest, hdrop⟩ := List.exists_cons_of_ne_nil hne
      have hc : c ≠ d := by
        have hhead := List.head?_dropWhile_not (· = d) s
        rw [hdrop] at hhead
        simpa using hhead
      have hlen : ((c :: rest).dropWhile (· ≠ d)).length < fuel := by
        have hle := (List.dropWhile_suffix (l := rest) (· ≠ d)).length_le
        have hle' := (List.dropWhile_suffix (l := s) (· = d)).length_le
        rw [hdrop, List.length_cons] at hle'
        rw [List.dropWhile_cons_of_pos (by simpa using hc)]
        omega
      rw [hrun]
      rw [hdrop] at hq ⊢
      rw [ih _ hq hlen, ← nonEmpty_skip s, hdrop, nonEmpty_field hc, List.append_assoc]
      rfl

/-- The fields found without `compress`. -/
def fieldsBehind (d : UInt8) : MbStr → List MbStr
  | [] => []
  | _ :: s => strsep d s

/-- **The loop without `compress`** adds the fields of what comes after the first character. -/
theorem splitLoop_all (fields : List MbStr) (h : PointsAt string p s) (hfuel : s.length < fuel) :
    splitLoop string d false fuel p fields.length (fieldArray fields) =
      .ok ((fields ++ fieldsBehind d s).length, fieldArray (fields ++ fieldsBehind d s)) := by
  induction fuel generalizing s p fields with
  | zero => omega
  | succ fuel ih =>
    cases s with
    | nil =>
      rw [fieldsBehind, List.append_nil, splitLoop, h.read]
      rfl
    | cons c s =>
      obtain ⟨q, hq, hrun⟩ := @splitLoop_all_field string d c s p fuel fields h
      have hlen : (s.dropWhile (· ≠ d)).length < fuel := by
        have hle := (List.dropWhile_suffix (l := s) (· ≠ d)).length_le
        rw [List.length_cons] at hfuel
        omega
      rw [hrun, ih _ hq hlen, fieldsBehind, strsep_next s, List.append_assoc]
      rcases delim_cases d s with ⟨hdrop, -, -⟩ | ⟨rest, hdrop, -, -⟩
      · rw [hdrop]
        rfl
      · rw [hdrop]
        rfl

/-! ## The function -/

/-- The string as an object: its characters and the terminator. -/
def object (s : MbStr) : Buffer UInt8 := s.map some ++ [some 0]

theorem pointsAt_object (hs : 0 ∉ s) : PointsAt (object s) 0 s := ⟨rfl, hs⟩

/-- What is returned for fields. -/
theorem splitFields_of_loop {compress : Bool} (hd : d ≠ 0) :
    splitFields string d compress = splitLoop string d compress string.length 0 0 (fieldArray []) := by
  rw [splitFields, if_neg hd]
  rfl

/-- **With `compress`** the fields are those of the string that are not empty. -/
theorem splitFields_compress (hs : 0 ∉ s) (hd : d ≠ 0) :
    splitFields (object s) d true = .ok ((nonEmpty d s).length, fieldArray (nonEmpty d s)) := by
  rw [splitFields_of_loop hd]
  exact splitLoop_compress hd [] (pointsAt_object hs) (pointsAt_object hs).length_lt

/-- **Without `compress`** they are those of the string without its first character. -/
theorem splitFields_all (hs : 0 ∉ s) (hd : d ≠ 0) :
    splitFields (object s) d false = .ok ((fieldsBehind d s).length, fieldArray (fieldsBehind d s)) := by
  rw [splitFields_of_loop hd]
  exact splitLoop_all [] (pointsAt_object hs) (pointsAt_object hs).length_lt

/-- **A call that splits a string into fields**: it returns, without a read past the terminator, as many as it
stores. -/
def Returns (s : MbStr) (d : UInt8) (compress : Bool) (fields : List MbStr) : Prop :=
  ∃ array, splitFields (object s) d compress = .ok (fields.length, array) ∧ stored array = fields

theorem Returns.unique {compress : Bool} {fields fields' : List MbStr} (h : Returns s d compress fields)
    (h' : Returns s d compress fields') : fields = fields' := by
  obtain ⟨array, hrun, rfl⟩ := h
  obtain ⟨array', hrun', rfl⟩ := h'
  rw [hrun] at hrun'
  rw [(Prod.mk.inj (Except.ok.inj hrun')).2]

theorem returns_compress (hs : 0 ∉ s) (hd : d ≠ 0) : Returns s d true (nonEmpty d s) :=
  ⟨_, splitFields_compress hs hd, stored_fieldArray _⟩

theorem returns_all (hs : 0 ∉ s) (hd : d ≠ 0) : Returns s d false (fieldsBehind d s) :=
  ⟨_, splitFields_all hs hd, stored_fieldArray _⟩

/-- **With `compress`** the fields returned are the ones not empty among those returned without it. -/
def Compresses (s : MbStr) (d : UInt8) : Prop :=
  ∃ fields, Returns s d false fields ∧ Returns s d true (fields.filter (· ≠ []))

/-- **The fields are those of the string**: those returned without `compress` are the string when they are joined,
and those returned with it are the ones not empty among them. -/
def Splits (s : MbStr) (d : UInt8) : Prop :=
  ∃ fields, Returns s d false fields ∧ [d].intercalate fields = s ∧ Returns s d true (fields.filter (· ≠ []))

/-- The characters of the fields. -/
theorem flatten_strsep (s : MbStr) : (strsep d s).flatten = s.filter (· ≠ d) := by
  induction s with
  | nil => rfl
  | cons c s ih =>
    rw [strsep]
    by_cases hc : c = d
    · rw [if_pos hc, List.flatten_cons, ih, List.filter_cons_of_neg (by simpa using hc), List.nil_append]
    · rw [if_neg hc, List.filter_cons_of_pos (by simpa using hc), ← ih]
      cases strsep d s with
      | nil => rfl
      | cons field fields => rfl

theorem flatten_nonEmpty (s : MbStr) : (nonEmpty d s).flatten = s.filter (· ≠ d) := by
  rw [nonEmpty, List.flatten_filter_ne_nil, flatten_strsep]

/-- The first character is not lost when it is a delimiter. -/
theorem nonEmpty_cons_iff : nonEmpty d (c :: s) = nonEmpty d s ↔ c = d := by
  constructor
  · intro h
    by_contra hc
    have hflat := congrArg (List.length ∘ List.flatten) h
    simp only [Function.comp_apply, flatten_nonEmpty] at hflat
    rw [List.filter_cons_of_pos (by simpa using hc), List.length_cons] at hflat
    omega
  · rintro rfl
    exact nonEmpty_delim s

theorem compresses_iff (hs : 0 ∉ s) (hd : d ≠ 0) : Compresses s d ↔ s = [] ∨ s.head? = some d := by
  have hfilter : Compresses s d ↔ nonEmpty d s = (fieldsBehind d s).filter (· ≠ []) := by
    constructor
    · rintro ⟨fields, hall, hcompress⟩
      rw [(returns_all hs hd).unique hall]
      exact (returns_compress hs hd).unique hcompress
    · intro h
      exact ⟨_, returns_all hs hd, h ▸ returns_compress hs hd⟩
  rw [hfilter]
  cases s with
  | nil => exact iff_of_true rfl (Or.inl rfl)
  | cons c s =>
    have hcons := @nonEmpty_cons_iff d c s
    rw [fieldsBehind, ← nonEmpty, hcons]
    simp

/-- **For which strings the fields are those of the string**: without `compress` the first character is lost. -/
theorem splitFields_iff (hs : 0 ∉ s) (hd : d ≠ 0) :
    (Splits s d ↔ s = []) ∧ (Compresses s d ↔ s = [] ∨ s.head? = some d) := by
  refine ⟨?_, compresses_iff hs hd⟩
  constructor
  · rintro ⟨fields, hall, hjoin, -⟩
    rw [← (returns_all hs hd).unique hall] at hjoin
    cases s with
    | nil => rfl
    | cons c s =>
      have hlen := congrArg List.length hjoin
      rw [fieldsBehind, intercalate_strsep, List.length_cons] at hlen
      omega
  · rintro rfl
    exact ⟨[], returns_all hs hd, rfl, returns_compress hs hd⟩

/-- A string that starts with a delimiter. -/
theorem splitFields_iff_delimiter : Compresses (bytes ":a:b") 58 ∧ ¬ Splits (bytes ":a:b") 58 := by
  obtain ⟨hsplits, hcompresses⟩ := @splitFields_iff 58 (bytes ":a:b") (by decide) (by decide)
  exact ⟨hcompresses.2 (Or.inr (by decide)), fun h => absurd (hsplits.1 h) (by decide)⟩

/-- The first field of `a:b` is empty without `compress`, and not there with it. -/
theorem splitFields_first_lost :
    splitFields (object (bytes "a:b")) 58 false = .ok (2, [some (some []), some (some (bytes "b")), none]) ∧
      splitFields (object (bytes "a:b")) 58 true =
        .ok (2, [some (some (bytes "a")), some (some (bytes "b")), none]) ∧
      ¬ Splits (bytes "a:b") 58 := by
  have hall : splitFields (object (bytes "a:b")) 58 false =
      .ok (2, [some (some []), some (some (bytes "b")), none]) := by decide
  refine ⟨hall, by decide, ?_⟩
  rintro ⟨fields, ⟨array, hrun, rfl⟩, hjoin, -⟩
  rw [hall] at hrun
  rw [← (Prod.mk.inj (Except.ok.inj hrun)).2] at hjoin
  exact absurd hjoin (by decide)

end Procenv.SplitFields
