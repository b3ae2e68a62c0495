import Procenv.Model.Linux
import Mathlib.Data.Int.Order.Basic
import Mathlib.Data.List.Lex

/-!
# The test of the kernel version

`linux_kernel_version` packs each version into a word, a byte for each component, and
compares the words. So it compares the low bytes of the components, and the low bytes
decide as the components do exactly if `LowBytesDecide` holds.

* `versionWord_toInt`: the word of a version is its low bytes in base 256.
* `versionWord_le`: words are ordered as the lists of their low bytes.
* `lowBytes_le_iff`: when the low bytes order two versions as the components do.
-/

namespace Procenv.Show

/-! ## Versions -/

/-- What `sscanf` reads of the release; missing components count as 0. -/
def runningVersion (release : MbStr) : List Int :=
  let read := scanRelease 3 release
  [read[0]?.getD 0, read[1]?.getD 0, read[2]?.getD 0]

-- a component is an `int`
example : scanRelease 3 (bytes "4.4.4294967301") = [4, 4, 5] := by decide

/-- The version asked for; everything from the first `-1` on counts as 0. -/
def requestedVersion (major minor revision : Int) : List Int :=
  if minor = -1 then [major, 0, 0]
  else if revision = -1 then [major, minor, 0]
  else [major, minor, revision]

/-- What a byte keeps of a component. -/
def lowByte (n : Int) : Int := n % 256

/-- The first components that differ, if any, have low bytes in the same order; or their low
bytes are equal, and the low bytes of the components behind them are in that order. -/
def LowBytesDecide : List Int → List Int → Prop
  | x :: xs, y :: ys =>
    if x = y then LowBytesDecide xs ys
    else if lowByte x ≠ lowByte y then (lowByte x < lowByte y ↔ x < y)
    else if x < y then xs.map lowByte < ys.map lowByte
    else ys.map lowByte ≤ xs.map lowByte
  | _, _ => True

instance decidableLowBytesDecide : (xs ys : List Int) → Decidable (LowBytesDecide xs ys)
  | x :: xs, y :: ys =>
    have := decidableLowBytesDecide xs ys
    inferInstanceAs (Decidable (if x = y then LowBytesDecide xs ys else _))
  | [], _ => isTrue (by simp [LowBytesDecide])
  | _ :: _, [] => isTrue trivial

/-- The order of lists, component by component. -/
theorem version_le_cons {x y : Int} {xs ys : List Int} : y :: ys ≤ x :: xs ↔ y < x ∨ y = x ∧ ys ≤ xs := by
  rw [← not_lt, List.cons_lt_cons_iff, ← not_lt]
  by_cases hrest : xs < ys
  · simp only [hrest, and_true, not_true_eq_false, and_false, or_false]
    omega
  · simp only [hrest, and_false, or_false, not_false_eq_true, and_true]
    omega

/-- **The low bytes order two versions as the components do** exactly if they decide. -/
theorem lowBytes_le_iff {xs ys : List Int} (h : xs.length = ys.length) :
    (ys.map lowByte ≤ xs.map lowByte ↔ ys ≤ xs) ↔ LowBytesDecide xs ys := by
  induction xs generalizing ys with
  | nil =>
    obtain rfl : ys = [] := List.length_eq_zero_iff.1 h.symm
    simp [LowBytesDecide]
  | cons x xs ih =>
    obtain ⟨y, ys, rfl⟩ : ∃ y ys', ys = y :: ys' := List.exists_cons_of_length_eq_add_one h.symm
    have hrest := ih (Nat.succ.inj h)
    simp only [List.map_cons, version_le_cons, LowBytesDecide]
    by_cases hxy : x = y
    · simpa [hxy] using hrest
    · by_cases hlow : lowByte x = lowByte y
      · -- the byte loses the difference: the rest of the bytes decides
        by_cases hlt : x < y
        · have hge : ¬ y < x := by omega
          simp [hxy, Ne.symm hxy, hlow, hlt, hge]
        · have hgt : y < x := by omega
          simp [hxy, hlow, hlt, hgt]
      · have hlow' : ¬ lowByte y = lowByte x := fun h => hlow h.symm
        simp only [hxy, Ne.symm hxy, hlow, hlow', false_and, or_false, if_false, ne_eq,
          not_false_eq_true, if_true]
        omega

/-! ## Words -/

/-- A component shifted into place and masked is its low byte in that place. -/
theorem byte_toNat (n : Int) {shift : Nat} (h : shift + 8 ≤ 32) :
    (BitVec.ofInt 32 n <<< shift &&& 255#32 <<< shift).toNat = (n % 256).toNat <<< shift := by
  have hn : (n % 256).toNat = (n % (2 ^ 32 : Nat)).toNat % 2 ^ 8 := by omega
  apply Nat.eq_of_testBit_eq
  intro i
  have hmask : Nat.testBit (255 % 2 ^ 32) (i - shift) = decide (i - shift < 8) :=
    Nat.testBit_two_pow_sub_one 8 _
  rw [hn]
  simp only [BitVec.toNat_and, BitVec.toNat_shiftLeft, BitVec.toNat_ofInt, BitVec.toNat_ofNat,
    Nat.testBit_and, Nat.testBit_mod_two_pow, Nat.testBit_shiftLeft, hmask]
  by_cases hle : shift ≤ i
  · by_cases hlt : i - shift < 8
    · have hi : i < 32 := by omega
      simp [hle, hlt, hi]
    · simp [hlt]
  · simp [hle]

/-- The word of a version is its low bytes in base 256. -/
theorem versionWord_toInt {major minor revision : Int} (hM : major ≠ -1) (hm : minor ≠ -1) (hr : revision ≠ -1) :
    (versionWord major minor revision).toInt =
      lowByte major * 65536 + lowByte minor * 256 + lowByte revision := by
  have hword : (versionWord major minor revision).toNat =
      (revision % 256).toNat ||| (minor % 256).toNat <<< 8 ||| (major % 256).toNat <<< 16 := by
    simp only [versionWord, if_neg hM, if_neg hm, if_neg hr, BitVec.toNat_or]
    have hrevision : (BitVec.ofInt 32 revision <<< 0 &&& 255).toNat = (revision % 256).toNat :=
      @byte_toNat revision 0 (by decide)
    have hminor : (BitVec.ofInt 32 minor <<< 8 &&& 65280).toNat = (minor % 256).toNat <<< 8 :=
      @byte_toNat minor 8 (by decide)
    have hmajor : (BitVec.ofInt 32 major <<< 16 &&& 16711680).toNat = (major % 256).toNat <<< 16 :=
      @byte_toNat major 16 (by decide)
    rw [hrevision, hminor, hmajor]
  have hlow : (revision % 256).toNat ||| (minor % 256).toNat <<< 8 =
    (minor % 256).toNat * 256 + (revision % 256).toNat := by
    rw [Nat.or_comm, ← Nat.shiftLeft_add_eq_or_of_lt (by omega), Nat.shiftLeft_eq]
  have hnat : (versionWord major minor revision).toNat =
      (major % 256).toNat * 65536 + ((minor % 256).toNat * 256 + (revision % 256).toNat) := by
    rw [hword, hlow, Nat.or_comm, ← Nat.shiftLeft_add_eq_or_of_lt (by omega), Nat.shiftLeft_eq]
  rw [BitVec.toInt_eq_toNat_of_lt (by omega), hnat]
  unfold lowByte
  omega

/-- Words are ordered as the lists of their low bytes. -/
theorem versionWord_le {a b c a' b' c' : Int} (h : ∀ n ∈ [a, b, c, a', b', c'], 0 ≤ n) :
    (versionWord a b c).toInt ≤ (versionWord a' b' c').toInt ↔
      [a, b, c].map lowByte ≤ [a', b', c'].map lowByte := by
  have hne : ∀ n ∈ [a, b, c, a', b', c'], n ≠ -1 := by
    intro n hn
    have hpos := h n hn
    omega
  have hbyte : ∀ n : Int, 0 ≤ lowByte n ∧ lowByte n < 256 :=
    fun n => ⟨by unfold lowByte; omega, by unfold lowByte; omega⟩
  have hb := hbyte b
  have hb' := hbyte b'
  have hc := hbyte c
  have hc' := hbyte c'
  simp only [List.forall_mem_cons] at hne
  obtain ⟨ha, hnb, hnc, ha', hnb', hnc', -⟩ := hne
  rw [versionWord_toInt ha hnb hnc, versionWord_toInt ha' hnb' hnc']
  simp only [List.map_cons, List.map_nil, version_le_cons, le_refl, and_true]
  omega

/-- A component left out has the byte of 0. -/
theorem versionWord_out (major : Int) (minor revision : Option Int) :
    versionWord major (minor.getD (-1)) (revision.getD (-1)) =
      versionWord major (minor.getD 0) (revision.getD 0) := by
  cases minor <;> cases revision <;> simp [versionWord]

/-- The word of a request is that of the version asked for. -/
theorem requestedVersion_word (major : Int) {minor revision : Int} (hm : -1 ≤ minor) (hr : -1 ≤ revision) :
    ∃ m r, 0 ≤ m ∧ 0 ≤ r ∧ requestedVersion major minor revision = [major, m, r] ∧
      versionWord major minor (if minor = -1 then -1 else revision) = versionWord major m r := by
  unfold requestedVersion
  by_cases h1 : minor = -1
  · refine ⟨0, 0, Int.le_refl 0, Int.le_refl 0, by simp [h1], ?_⟩
    simpa [h1] using versionWord_out major none none
  · by_cases h2 : revision = -1
    · refine ⟨minor, 0, by omega, Int.le_refl 0, by simp [h1, h2], ?_⟩
      simpa [h1, h2] using versionWord_out major (some minor) none
    · exact ⟨minor, revision, by omega, by omega, by simp [h1, h2], by simp [h1]⟩

/-- The word of the running kernel is that of the version read of its release. -/
theorem runningVersion_word {release : MbStr} (h : scanRelease 3 release ≠ [])
    (hpos : ∀ n ∈ scanRelease 3 release, 0 ≤ n) :
    ∃ a b c, 0 ≤ a ∧ 0 ≤ b ∧ 0 ≤ c ∧ runningVersion release = [a, b, c] ∧
      (scanRelease 3 release)[0]?.getD (-1) = a ∧
      versionWord a ((scanRelease 3 release)[1]?.getD (-1)) ((scanRelease 3 release)[2]?.getD (-1)) =
        versionWord a b c := by
  unfold runningVersion
  obtain ⟨a, read, hread⟩ := List.exists_cons_of_ne_nil h
  rw [hread] at hpos ⊢
  have hget : ∀ i : Nat, 0 ≤ ((a :: read)[i]?).getD 0 := by
    intro i
    rcases hi : (a :: read)[i]? with _ | n
    · exact Int.le_refl 0
    · exact hpos n (List.mem_of_getElem? hi)
  exact ⟨a, _, _, hpos a (by simp), hget 1, hget 2, rfl, rfl, versionWord_out a _ _⟩

variable {env : Env}

theorem assert_true {fn : String} {c : Bool} (h : c = true) : assert fn c = pure () := by rw [h]; rfl

/-- **When the kernel version is compared correctly**: `linux_kernel_version` returns whether the
running version is at least the requested one exactly if their low bytes decide that. -/
theorem linuxKernelVersion_iff {major minor revision : Int} (hread : scanRelease 3 env.uts.release ≠ [])
    (hpos : ∀ n ∈ scanRelease 3 env.uts.release, 0 ≤ n) (hM : 0 < major) (hm : -1 ≤ minor) (hr : -1 ≤ revision) :
    linuxKernelVersion env major minor revision =
        (return decide (requestedVersion major minor revision ≤ runningVersion env.uts.release)) ↔
      LowBytesDecide (runningVersion env.uts.release) (requestedVersion major minor revision) := by
  obtain ⟨a, b, c, ha, hb, hc, hrun, hfirst, hactual⟩ := runningVersion_word hread hpos
  obtain ⟨m, r, hm0, hr0, hreq, hrequested⟩ := requestedVersion_word major hm hr
  have hcode : linuxKernelVersion env major minor revision =
      .ret (decide ([major, m, r].map lowByte ≤ [a, b, c].map lowByte)) := by
    have hne : a ≠ -1 := by omega
    have hall : ∀ n ∈ [major, m, r, a, b, c], 0 ≤ n := by
      simp only [List.forall_mem_cons]
      exact ⟨Int.le_of_lt hM, hm0, hr0, ha, hb, hc, by simp⟩
    rw [linuxKernelVersion, assert_true (decide_eq_true hM)]
    simp only [hfirst, hactual, hrequested, versionWord_le hall, assert_true (decide_eq_true hne)]
    rfl
  rw [hcode, hrun, hreq, ← lowBytes_le_iff (by rfl)]
  constructor
  · intro h
    simpa using Interact.Prog.ret.inj h
  · intro h
    simp only [h]
    rfl

/-- A kernel of the given release. -/
def kernel (release : String) : Env :=
  { (default : Env) with uts := { (default : Utsname) with release := bytes release } }

/-- Running 5.10.42, asked for 5.4 with any revision. -/
theorem linuxKernelVersion_iff_stable :
    linuxKernelVersion (kernel "5.10.42-generic") 5 4 (-1) = (return true) :=
  (linuxKernelVersion_iff (by decide) (by decide) (by decide) (by decide) (by decide)).2 (by decide)

/-- Running 4.4.256, asked for 4.4.1: the byte of the revision is 0. -/
theorem linuxKernelVersion_revision :
    runningVersion (bytes "4.4.256") = [4, 4, 256] ∧ requestedVersion 4 4 1 = [4, 4, 1] ∧
      linuxKernelVersion (kernel "4.4.256") 4 4 1 = (return false) := by
  refine ⟨by decide, by decide, rfl⟩

end Procenv.Show
