import Procenv.Model.Mounts
import Procenv.Proof.Runs
import Procenv.Text.Ranges

/-!
# The block counts of the mounts

The counts of `statvfs` are shown in blocks of 1024 bytes. The block size is divided first, in an
`unsigned`, and the counts are multiplied with what is left of it.

* `mul_multiplier_iff`: **a count is right exactly when it is zero, or the block size fits and its remainder
  does not make up a block**.
* `runs_showMountsGenericLinux`, `runs_showMountsGenericBsd`: what the two routines show, mount by mount.
* `showMounts_counts_iff`: **the same for what is shown of all mounts**.
-/

namespace Procenv

open Text Interact Show

variable {env : Env} {o : Prog.Oracle Call} {what : ShowMountType}

/-! ## The arithmetic -/

/-- The counts in whole blocks of `DF_BLOCK_SIZE`. -/
def wholeBlocks (fs : Statvfs) : Blocks where
  total := fs.blocks * fs.bsize / dfBlockSize
  used := fs.blocks * fs.bsize / dfBlockSize - fs.bfree * fs.bsize / dfBlockSize
  free := fs.bfree * fs.bsize / dfBlockSize
  available := fs.bavail * fs.bsize / dfBlockSize

/-- No more blocks are free than there are, and the sizes in bytes are of 64 bits. -/
structure Statvfs.InRange (fs : Statvfs) : Prop where
  free_le : fs.bfree ≤ fs.blocks
  total_lt : fs.blocks * fs.bsize < 2 ^ 64
  avail_lt : fs.bavail * fs.bsize < 2 ^ 64

/-- A count whose conversion is exact. -/
def ExactCount (bsize count : Nat) : Prop :=
  count = 0 ∨ bsize < 2 ^ 42 ∧ count * (bsize % dfBlockSize) < dfBlockSize

/-- The counts whose conversions are exact. -/
def Statvfs.Exact (fs : Statvfs) : Prop :=
  ExactCount fs.bsize fs.blocks ∧ ExactCount fs.bsize fs.bfree ∧ ExactCount fs.bsize fs.bavail

theorem wrap64_natCast {n : Nat} (h : n < 2 ^ 64) : wrap64 n = n := by
  unfold wrap64
  omega

variable {bsize count : Nat}

/-- The product does not wrap. -/
theorem mul_multiplier_le : count * (bsize / dfBlockSize % 2 ^ 32) ≤ count * bsize := by
  have hmod : bsize / dfBlockSize % 2 ^ 32 ≤ bsize / dfBlockSize := Nat.mod_le _ _
  have hdiv : bsize / dfBlockSize ≤ bsize := Nat.div_le_self _ _
  exact Nat.mul_le_mul_left count (Nat.le_trans hmod hdiv)

/-- **A count is right** if it is zero, or the block size fits and its remainder does not make up a block. -/
theorem mul_multiplier_iff :
    count * (bsize / dfBlockSize % 2 ^ 32) = count * bsize / dfBlockSize ↔ ExactCount bsize count := by
  unfold ExactCount dfBlockSize
  rcases Nat.eq_zero_or_pos count with rfl | hpos
  · simp
  have hsplit : count * bsize / 1024 = count * (bsize / 1024) + count * (bsize % 1024) / 1024 := by
    have hbsize : count * bsize = count * (bsize % 1024) + 1024 * (count * (bsize / 1024)) := by
      rw [Nat.mul_left_comm 1024, ← Nat.mul_add, Nat.mod_add_div]
    rw [hbsize, Nat.add_mul_div_left _ _ (by decide), Nat.add_comm]
  have hne : count ≠ 0 := by omega
  rw [hsplit]
  simp only [hne, false_or]
  by_cases hfit : bsize < 2 ^ 42
  · have hmod : bsize / 1024 % 2 ^ 32 = bsize / 1024 := Nat.mod_eq_of_lt (by omega)
    rw [hmod]
    omega
  · -- the quotient loses its upper half
    have hlost : bsize / 1024 % 2 ^ 32 < bsize / 1024 := by omega
    have hlt := Nat.mul_lt_mul_of_pos_left hlost hpos
    simp only [hfit, false_and, iff_false]
    omega

variable {fs : Statvfs}

/-- The counts that are shown: no operation wraps. -/
theorem dfBlocks_eq (h : fs.InRange) : dfBlocks fs =
    { total := fs.blocks * (fs.bsize / dfBlockSize % 2 ^ 32)
      used := fs.blocks * (fs.bsize / dfBlockSize % 2 ^ 32) - fs.bfree * (fs.bsize / dfBlockSize % 2 ^ 32)
      free := fs.bfree * (fs.bsize / dfBlockSize % 2 ^ 32)
      available := fs.bavail * (fs.bsize / dfBlockSize % 2 ^ 32) } := by
  have htotal := Nat.lt_of_le_of_lt (@mul_multiplier_le fs.bsize fs.blocks) h.total_lt
  have havail := Nat.lt_of_le_of_lt (@mul_multiplier_le fs.bsize fs.bavail) h.avail_lt
  have hle := Nat.mul_le_mul_right (fs.bsize / dfBlockSize % 2 ^ 32) h.free_le
  have hfree := Nat.lt_of_le_of_lt hle htotal
  simp only [dfBlocks, ← Int.natCast_mul, wrap64_natCast htotal, wrap64_natCast havail, wrap64_natCast hfree,
    ← Int.ofNat_sub hle]
  rw [wrap64_natCast (Nat.lt_of_le_of_lt (Nat.sub_le _ _) htotal)]

/-- **The counts are those of whole blocks exactly when their conversions are exact.** -/
theorem dfBlocks_iff (h : fs.InRange) : dfBlocks fs = wholeBlocks fs ↔ fs.Exact := by
  rw [dfBlocks_eq h, wholeBlocks, Blocks.mk.injEq, Statvfs.Exact, ← mul_multiplier_iff, ← mul_multiplier_iff,
    ← mul_multiplier_iff]
  constructor
  · rintro ⟨htotal, -, hfree, havail⟩
    exact ⟨htotal, hfree, havail⟩
  · rintro ⟨htotal, hfree, havail⟩
    exact ⟨htotal, by rw [htotal, hfree], hfree, havail⟩

/-! ## What is shown -/

namespace Show

/-- The texts of the counts. -/
def Blocks.texts (b : Blocks) : List WStr := [fmtU b.total, fmtU b.used, fmtU b.free, fmtU b.available]

/-- What a mount shows of its counts: without an answer they are unknown. -/
def countTexts (f : Statvfs → Blocks) : Option Statvfs → List WStr
  | none => List.replicate 4 unknownStr
  | some fs => (f fs).texts

/-- The names of the counts in the section `blocks`. -/
def countNames : List MbStr := [bytes "total", bytes "used", bytes "free", bytes "available"]

/-- Picks the counts: the state tells whether the last section is `blocks`, and still open. -/
def pickCounts (inBlocks : Bool) : Event → Bool × List WStr
  | .sectionOpen name => (name = bytes "blocks", [])
  | .sectionClose => (false, [])
  | .entry name value => (inBlocks, if inBlocks ∧ name ∈ countNames then [value] else [])
  | _ => (inBlocks, [])

/-- The counts that are shown, in their order. -/
def shownCounts (es : List Event) : List WStr := Prog.picked pickCounts false es

/-- Why `show_mounts_generic_linux` stops: a text of a mount has no wide form, or the target of a link has
none or is too long. -/
def MntentStop (env : Env) (o : Prog.Oracle Call) (mnts : List Mntent) (e : Halt) : Prop :=
  ∃ mnt ∈ mnts,
    (e = .hang ∧ ∃ text ∈ [mnt.fsname, mnt.type, mnt.opts, bytes "unknown"], env.locale.mbsrtowcs text = none) ∨
    ∃ k target, o k (Call.readlink mnt.fsname) = some target ∧
      (e = .hang ∧ env.locale.mbsrtowcs target = none ∨
        e = .outOfBounds "get_canonical_generic_linux" ∧ pathMax ≤ target.length)

/-- The options that are shown of a mount. -/
def mntOptions (mntoptMap : List (String × Nat)) (mnt : MntInfo) : MbStr :=
  joinMountOpts mnt.flags mntoptMap (mntoptMap.countP fun e => mnt.flags &&& e.2 ≠ 0) []

/-- Why `show_mounts_generic_bsd` stops: there is no mount, a text of a mount has no wide form, or there is no
memory for its options. -/
def MntInfoStop (env : Env) (o : Prog.Oracle Call) (mntoptMap : List (String × Nat)) (mounts : List MntInfo)
    (e : Halt) : Prop :=
  e = .die "unable to query mount info" [] ∧ mounts = [] ∨
  ∃ mnt ∈ mounts,
    (e = .hang ∧ ∃ text ∈ [mnt.mntonname, mnt.fstypename, [], mntOptions mntoptMap mnt],
      env.locale.mbsrtowcs text = none) ∨
    (∃ k, o k Call.alloc = false) ∧
      (e = .die "failed to allocate space for mount options" [] ∨
        e = .die "cannot determine FS flags for mountpoint '%s'" [mnt.mntonname])

/-- The routine shows these counts, or stops. -/
def Counts (o : Prog.Oracle Call) (E : Halt → Prop) (texts : List WStr) {α : Type} (m : Show α) : Prop :=
  Prog.Runs o (fun _ es => Prog.Picks pickCounts texts es) E m

variable {E : Halt → Prop}

theorem Counts.then {α β : Type} {m : Show α} {f : α → Show β} {texts : List WStr} (h : Counts o E [] m)
    (hf : ∀ a, Counts o E texts (f a)) : Counts o E texts (m >>= f) :=
  Prog.Runs.picks_bind h hf

theorem counts_pure {α : Type} {a : α} : Counts o E [] (pure a : Show α) := Prog.Runs.ret Prog.Picks.nil

/-- What emits nothing shows no counts. -/
theorem Counts.silent {α : Type} {m : Show α} (h : Prog.Runs o (fun _ es => es = []) E m) : Counts o E [] m := by
  refine h.mono fun _ es hes => ?_
  subst hes
  exact Prog.Picks.nil

theorem counts_lift {α : Type} (c : Call α) : Counts o E [] (liftM c : Show α) := Counts.silent (Prog.Runs.lift c)

theorem counts_str {s : MbStr} (hE : env.locale.mbsrtowcs s = none → E .hang) : Counts o E [] (str env s) :=
  Counts.silent ((runs_str hE).mono fun _ _ hes => hes.1)

theorem counts_when {c : Bool} {m : Show Unit} (h : c = true → Counts o E [] m) : Counts o E [] (when c m) :=
  runs_when Prog.Picks.nil h

theorem counts_die {α : Type} {fmt : String} {args : List MbStr} {texts : List WStr} (hE : E (.die fmt args)) :
    Counts o E texts (die fmt args : Show α) :=
  Prog.Runs.stop hE

/-- An entry that is not a count. -/
theorem counts_entry {name : String} {value : WStr} (h : bytes name ∉ countNames) :
    Counts o E [] (entry name value) := by
  refine Prog.Runs.emit (Prog.Runs.ret fun inBlocks => ?_)
  have hnot : ¬ (inBlocks = true ∧ bytes name ∈ countNames) := fun hboth => h hboth.2
  simp [Prog.picked, pickCounts, if_neg hnot]

theorem counts_sectionOpen {name : MbStr} : Counts o E [] (sectionOpenNamed name) :=
  Prog.Runs.emit (Prog.Runs.ret fun _ => rfl)

theorem counts_sectionClose : Counts o E [] sectionClose := Prog.Runs.emit (Prog.Runs.ret fun _ => rfl)

theorem counts_getMajorMinor (path : MbStr) : Counts o E [] (getMajorMinor path) := by
  unfold getMajorMinor
  refine (counts_lift _).then fun st => ?_
  cases st with
  | none => exact counts_pure
  | some st => exact counts_pure

theorem counts_showPathconfs (dir : MbStr) : Counts o E [] (showPathconfs env what dir) := by
  unfold showPathconfs
  refine counts_sectionOpen.then fun _ => ?_
  have hloop : Counts o E [] (Tables.pathconfNames.forM fun name => ifdef env name (showPathconf dir name)) := by
    refine Prog.Runs.picks_forM_nil fun name hname => ?_
    have hnames : ∀ name ∈ Tables.pathconfNames, bytes name ∉ countNames := by decide +kernel
    unfold ifdef
    exact counts_when fun _ => (counts_lift _).then fun conf => counts_entry (hnames name hname)
  exact hloop.then fun _ => counts_sectionClose

/-- What `get_canonical_generic_linux` finds. -/
theorem runs_getCanonicalGenericLinux {path : MbStr}
    (hE : ∀ k target, o k (Call.readlink path) = some target → pathMax ≤ target.length →
      E (.outOfBounds "get_canonical_generic_linux")) :
    Prog.Runs o (fun r es => es = [] ∧ (r.1 = bytes "unknown" ∨ ∃ k, o k (Call.readlink path) = some r.1)) E
      (getCanonicalGenericLinux path) := by
  unfold getCanonicalGenericLinux
  refine (Prog.Runs.asked _).bind fun target es htarget => ?_
  obtain ⟨rfl, k, htarget⟩ := htarget
  cases target with
  | none => exact Prog.Runs.ret ⟨rfl, Or.inl rfl⟩
  | some canonical =>
    have hlong : Prog.Runs o (fun _ es => es = []) E
        (when (pathMax ≤ canonical.length) (.stop (.outOfBounds "get_canonical_generic_linux"))) :=
      runs_when rfl fun hle => Prog.Runs.stop (hE k canonical htarget (by simpa using hle))
    refine hlong.bind fun _ es hes => ?_
    subst hes
    exact Prog.Runs.ret ⟨rfl, Or.inr ⟨k, htarget⟩⟩

theorem counts_canonicalText {mnts : List Mntent} {mnt : Mntent} (hmnt : mnt ∈ mnts) :
    Counts o (MntentStop env o mnts) [] (canonicalText env mnt.fsname) := by
  have hcanonical := @runs_getCanonicalGenericLinux o (MntentStop env o mnts) mnt.fsname
    fun k target htarget hle => ⟨mnt, hmnt, Or.inr ⟨k, target, htarget, Or.inr ⟨rfl, hle⟩⟩⟩
  unfold canonicalText
  refine Counts.silent (hcanonical.bind fun r es hr => ?_)
  obtain ⟨rfl, hr⟩ := hr
  have hstr : env.locale.mbsrtowcs r.1 = none → MntentStop env o mnts .hang := by
    intro hnone
    rcases hr with hr | ⟨k, hk⟩
    · exact ⟨mnt, hmnt, Or.inl ⟨rfl, r.1, by simp [hr], hnone⟩⟩
    · exact ⟨mnt, hmnt, Or.inr ⟨k, r.1, hk, Or.inl ⟨rfl, hnone⟩⟩⟩
  refine (runs_str hstr).bind fun text es htext => ?_
  obtain ⟨rfl, -⟩ := htext
  exact Prog.Runs.ret rfl

/-- **The section `blocks`** shows its counts, and `files/inodes` none. -/
theorem counts_sections {size total used free available : WStr} {files ffree fused : WStr} :
    Counts o E [total, used, free, available] (do
      sectionOpen "blocks"
      entries [("size", size), ("total", total), ("used", used), ("free", free), ("available", available)]
      sectionClose
      sectionOpen "files/inodes"
      entries [("total", files), ("used", fused), ("free", ffree)]
      sectionClose) := by
  intro n inBlocks
  have hsize : bytes "size" ∉ countNames := by decide
  have hfiles : bytes "files/inodes" ≠ bytes "blocks" := by decide
  have htotal : bytes "total" ∈ countNames := List.mem_cons_self
  have hused : bytes "used" ∈ countNames := by decide
  have hfree : bytes "free" ∈ countNames := by decide
  have havailable : bytes "available" ∈ countNames := by decide
  simp [Prog.picked, pickCounts, hsize, hfiles, htotal, hused, hfree, havailable]

/-! ## The routines -/

theorem counts_showMountStats (st : Option Statvfs) :
    Counts o E (countTexts dfBlocks st) (showMountStats st) := by
  cases st with
  | none =>
    have hfsid : Counts o E [] (Show.entry "fsid" unknownStr) := counts_entry (by decide)
    have hbsize : Counts o E [] (Show.entry "optimal block size" unknownStr) := counts_entry (by decide)
    exact hfsid.then fun _ => hbsize.then fun _ => counts_sections
  | some fs =>
    have hfsid : Counts o E [] (Show.entry "fsid" (fmtHex 8 fs.fsid.1 ++ fmtHex 8 fs.fsid.2)) :=
      counts_entry (by decide)
    have hbsize : Counts o E [] (Show.entry "optimal block size" (fmtU fs.bsize)) := counts_entry (by decide)
    exact hfsid.then fun _ => hbsize.then fun _ => counts_sections

/-- The sections before the counts. -/
theorem counts_device {major minor : WStr} : Counts o E [] (do
    sectionOpen "device"
    entries [("major", major), ("minor", minor)]
    sectionClose) := by
  have hmajor : Counts o E [] (Show.entry "major" major) := counts_entry (by decide)
  have hminor : Counts o E [] (Show.entry "minor" minor) := counts_entry (by decide)
  exact counts_sectionOpen.then fun _ => hmajor.then fun _ => hminor.then fun _ => counts_sectionClose

/-- **A mount of `show_mounts_generic_linux`** shows the counts of what `statvfs` answers. -/
theorem runs_showMount {mnts : List Mntent} (hwhat : what ≠ .pathconf) {mnt : Mntent} (hmnt : mnt ∈ mnts) :
    Prog.Runs o (fun _ es => ∃ st, (∃ k, o k (Call.statvfs mnt.dir) = st) ∧
      Prog.Picks pickCounts (countTexts dfBlocks st) es) (MntentStop env o mnts) (showMount env what mnt) := by
  unfold showMount
  rw [if_neg hwhat]
  refine (Prog.Runs.asked _).bind fun st ws hst => ?_
  obtain ⟨rfl, k, hst⟩ := hst
  refine Prog.Runs.mono (P := fun _ es => Prog.Picks pickCounts (countTexts dfBlocks st) es) ?_
    fun _ es hes => ⟨st, ⟨k, hst⟩, hes⟩
  change Counts o (MntentStop env o mnts) (countTexts dfBlocks st) _
  have htext : ∀ text ∈ [mnt.fsname, mnt.type, mnt.opts, bytes "unknown"],
      env.locale.mbsrtowcs text = none → MntentStop env o mnts .hang :=
    fun text hmem hnone => ⟨mnt, hmnt, Or.inl ⟨rfl, text, hmem, hnone⟩⟩
  have hfreq : Counts o (MntentStop env o mnts) [] (Show.entry "dump frequency" (fmtD mnt.freq)) :=
    counts_entry (by decide)
  have hpassno : Counts o (MntentStop env o mnts) [] (Show.entry "fsck pass number" (fmtD mnt.passno)) :=
    counts_entry (by decide)
  have hend := (counts_showMountStats st).picks_bind fun _ => @counts_sectionClose o (MntentStop env o mnts)
  rw [List.append_nil] at hend
  refine (counts_getMajorMinor _).then fun _ => counts_sectionOpen.then fun _ => ?_
  refine (counts_str (htext mnt.fsname (by simp))).then fun _ => (counts_entry (by decide)).then fun _ => ?_
  refine (counts_canonicalText hmnt).then fun _ => (counts_entry (by decide)).then fun _ => ?_
  refine (counts_str (htext mnt.type (by simp))).then fun _ => (counts_entry (by decide)).then fun _ => ?_
  refine (counts_str (htext mnt.opts (by simp))).then fun _ => (counts_entry (by decide)).then fun _ => ?_
  refine (counts_showPathconfs _).then fun _ => counts_device.then fun _ => ?_
  exact hfreq.then fun _ => hpassno.then fun _ => hend

/-- **A mount of `show_mounts_generic_bsd`** as a section. -/
theorem counts_showMntInfo (mnt : MntInfo) {opts : MbStr}
    (hE : ∀ text ∈ [mnt.mntonname, mnt.fstypename, opts], env.locale.mbsrtowcs text = none → E .hang) :
    Counts o E (countTexts dfBlocks (some mnt.stat)) (showMntInfo env mnt opts) := by
  have hfsid : Counts o E [] (Show.entry "fsid" (fmtHex 8 mnt.stat.fsid.1 ++ fmtHex 8 mnt.stat.fsid.2)) :=
    counts_entry (by decide)
  have hbsize : Counts o E [] (Show.entry "optimal block size" (fmtU mnt.stat.bsize)) := counts_entry (by decide)
  have hend := (@counts_sections o E (fmtU dfBlockSize ++ lit " bytes") (fmtU (dfBlocks mnt.stat).total)
    (fmtU (dfBlocks mnt.stat).used) (fmtU (dfBlocks mnt.stat).free) (fmtU (dfBlocks mnt.stat).available)
    (fmtU mnt.stat.files) (fmtU mnt.stat.ffree) (fmtU (wrap64 (mnt.stat.files - mnt.stat.ffree)))).picks_bind
      fun _ => @counts_sectionClose o E
  rw [List.append_nil] at hend
  refine (counts_getMajorMinor _).then fun _ => counts_sectionOpen.then fun _ => ?_
  refine (counts_str (hE mnt.mntonname (by simp))).then fun _ => (counts_entry (by decide)).then fun _ => ?_
  refine (counts_str (hE mnt.fstypename (by simp))).then fun _ => (counts_entry (by decide)).then fun _ => ?_
  refine (counts_str (hE opts (by simp))).then fun _ => (counts_entry (by decide)).then fun _ => ?_
  refine counts_device.then fun _ => ?_
  exact hfsid.then fun _ => hbsize.then fun _ => hend

/-- What `get_mount_opts_generic_bsd` returns: no text only if memory is refused. -/
theorem runs_getMountOptsGenericBsd {mntoptMap : List (String × Nat)} {mnt : MntInfo}
    (hE : (∃ k, o k Call.alloc = false) → E (.die "failed to allocate space for mount options" [])) :
    Prog.Runs o (fun opts es => es = [] ∧ (opts = none → ∃ k, o k Call.alloc = false) ∧
        ∀ text, opts = some text → text ∈ [[], mntOptions mntoptMap mnt]) E
      (getMountOptsGenericBsd mntoptMap mnt.flags) := by
  unfold getMountOptsGenericBsd
  split
  · refine (Prog.Runs.asked _).bind fun memory es hmemory => ?_
    obtain ⟨rfl, k, hk⟩ := hmemory
    cases memory with
    | false => exact Prog.Runs.ret ⟨rfl, fun _ => ⟨k, hk⟩, nofun⟩
    | true => exact Prog.Runs.ret ⟨rfl, nofun, fun text htext => by simp [← Option.some.inj htext]⟩
  · refine (runs_allocOrDie hE).bind fun _ es hes => ?_
    subst hes
    exact Prog.Runs.ret ⟨rfl, nofun, fun text htext => by simp [← Option.some.inj htext, mntOptions]⟩

/-- A round of the loop of `show_mounts_generic_bsd`. -/
theorem counts_showMountBsd {mntoptMap : List (String × Nat)} {mounts : List MntInfo} (hwhat : what ≠ .pathconf)
    {mnt : MntInfo} (hmnt : mnt ∈ mounts) :
    Counts o (MntInfoStop env o mntoptMap mounts) (countTexts dfBlocks (some mnt.stat))
      (showMountBsd env mntoptMap what mnt) := by
  unfold showMountBsd
  refine (runs_getMountOptsGenericBsd fun hrefused => Or.inr ⟨mnt, hmnt, Or.inr ⟨hrefused, Or.inl rfl⟩⟩).bind
    fun opts ws hopts => ?_
  obtain ⟨rfl, hnone, hsome⟩ := hopts
  cases opts with
  | none => exact Prog.Runs.stop (Or.inr ⟨mnt, hmnt, Or.inr ⟨hnone rfl, Or.inr rfl⟩⟩)
  | some opts =>
    have hpathconf : Counts o (MntInfoStop env o mntoptMap mounts) []
        (when (what = .all || what = .pathconf) (showPathconfs env what mnt.mntonname)) :=
      counts_when fun _ => counts_showPathconfs _
    have hsection : (decide (what = .all) || decide (what = .mounts)) = true := by
      cases what with
      | all => rfl
      | mounts => rfl
      | pathconf => exact absurd rfl hwhat
    have htext : ∀ text ∈ [mnt.mntonname, mnt.fstypename, opts], env.locale.mbsrtowcs text = none →
        MntInfoStop env o mntoptMap mounts .hang := by
      intro text hmem hnone
      refine Or.inr ⟨mnt, hmnt, Or.inl ⟨rfl, text, ?_, hnone⟩⟩
      have hopts := hsome opts rfl
      simp only [List.mem_cons, List.not_mem_nil, or_false] at hmem hopts ⊢
      rcases hmem with rfl | rfl | rfl
      · exact Or.inl rfl
      · exact Or.inr (Or.inl rfl)
      · exact Or.inr (Or.inr hopts)
    have hend := (@counts_showMntInfo env o _ mnt opts htext).picks_bind fun _ => hpathconf
    rw [List.append_nil] at hend
    simp only [hsection]
    exact hend

variable {mnts : List Mntent} {n : Nat}

/-- **A run of `show_mounts_generic_linux`** shows the counts of the mounts, one after the other. -/
theorem runs_showMountsGenericLinux (hwhat : what ≠ .pathconf) (ho : o n Call.getmntent = some mnts) :
    Prog.Leaves (fun _ es => ∃ stats,
      List.Forall₂ (fun mnt st => ∃ k, o k (Call.statvfs mnt.dir) = st) mnts stats ∧
      Prog.Picks pickCounts (stats.flatMap (countTexts dfBlocks)) es) (MntentStop env o mnts)
      ((showMountsGenericLinux env what).run o n) := by
  have hloop := @Prog.Runs.picks_forM _ _ _ _ _ _ pickCounts o (MntentStop env o mnts) _
    (fun mnt st => ∃ k, o k (Call.statvfs mnt.dir) = st) (countTexts dfBlocks) mnts (showMount env what)
    fun mnt hmnt => runs_showMount hwhat hmnt
  have hrun : (showMountsGenericLinux env what).run o n = (mnts.forM (showMount env what)).run o (n + 1) := by
    unfold showMountsGenericLinux
    rw [Prog.run_lift_bind, ho]
  rw [hrun]
  exact hloop (n + 1)

/-- **A run of `show_mounts_generic_bsd`** shows the counts of the mounts, one after the other. -/
theorem runs_showMountsGenericBsd {mntoptMap : List (String × Nat)} (hwhat : what ≠ .pathconf)
    (mounts : List MntInfo) :
    Counts o (MntInfoStop env o mntoptMap mounts)
      ((mounts.map fun mnt => some mnt.stat).flatMap (countTexts dfBlocks))
      (showMountsGenericBsd env mntoptMap what mounts) := by
  have hloop := @Prog.Runs.picks_forM _ _ _ _ _ _ pickCounts o (MntInfoStop env o mntoptMap mounts) _
    (fun mnt st => some mnt.stat = st) (countTexts dfBlocks) mounts (showMountBsd env mntoptMap what)
    fun mnt hmnt => (counts_showMountBsd hwhat hmnt).mono fun _ _ hes => ⟨_, rfl, hes⟩
  have hsome : Counts o (MntInfoStop env o mntoptMap mounts) []
      (when (mounts.length = 0) (die "unable to query mount info")) :=
    counts_when fun hnone => counts_die (Or.inl ⟨rfl, List.length_eq_zero_iff.1 (by simpa using hnone)⟩)
  refine hsome.then fun _ => hloop.mono fun _ es hes => ?_
  obtain ⟨stats, hstats, hpicks⟩ := hes
  have hmap : List.Forall₂ (· = ·) (mounts.map fun mnt => some mnt.stat) stats :=
    List.forall₂_map_left_iff.2 hstats
  rw [List.forall₂_eq_eq_eq] at hmap
  rwa [hmap]

/-! ## When the counts are right -/

theorem fmtU_injective {a b : Nat} (h : fmtU a = fmtU b) : a = b := by
  have hread := congrArg readNumber (show decimal a = decimal b from h)
  rwa [readNumber_decimal, readNumber_decimal, Option.some.injEq] at hread

theorem Blocks.texts_inj {b b' : Blocks} : b.texts = b'.texts ↔ b = b' := by
  constructor
  · intro h
    obtain ⟨total, used, free, available⟩ := b
    obtain ⟨total', used', free', available'⟩ := b'
    simp only [Blocks.texts, List.cons.injEq, and_true] at h
    obtain ⟨htotal, hused, hfree, havailable⟩ := h
    rw [fmtU_injective htotal, fmtU_injective hused, fmtU_injective hfree, fmtU_injective havailable]
  · rintro rfl
    rfl

theorem countTexts_length (f : Statvfs → Blocks) (st : Option Statvfs) : (countTexts f st).length = 4 := by
  cases st with
  | none => rfl
  | some fs => rfl

/-- **The texts are those of whole blocks exactly when all conversions are exact.** -/
theorem countTexts_iff {stats : List (Option Statvfs)} (h : ∀ fs, some fs ∈ stats → fs.InRange) :
    stats.flatMap (countTexts dfBlocks) = stats.flatMap (countTexts wholeBlocks) ↔
      ∀ fs, some fs ∈ stats → fs.Exact := by
  induction stats with
  | nil => simp
  | cons st stats ih =>
    have ih := ih fun fs hfs => h fs (List.mem_cons_of_mem _ hfs)
    have hlen : (countTexts dfBlocks st).length = (countTexts wholeBlocks st).length := by
      rw [countTexts_length, countTexts_length]
    have hparts : countTexts dfBlocks st ++ stats.flatMap (countTexts dfBlocks) =
        countTexts wholeBlocks st ++ stats.flatMap (countTexts wholeBlocks) ↔
        countTexts dfBlocks st = countTexts wholeBlocks st ∧ ∀ fs, some fs ∈ stats → fs.Exact := by
      rw [← ih]
      exact ⟨fun heq => List.append_inj heq hlen, fun ⟨hst, hstats⟩ => by rw [hst, hstats]⟩
    rw [List.flatMap_cons, List.flatMap_cons, hparts]
    cases st with
    | none => simp [countTexts]
    | some fs =>
      have hfs : countTexts dfBlocks (some fs) = countTexts wholeBlocks (some fs) ↔ fs.Exact := by
        rw [countTexts, countTexts, Blocks.texts_inj, dfBlocks_iff (h fs List.mem_cons_self)]
      rw [hfs]
      simp

/-- **The counts are those of whole blocks exactly when all conversions are exact**: those of the mounts that
`show_mounts_generic_linux` shows, in their order, and those of `show_mounts_generic_bsd`. -/
theorem showMounts_counts_iff {mntoptMap : List (String × Nat)} {mounts : List MntInfo} (hwhat : what ≠ .pathconf)
    (ho : o n Call.getmntent = some mnts) (hstatvfs : ∀ k dir fs, o k (Call.statvfs dir) = some fs → fs.InRange)
    (hmounts : ∀ mnt ∈ mounts, mnt.stat.InRange) :
    Prog.Leaves (fun _ es => ∃ stats,
      List.Forall₂ (fun mnt st => ∃ k, o k (Call.statvfs mnt.dir) = st) mnts stats ∧
        shownCounts es = stats.flatMap (countTexts dfBlocks) ∧
        (shownCounts es = stats.flatMap (countTexts wholeBlocks) ↔ ∀ fs, some fs ∈ stats → fs.Exact))
      (MntentStop env o mnts) ((showMountsGenericLinux env what).run o n) ∧
    Prog.Leaves (fun _ es =>
        shownCounts es = mounts.flatMap (fun mnt => countTexts wholeBlocks (some mnt.stat)) ↔
          ∀ mnt ∈ mounts, mnt.stat.Exact) (MntInfoStop env o mntoptMap mounts)
      ((showMountsGenericBsd env mntoptMap what mounts).run o n) := by
  constructor
  · refine (runs_showMountsGenericLinux hwhat ho).mono fun _ es hrun => ?_
    obtain ⟨stats, hstats, hpicks⟩ := hrun
    have hshown : shownCounts es = stats.flatMap (countTexts dfBlocks) := hpicks false
    have hanswers : List.Forall₂ (fun st mnt => (∃ k dir, o k (Call.statvfs dir) = st) ∧ True) stats mnts :=
      hstats.flip.imp fun st mnt ⟨k, hk⟩ => ⟨⟨k, mnt.dir, hk⟩, trivial⟩
    have hrange : ∀ fs, some fs ∈ stats → fs.InRange := by
      intro fs hfs
      obtain ⟨k, dir, hk⟩ := ((List.forall₂_and_left stats mnts).1 hanswers).1 _ hfs
      exact hstatvfs k dir fs hk
    refine ⟨stats, hstats, hshown, ?_⟩
    rw [hshown]
    exact countTexts_iff hrange
  · refine (runs_showMountsGenericBsd hwhat mounts n).mono fun _ es hpicks => ?_
    have hshown : shownCounts es = (mounts.map fun mnt => some mnt.stat).flatMap (countTexts dfBlocks) :=
      hpicks false
    have hrange : ∀ fs, some fs ∈ mounts.map (fun mnt => some mnt.stat) → fs.InRange := by
      intro fs hfs
      obtain ⟨mnt, hmnt, hst⟩ := List.mem_map.1 hfs
      exact Option.some.inj hst ▸ hmounts mnt hmnt
    have hiff := countTexts_iff hrange
    rw [← hshown, List.flatMap_map] at hiff
    refine hiff.trans ⟨fun h mnt hmnt => h _ (List.mem_map_of_mem hmnt), fun h fs hfs => ?_⟩
    obtain ⟨mnt, hmnt, hst⟩ := List.mem_map.1 hfs
    exact Option.some.inj hst ▸ h mnt hmnt

/-! ## Small blocks -/

/-- A file system of 1000 blocks of 512 bytes. -/
def smallBlocks : Statvfs where
  bsize := 512
  blocks := 1000
  bfree := 400
  bavail := 300
  files := 0
  ffree := 0
  fsid := (0, 0)

theorem smallBlocks_inRange : smallBlocks.InRange := ⟨by decide, by decide, by decide⟩

/-- The mount of it on Linux. -/
def smallMntent : Mntent := ⟨bytes "/dev/sda1", bytes "/mnt", bytes "vfat", bytes "rw", 0, 0⟩

/-- The mount of it on a BSD. -/
def smallMntInfo : MntInfo := ⟨smallBlocks, 0, bytes "/mnt", bytes "/dev/sda1", bytes "msdosfs"⟩

/-- A system with this file system, and with memory. -/
def mountOracle : Prog.Oracle Call := fun _ β c => match β, c with
  | _, .getmntent => some [smallMntent]
  | _, .statvfs _ => some smallBlocks
  | _, .alloc => true
  | _, c => c.answer

theorem showMounts_counts_iff_small :
    Prog.Leaves (fun _ es => ∃ stats,
        List.Forall₂ (fun mnt st => ∃ k, mountOracle k (Call.statvfs mnt.dir) = st) [smallMntent] stats ∧
        shownCounts es = stats.flatMap (countTexts dfBlocks) ∧
        (shownCounts es = stats.flatMap (countTexts wholeBlocks) ↔ ∀ fs, some fs ∈ stats → fs.Exact))
      (MntentStop default mountOracle [smallMntent])
        ((showMountsGenericLinux default .mounts).run mountOracle 0) ∧
    Prog.Leaves (fun _ es =>
        shownCounts es = [smallMntInfo].flatMap (fun mnt => countTexts wholeBlocks (some mnt.stat)) ↔
          ∀ mnt ∈ [smallMntInfo], mnt.stat.Exact) (MntInfoStop default mountOracle [] [smallMntInfo])
      ((showMountsGenericBsd default [] .mounts [smallMntInfo]).run mountOracle 0) :=
  showMounts_counts_iff (by decide) rfl (fun _ _ _ h => Option.some.inj h ▸ smallBlocks_inRange)
    (List.forall_mem_singleton.2 smallBlocks_inRange)

/-- **500 KiB are shown as nothing**, by both routines. -/
theorem showMounts_small_lost : smallBlocks.InRange ∧
    ((showMountsGenericLinux default .mounts).run mountOracle 0).toOption.map (fun r => shownCounts r.2.1) =
      some [lit "0", lit "0", lit "0", lit "0"] ∧
    ((showMountsGenericBsd default [] .mounts [smallMntInfo]).run mountOracle 0).toOption.map
      (fun r => shownCounts r.2.1) = some [lit "0", lit "0", lit "0", lit "0"] ∧
    countTexts wholeBlocks (some smallBlocks) = [lit "500", lit "300", lit "200", lit "150"] :=
  ⟨smallBlocks_inRange, by decide +kernel, by decide +kernel, by decide +kernel⟩

end Show

end Procenv
