import Procenv.Model.Calls
import Procenv.Model.Display
import Procenv.Model.Libs
import Procenv.Proof.Layout
import Procenv.Text.Ranges

/-!
# The libraries of an image

An image is a header and load commands of different lengths, one after the other; those that name a library have
the offset of its path and two versions. `handle_load_cmds` walks over them by their lengths.

* `readVersion_versionText`: a version is read back from its text.
* `showLibrary_run`, `loadCmds_run`: the walk stays in the image, and shows the libraries in their order.
* `showLibs_darwin`: **the libraries of the executable are read back from the calls of `show_libs`**.
-/

namespace Procenv

open Text Data Interact

namespace Show

variable {env : Env} {o : Prog.Oracle Call} {n : Nat}

/-! ## Versions -/

/-- The text of a version. -/
def versionText (version : Word) : WStr :=
  if version = -1 then lit "(unknown)"
  else [46].intercalate [decimal (version.toNat / 2 ^ 16), decimal (version.toNat / 2 ^ 8 % 2 ^ 8),
    decimal (version.toNat % 2 ^ 8)]

/-- The version that a text stands for. -/
def readVersion (t : WStr) : Option Word :=
  if t = lit "(unknown)" then some (-1)
  else match t.splitOn 46 with
    | [major, minor, patch] => do
      return BitVec.ofNat 32 ((← readNumber major) * 2 ^ 16 + (← readNumber minor) * 2 ^ 8 + (← readNumber patch))
    | _ => none

/-- **A version is read back from its text.** -/
theorem readVersion_versionText (version : Word) : readVersion (versionText version) = some version := by
  by_cases h : version = -1
  · subst h
    rfl
  · rw [versionText, if_neg h]
    have hdot (k : Nat) : (46 : CodePoint) ∉ decimal k := not_mem_decimal rfl
    have hsplit : ∀ ls : List WStr, (∀ l ∈ ls, 46 ∉ l) → ls ≠ [] → ([46].intercalate ls).splitOn 46 = ls :=
      fun ls => List.splitOn_intercalate 46
    have hfields := hsplit [decimal (version.toNat / 2 ^ 16), decimal (version.toNat / 2 ^ 8 % 2 ^ 8),
      decimal (version.toNat % 2 ^ 8)] (by simp [hdot]) (by simp)
    have hunknown : [46].intercalate [decimal (version.toNat / 2 ^ 16), decimal (version.toNat / 2 ^ 8 % 2 ^ 8),
        decimal (version.toNat % 2 ^ 8)] ≠ lit "(unknown)" := by
      intro heq
      have hone : (lit "(unknown)").splitOn 46 = [lit "(unknown)"] := by decide
      rw [heq, hone] at hfields
      exact absurd (congrArg List.length hfields) (by simp)
    have hparts : version.toNat / 2 ^ 16 * 2 ^ 16 + version.toNat / 2 ^ 8 % 2 ^ 8 * 2 ^ 8 +
      version.toNat % 2 ^ 8 =
        version.toNat := by omega
    rw [readVersion, if_neg hunknown, hfields]
    simp only [readNumber_decimal, Option.bind_eq_bind, Option.bind_some, Option.pure_def, hparts,
      BitVec.ofNat_toNat, BitVec.setWidth_eq]

theorem getMachoVersion_decodes (hloc : env.locale.Ascii) (version : Word) :
    env.locale.mbsrtowcs (getMachoVersion version) = some (versionText version) := by
  by_cases h : version = -1
  · rw [getMachoVersion, versionText, if_pos h, if_pos h]
    exact hloc.decodes _ (by decide)
  · have hdigit {k : Nat} {c : Char} (hc : c ∈ (toString k).toList) : 0x20 ≤ c.toNat ∧ c.toNat ≤ 0x7E := by
      have hd := Nat.isDigit_of_mem_toDigits (by decide) (by decide) (Nat.toList_repr ▸ hc)
      have hbounds : 48 ≤ c.toNat ∧ c.toNat ≤ 57 := by
        simpa [Char.isDigit, UInt32.le_iff_toNat_le] using hd
      omega
    have hdot {c : Char} (hc : c ∈ ".".toList) : 0x20 ≤ c.toNat ∧ c.toNat ≤ 0x7E := by
      obtain rfl : c = '.' := by simpa using hc
      decide
    have hmajor : (version >>> 16).toNat = version.toNat / 2 ^ 16 := by
      rw [BitVec.toNat_ushiftRight, Nat.shiftRight_eq_div_pow]
    have hminor : (version >>> 8 &&& 0xff).toNat = version.toNat / 2 ^ 8 % 2 ^ 8 := by
      rw [BitVec.toNat_and, BitVec.toNat_ushiftRight, Nat.shiftRight_eq_div_pow]
      exact Nat.and_two_pow_sub_one_eq_mod _ 8
    have hpatch : (version &&& 0xff).toNat = version.toNat % 2 ^ 8 := by
      rw [BitVec.toNat_and]
      exact Nat.and_two_pow_sub_one_eq_mod _ 8
    rw [getMachoVersion, versionText, if_neg h, if_neg h]
    simp only [hmajor, hminor, hpatch]
    rw [hloc.decodes]
    · simp [lit, decimal, List.intercalate_cons_cons, CodePoint.ofChar]
    · refine List.all_eq_true.2 fun c hc => decide_eq_true ?_
      simp only [String.toList_append, List.mem_append] at hc
      rcases hc with (((hc | hc) | hc) | hc) | hc
      · exact hdigit hc
      · exact hdot hc
      · exact hdigit hc
      · exact hdot hc
      · exact hdigit hc

/-! ## Images -/

/-- The four bytes of a word. -/
def wordBytes (env : Env) (v : Word) : List UInt8 := inOrder env.build.bigEndian (toBytes 4 v.toNat)

/-- The bytes of words, one after the other. -/
def wordsBytes (env : Env) (vs : List Word) : List UInt8 := vs.flatMap (wordBytes env)

/-- A library that a load command names: the fields of its `struct dylib`, what lies before the path, and behind
its terminator. -/
structure Library where
  timestamp : Word
  currentVersion : Word
  compatibilityVersion : Word
  gap : MbStr
  path : MbStr
  pad : MbStr
  plain : 0 ∉ path

/-- A load command: one that names a library, or another one. -/
inductive LoadCommand
  | library (cmd : Word) (l : Library)
  | other (cmd : Word) (payload : List UInt8)

/-- The words of a library, the first of which is where its path is. -/
def Library.words (l : Library) : List Word :=
  [BitVec.ofNat 32 (24 + l.gap.length), l.timestamp, l.currentVersion, l.compatibilityVersion]

namespace LoadCommand

def cmd : LoadCommand → Word
  | library cmd _ | other cmd _ => cmd

def payload (env : Env) : LoadCommand → List UInt8
  | library _ l => wordsBytes env l.words ++ (l.gap ++ (l.path ++ 0 :: l.pad))
  | other _ payload => payload

/-- The size of a command, with the two words before the payload. -/
def cmdsize (env : Env) (c : LoadCommand) : Nat := 8 + (c.payload env).length

/-- The bytes of a command. -/
def bytes (env : Env) (c : LoadCommand) : List UInt8 :=
  wordsBytes env [c.cmd, BitVec.ofNat 32 (c.cmdsize env)] ++ c.payload env

/-- The size fits, and the commands that are considered are those that name a library. -/
structure Valid (env : Env) (c : LoadCommand) : Prop where
  fits : c.cmdsize env < 2 ^ 32
  considered : consider env c.cmd = match c with | library _ _ => true | other _ _ => false

end LoadCommand

/-- An image in memory. -/
structure Image where
  magic : Word
  /-- `cputype`, `cpusubtype` and `filetype`. -/
  types : List UInt8
  /-- `sizeofcmds`, `flags` and what a header of 64 bits has behind them. -/
  flags : List UInt8
  cmds : List LoadCommand
  behind : Buffer UInt8

namespace Image

/-- The bytes of the header. -/
def header (env : Env) (i : Image) : List UInt8 :=
  wordBytes env i.magic ++ (i.types ++ (wordBytes env (BitVec.ofNat 32 i.cmds.length) ++ i.flags))

/-- The cells from the header on. -/
def memory (env : Env) (i : Image) : Buffer UInt8 :=
  (i.header env).map some ++ ((i.cmds.flatMap (LoadCommand.bytes env)).map some ++ i.behind)

structure Valid (env : Env) (i : Image) : Prop where
  types : i.types.length = 12
  count : i.cmds.length < 2 ^ 32
  header : machHeaderSize env i.magic = 20 + i.flags.length
  cmds : ∀ c ∈ i.cmds, c.Valid env

end Image

@[simp] theorem length_wordBytes (v : Word) : (wordBytes env v).length = 4 := by simp [wordBytes]

theorem wordOf_wordBytes (v : Word) : wordOf env.build.bigEndian (wordBytes env v) = v := by
  rw [wordOf, wordBytes, inOrder_inOrder, ofBytes_toBytes v.isLt, BitVec.ofNat_toNat, BitVec.setWidth_eq]

@[simp] theorem length_wordsBytes (vs : List Word) : (wordsBytes env vs).length = 4 * vs.length := by
  simp [wordsBytes, List.length_flatMap, Nat.mul_comm]

/-- **A word is loaded** from where it stands among others. -/
theorem load32_words {m : Buffer UInt8} {vs : List Word} {pre post : Buffer UInt8}
    (hm : m = pre ++ ((wordsBytes env vs).map some ++ post)) {k : Nat} (hk : k < vs.length) :
    load32 env m (pre.length + 4 * k) = pure (vs.get ⟨k, hk⟩) := by
  have hsplit : wordsBytes env vs = wordsBytes env (vs.take k) ++ (wordBytes env (vs.get ⟨k, hk⟩) ++
      wordsBytes env (vs.drop (k + 1))) := by
    have hvs : vs = vs.take k ++ vs.get ⟨k, hk⟩ :: vs.drop (k + 1) := by simp
    calc wordsBytes env vs = wordsBytes env (vs.take k ++ vs.get ⟨k, hk⟩ :: vs.drop (k + 1)) :=
          congrArg (wordsBytes env) hvs
      _ = _ := by simp only [wordsBytes, List.flatMap_append, List.flatMap_cons]
  have hload := Buffer.load_append (pre ++ (wordsBytes env (vs.take k)).map some) (wordBytes env (vs.get ⟨k, hk⟩))
    ((wordsBytes env (vs.drop (k + 1))).map some ++ post)
  have hplace : (pre ++ (wordsBytes env (vs.take k)).map some).length = pre.length + 4 * k := by
    simp only [List.length_append, List.length_map, length_wordsBytes, List.length_take]
    omega
  have hmem : m = pre ++ (wordsBytes env (vs.take k)).map some ++ (wordBytes env (vs.get ⟨k, hk⟩)).map some ++
      ((wordsBytes env (vs.drop (k + 1))).map some ++ post) := by
    rw [hm, hsplit]
    simp only [List.map_append, List.append_assoc]
  rw [← hmem, hplace, length_wordBytes] at hload
  have hword : (pure (wordOf env.build.bigEndian (wordBytes env (vs.get ⟨k, hk⟩))) : Show Word) =
      pure (vs.get ⟨k, hk⟩) := by
    rw [wordOf_wordBytes]
  rw [load32, hload]
  exact hword

/-! ## The walk -/

/-- A path as it is shown. -/
def Library.widePath (env : Env) (l : Library) : WStr := (env.locale.mbsrtowcs l.path).getD []

/-- What is shown of a library behind its address. -/
def Library.shown (env : Env) (l : Library) : Calls :=
  .entry (Procenv.bytes "path") (l.widePath env) (.group (.sect (Procenv.bytes "versions"))
    (.entry (Procenv.bytes "current") (versionText l.currentVersion)
      (.entry (Procenv.bytes "compatibility") (versionText l.compatibilityVersion) .nil)) .nil)

/-- The section of a library, with its name and the address that `dlopen` finds. -/
def Library.calls (env : Env) (name : MbStr) (addr : Option Nat) (l : Library) : Calls :=
  .group (.sect name)
    (match addr with
      | none => l.shown env
      | some addr => .entry (Procenv.bytes "address") (lit "0x" ++ fmtX addr) (l.shown env)) .nil

/-- Going on with a value. -/
theorem ret_bind {α β : Type} (a : α) (f : α → Show β) : (pure a : Show α) >>= f = f a := rfl

theorem str_eq {s : MbStr} {w : WStr} (h : env.locale.mbsrtowcs s = some w) : str env s = pure w := by
  rw [str, expandStr, h]
  rfl

/-- **A library is shown** from where its load command is. -/
theorem showLibrary_run {l : Library} {cmd : Word} {dlopen : MbStr → Option Nat} (hloc : env.locale.Ascii)
    (hpath : (env.locale.mbsrtowcs l.path).isSome) (hvalid : (LoadCommand.library cmd l).Valid env)
    {m pre post : Buffer UInt8} (hm : m = pre ++ (((LoadCommand.library cmd l).bytes env).map some ++ post)) :
    (showLibrary env dlopen m pre.length).run o n =
      .ok ((), (Calls.group .object
        (l.calls env (basename (if o n .alloc then some l.path else none)) (dlopen l.path)) .nil).events,
        n + 1) := by
  let size : Word := BitVec.ofNat 32 ((LoadCommand.library cmd l).cmdsize env)
  have hbytes : (LoadCommand.library cmd l).bytes env =
      wordsBytes env (cmd :: size :: l.words) ++ (l.gap ++ (l.path ++ 0 :: l.pad)) := by
    simp [LoadCommand.bytes, LoadCommand.payload, LoadCommand.cmd, wordsBytes, size]
  have hwords : m = pre ++ ((wordsBytes env (cmd :: size :: l.words)).map some ++
      ((l.gap ++ (l.path ++ 0 :: l.pad)).map some ++ post)) := by
    rw [hm, hbytes]
    simp only [List.map_append, List.append_assoc]
  have hload {k : Nat} (hk : k < 6) := load32_words hwords (k := k) hk
  have hoffset : load32 env m (pre.length + 8) = pure (BitVec.ofNat 32 (24 + l.gap.length)) :=
    hload (k := 2) (by omega)
  have htimestamp : load32 env m (pre.length + 12) = pure l.timestamp := hload (k := 3) (by omega)
  have hcurrent : load32 env m (pre.length + 16) = pure l.currentVersion := hload (k := 4) (by omega)
  have hcompat : load32 env m (pre.length + 20) = pure l.compatibilityVersion := hload (k := 5) (by omega)
  -- the path is where the offset says
  have htoNat : (BitVec.ofNat 32 (24 + l.gap.length)).toNat = 24 + l.gap.length := by
    have hfits := hvalid.fits
    simp only [LoadCommand.cmdsize, LoadCommand.payload, List.length_append, length_wordsBytes, Library.words,
      List.length_cons] at hfits
    exact Nat.mod_eq_of_lt (by omega)
  have hstring : Buffer.string 0 (m.drop (pre.length + (24 + l.gap.length))) = some l.path := by
    let front := wordsBytes env (cmd :: size :: l.words) ++ l.gap
    have hfront : m = (pre ++ front.map some) ++ (l.path.map some ++ some 0 :: (l.pad.map some ++ post)) := by
      rw [hwords]
      simp [front]
    have hlen : pre.length + (24 + l.gap.length) = (pre ++ front.map some).length := by
      simp [front, Library.words]
    rw [hfront, hlen, List.drop_left]
    exact Buffer.string_map l.plain _
  obtain ⟨w, hw⟩ := Option.isSome_iff_exists.1 hpath
  obtain rfl : l.widePath env = w := by rw [Library.widePath, hw, Option.getD_some]
  rw [showLibrary, hoffset, ret_bind, htimestamp, ret_bind, hcurrent, ret_bind, hcompat, ret_bind, htoNat,
    hstring, access, ofExcept, ret_bind, str_eq hw, str_eq (getMachoVersion_decodes hloc l.currentVersion),
    str_eq (getMachoVersion_decodes hloc l.compatibilityVersion)]
  cases dlopen l.path with
  | none => rfl
  | some addr => rfl

/-- The libraries of load commands. -/
def libraries (cmds : List LoadCommand) : List Library :=
  cmds.filterMap fun c => match c with
    | .library _ l => some l
    | .other _ _ => none

/-- What is shown of load commands from the `i`-th on, after `n` questions. -/
def libsCalls (env : Env) (dlopen : Nat → MbStr → Option Nat) (o : Prog.Oracle Call) :
    (i n : Nat) → List LoadCommand → Calls
  | _, _, [] => .nil
  | i, n, .other _ _ :: cmds => libsCalls env dlopen o (i + 1) n cmds
  | i, n, .library _ l :: cmds =>
    .group .object (l.calls env (basename (if o n .alloc then some l.path else none)) (dlopen i l.path))
      (libsCalls env dlopen o (i + 1) (n + 1) cmds)

/-- **The walk stays in the image**, whatever lies behind the commands, and shows the libraries in their order. -/
theorem loadCmds_run {dlopen : Nat → MbStr → Option Nat} {m post : Buffer UInt8} (hloc : env.locale.Ascii)
    {cmds : List LoadCommand} (hvalid : ∀ c ∈ cmds, c.Valid env)
    (hpaths : ∀ l ∈ libraries cmds, (env.locale.mbsrtowcs l.path).isSome) :
    ∀ {pre : Buffer UInt8} {i n : Nat}, m = pre ++ ((cmds.flatMap (LoadCommand.bytes env)).map some ++ post) →
      (loadCmds env dlopen m cmds.length i pre.length).run o n =
        .ok ((), (libsCalls env dlopen o i n cmds).events, n + (libraries cmds).length) := by
  induction cmds with
  | nil => exact fun _ => rfl
  | cons c cmds ih =>
    intro pre i n hm
    have hc := hvalid c List.mem_cons_self
    have hone : m = pre ++ ((c.bytes env).map some ++
      ((cmds.flatMap (LoadCommand.bytes env)).map some ++ post)) := by
      rw [hm]
      simp
    have hwords : m = pre ++ ((wordsBytes env [c.cmd, BitVec.ofNat 32 (c.cmdsize env)]).map some ++
        ((c.payload env).map some ++ ((cmds.flatMap (LoadCommand.bytes env)).map some ++ post))) := by
      rw [hone, LoadCommand.bytes]
      simp
    have hcmd : load32 env m pre.length = pure c.cmd := load32_words hwords (k := 0) (by simp)
    have hsize : load32 env m (pre.length + 4) = pure (BitVec.ofNat 32 (c.cmdsize env)) :=
      load32_words hwords (k := 1) (by simp)
    -- the next command is behind this one
    have hnext : pre.length + (BitVec.ofNat 32 (c.cmdsize env)).toNat =
      (pre ++ (c.bytes env).map some).length := by
      have htoNat : (BitVec.ofNat 32 (c.cmdsize env)).toNat = c.cmdsize env := Nat.mod_eq_of_lt hc.fits
      rw [htoNat]
      simp [LoadCommand.bytes, LoadCommand.cmdsize]
    have hrest : m = (pre ++ (c.bytes env).map some) ++
      ((cmds.flatMap (LoadCommand.bytes env)).map some ++ post) := by
      rw [hone, List.append_assoc]
    have hcmds := fun c' hc' => hvalid c' (List.mem_cons_of_mem c hc')
    rw [List.length_cons, loadCmds, hcmd, ret_bind, hc.considered]
    cases c with
    | other cmd payload =>
      change (load32 env m (pre.length + 4) >>= fun cmdsize =>
        loadCmds env dlopen m cmds.length (i + 1) (pre.length + cmdsize.toNat)).run o n = _
      rw [hsize, ret_bind, hnext]
      exact ih hcmds hpaths hrest
    | library cmd l =>
      have hlib := @showLibrary_run env o n l cmd (dlopen i) hloc (hpaths l List.mem_cons_self) hc m pre _ hone
      have htail := ih hcmds (fun l' hl' => hpaths l' (List.mem_cons_of_mem l hl')) hrest
        (i := i + 1) (n := n + 1)
      change (showLibrary env (dlopen i) m pre.length >>= fun _ =>
        load32 env m (pre.length + 4) >>= fun cmdsize =>
        loadCmds env dlopen m cmds.length (i + 1) (pre.length + cmdsize.toNat)).run o n = _
      rw [Prog.run_bind, hlib, hsize]
      change ((loadCmds env dlopen m cmds.length (i + 1)
        (pre.length + (BitVec.ofNat 32 ((LoadCommand.library cmd l).cmdsize env)).toNat)).run o (n + 1)).map _ = _
      rw [hnext, htail]
      simp [libsCalls, libraries, Except.map, Calls.events, Nat.add_comm, Nat.add_assoc]

/-! ## Reading the libraries -/

/-- The value of the first entry of a name. -/
def valueOf (name : MbStr) : Calls → Option WStr
  | .nil => none
  | .entry name' value next => if name' = name then some value else valueOf name next
  | .group _ _ next => valueOf name next

/-- The calls in the first section of a name. -/
def sectionOf (name : MbStr) : Calls → Option Calls
  | .nil => none
  | .entry _ _ next => sectionOf name next
  | .group g kids next => if g = .sect name then some kids else sectionOf name next

/-- The path and the versions that the calls of an object tell. -/
def readLibrary : Calls → Option (WStr × Word × Word)
  | .group (.sect _) kids .nil => do
    let path ← valueOf (bytes "path") kids
    let versions ← sectionOf (bytes "versions") kids
    let current ← readVersion (← valueOf (bytes "current") versions)
    let compatibility ← readVersion (← valueOf (bytes "compatibility") versions)
    return (path, current, compatibility)
  | _ => none

/-- The libraries that the calls of a container tell. -/
def readLibraries : Calls → Option (List (WStr × Word × Word))
  | .nil => some []
  | .group .object kids next => do return (← readLibrary kids) :: (← readLibraries next)
  | _ => none

/-- A library as it is read. -/
def Library.told (env : Env) (l : Library) : WStr × Word × Word :=
  (l.widePath env, l.currentVersion, l.compatibilityVersion)

theorem readLibrary_calls (name : MbStr) (addr : Option Nat) (l : Library) :
    readLibrary (l.calls env name addr) = some (l.told env) := by
  have hpath : valueOf (bytes "path") (l.shown env) = some (l.widePath env) := rfl
  have hversions : sectionOf (bytes "versions") (l.shown env) =
      some (.entry (bytes "current") (versionText l.currentVersion)
        (.entry (bytes "compatibility") (versionText l.compatibilityVersion) .nil)) := rfl
  -- the address comes first, and the version of the library before the compatible one
  have hname : bytes "address" ≠ bytes "path" := by decide
  have hother : bytes "current" ≠ bytes "compatibility" := by decide
  have hcurrent := readVersion_versionText l.currentVersion
  have hcompat := readVersion_versionText l.compatibilityVersion
  cases addr with
  | none => simp [Library.calls, readLibrary, hpath, hversions, valueOf, hother, hcurrent, hcompat, Library.told]
  | some addr =>
    simp [Library.calls, readLibrary, hpath, hversions, valueOf, sectionOf, hname, hother, hcurrent, hcompat,
      Library.told]

theorem readLibraries_libsCalls {dlopen : Nat → MbStr → Option Nat} {cmds : List LoadCommand} :
    ∀ {i n : Nat}, readLibraries (libsCalls env dlopen o i n cmds) =
      some ((libraries cmds).map (Library.told env)) := by
  induction cmds with
  | nil => exact rfl
  | cons c cmds ih =>
    intro i n
    cases c with
    | other cmd payload => exact ih
    | library cmd l =>
      rw [libsCalls, readLibraries, readLibrary_calls, ih]
      rfl

theorem libsCalls_fits {dlopen : Nat → MbStr → Option Nat} {cmds : List LoadCommand} :
    ∀ {i n : Nat}, (libsCalls env dlopen o i n cmds).fits .json true := by
  induction cmds with
  | nil => exact rfl
  | cons c cmds ih =>
    intro i n
    cases c with
    | other cmd payload => exact ih
    | library cmd l =>
      have hkids : ∀ name addr, (l.calls env name addr).fits .json false := by
        intro name addr
        cases addr <;> rfl
      simp [libsCalls, Calls.fits, Group.isObject, Group.isArray, hkids, ih]

/-- **An image is walked** from its header on. -/
theorem handleLoadCmds_run {dlopen : Nat → MbStr → Option Nat} {i : Image} (hloc : env.locale.Ascii)
    (hvalid : i.Valid env) (hpaths : ∀ l ∈ libraries i.cmds, (env.locale.mbsrtowcs l.path).isSome) :
    (handleLoadCmds env dlopen (some (i.memory env))).run o n =
      .ok ((), (libsCalls env dlopen o 0 n i.cmds).events, n + (libraries i.cmds).length) := by
  have hone (v : Word) : wordsBytes env [v] = wordBytes env v := by simp [wordsBytes]
  let count : Word := BitVec.ofNat 32 i.cmds.length
  let cmds : Buffer UInt8 := (i.cmds.flatMap (LoadCommand.bytes env)).map some ++ i.behind
  have hmem : i.memory env = [] ++ ((wordsBytes env [i.magic]).map some ++
      ((i.types ++ (wordBytes env count ++ i.flags)).map some ++ cmds)) := by
    rw [hone, Image.memory, Image.header]
    simp only [List.map_append, List.append_assoc, List.nil_append, count, cmds]
  have hmem' : i.memory env = (wordBytes env i.magic ++ i.types).map some ++
      ((wordsBytes env [count]).map some ++ (i.flags.map some ++ cmds)) := by
    rw [hone, Image.memory, Image.header]
    simp only [List.map_append, List.append_assoc, count, cmds]
  have hmagic : load32 env (i.memory env) 0 = pure i.magic := load32_words hmem (k := 0) (by simp)
  have hcount : load32 env (i.memory env) 16 = pure count := by
    have hplace : ((wordBytes env i.magic ++ i.types).map some : Buffer UInt8).length = 16 := by
      simp [hvalid.types]
    rw [← hplace]
    exact load32_words hmem' (k := 0) (by simp)
  have htoNat : count.toNat = i.cmds.length := Nat.mod_eq_of_lt hvalid.count
  have hstart : machHeaderSize env i.magic = ((i.header env).map some).length := by
    simp [Image.header, hvalid.header, hvalid.types]
    omega
  rw [handleLoadCmds, hcount, ret_bind]
  by_cases hnone : count = 0
  · -- without commands the header's size does not matter
    rw [if_pos hnone]
    have hnil : i.cmds = [] := by
      rw [hnone] at htoNat
      exact List.length_eq_zero_iff.1 htoNat.symm
    rw [hnil]
    rfl
  · rw [if_neg hnone, hmagic, ret_bind, htoNat, hstart]
    exact @loadCmds_run env o dlopen (i.memory env) i.behind hloc i.cmds hvalid.cmds hpaths _ 0 n rfl

/-- **The libraries of the executable are read back** from what `show_libs` shows on Darwin: whatever the other
images are and the other load commands, and whatever lies in memory between and behind them. -/
theorem showLibs_darwin {dlopen : Nat → MbStr → Option Nat} {path : MbStr}
    {images : List (Option MbStr × Option (Buffer UInt8))} {i : Image} (hloc : env.locale.Ascii)
    (hfind : images.find? (fun image => image.1 = some path) = some (some path, some (i.memory env)))
    (hvalid : i.Valid env) (hpaths : ∀ l ∈ libraries i.cmds, (env.locale.mbsrtowcs l.path).isSome) :
    ∃ calls : Calls,
      (underContainer "libraries" (showLibsDarwin env dlopen (some path) images)).run o n =
        .ok ((), (Calls.group (.cont (bytes "libraries")) calls .nil).events, n + (libraries i.cmds).length) ∧
      calls.fits .json true ∧
      readLibraries calls = some ((libraries i.cmds).map (Library.told env)) := by
  refine ⟨libsCalls env dlopen o 0 n i.cmds, ?_, libsCalls_fits, readLibraries_libsCalls⟩
  have hwalk := @handleLoadCmds_run env o n dlopen i hloc hvalid hpaths
  have hshow : showLibsDarwin env dlopen (some path) images =
    handleLoadCmds env dlopen (some (i.memory env)) := by
    rw [showLibsDarwin, hfind]
  rw [hshow]
  change ((handleLoadCmds env dlopen (some (i.memory env)) >>= fun _ => containerClose).run o n).map _ = _
  rw [Prog.run_bind, hwalk]
  rfl

/-- A build for Darwin, as far as the image below needs it. -/
def darwinBuild : Env :=
  { (default : Env) with
    build := { (default : Build) with
      value := fun const => match const with
        | "LC_ID_DYLIB" => 0xd
        | "LC_LOAD_DYLIB" => 0xc
        | "LC_LOAD_WEAK_DYLIB" => 0x80000018
        | "LC_REEXPORT_DYLIB" => 0x8000001f
        | "LC_LOAD_UPWARD_DYLIB" => 0x80000023
        | "LC_LAZY_LOAD_DYLIB" => 0x20
        | "MH_MAGIC_64" => 0xfeedfacf
        | "MH_CIGAM_64" => 0xcffaedfe
        | _ => 0
      sizeof := fun type => if type = "struct mach_header_64" then 32 else 28 } }

/-- An executable with a UUID and one library. -/
def smallImage : Image where
  magic := 0xfeedfacf
  types := List.replicate 12 0
  flags := List.replicate 12 0
  cmds := [.other 0x1b (List.replicate 16 7),
    .library 0xc ⟨2, 0x050c0100, 0x00010000, [], bytes "/usr/lib/libSystem.B.dylib",
      List.replicate 5 0, by decide⟩]
  behind := []

theorem showLibs_darwin_one :
    let o : Prog.Oracle Call := fun _ _ c => c.answer
    ∃ calls : Calls,
      (underContainer "libraries" (showLibsDarwin darwinBuild (fun _ _ => none) (some (bytes "/bin/procenv"))
        [(none, none), (some (bytes "/bin/procenv"), some (smallImage.memory darwinBuild))])).run o 0 =
          .ok ((), (Calls.group (.cont (bytes "libraries")) calls .nil).events, 1) ∧
      calls.fits .json true ∧
      readLibraries calls = some [(lit "/usr/lib/libSystem.B.dylib", 0x050c0100, 0x00010000)] := by
  intro o
  have hvalid : smallImage.Valid darwinBuild := by
    refine ⟨rfl, by decide, rfl, ?_⟩
    intro c hc
    simp only [smallImage, List.mem_cons, List.not_mem_nil, or_false] at hc
    obtain rfl | rfl := hc
    · exact ⟨by decide, by decide⟩
    · exact ⟨by decide, by decide⟩
  have hpath : posixLocale.mbsrtowcs (bytes "/usr/lib/libSystem.B.dylib") =
    some (lit "/usr/lib/libSystem.B.dylib") :=
    posixLocale_ascii.decodes _ (by decide)
  obtain ⟨calls, hrun, hfits, hread⟩ :=
    @showLibs_darwin darwinBuild o 0 (fun _ _ => none) (bytes "/bin/procenv")
      [(none, none), (some (bytes "/bin/procenv"), some (smallImage.memory darwinBuild))] smallImage
      posixLocale_ascii (by simp) hvalid (by
        intro l hl
        obtain rfl : l = _ := by simpa [smallImage, libraries] using hl
        exact Option.isSome_iff_exists.2 ⟨_, hpath⟩)
  refine ⟨calls, hrun, hfits, hread.trans ?_⟩
  simp only [smallImage, libraries, List.filterMap_cons, List.filterMap_nil, List.map_cons, List.map_nil,
    Library.told, Library.widePath]
  change some [((posixLocale.mbsrtowcs (bytes "/usr/lib/libSystem.B.dylib")).getD [], _, _)] = _
  rw [hpath]
  rfl

end Show

end Procenv
