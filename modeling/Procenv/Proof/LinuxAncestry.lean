import Procenv.Data.Lineage
import Procenv.Model.Ancestry
import Procenv.Proof.Cgroups

/-!
# The walk to the ancestors on Linux

The process table is a directory: a `status` file for each task, with the fields in lines of which the
loop reads two. The walk ends at pid 1, or with `unknown` where a file is missing, and its text is the way
to there (`Ascent`).

* `readStatus_status`: the two fields are read from a file, in whatever other lines they stand.
* `walkLinux_iff`: **when the walk ends, and with what text**.
* `ascent_of_lineage`: without cycles it does.
* `showProcBranch_walk`: the text is that of the entry `ancestry` that `show_proc` makes.
-/

namespace Procenv.Ancestry

open Data Show

/-! ## The files -/

/-- The digits of a pid. -/
def digits (pid : Nat) : MbStr := fmtPid pid

/-- A line that `fgets` reads as a whole, and that is a string. -/
structure PlainLine (l : MbStr) : Prop where
  plain : ∀ b ∈ l, b ≠ 0 ∧ b ≠ 10
  short : l.length + 1 < procenvBuffer

/-- What can be checked of a given line. -/
theorem PlainLine.of_all {l : MbStr} (h : l.all (fun b => b != 0 && b != 10) = true)
    (hshort : l.length + 1 < procenvBuffer) :
    PlainLine l := ⟨fun b hb => by simpa using List.all_eq_true.1 h b hb, hshort⟩

/-- A line of another field. -/
structure OtherLine (l : MbStr) : Prop extends PlainLine l where
  name : ¬ bytes "Name:" <+: l
  ppid : ¬ bytes "PPid:" <+: l

/-- A task and its `status` file: the name, the parent, the lines around the name and what follows the parent. -/
structure Task where
  pid : Nat
  comm : MbStr
  ppid : Nat
  before : List MbStr
  between : List MbStr
  after : MbStr
  commLine : PlainLine (bytes "Name:\t" ++ comm)
  ppidShort : ppid < 10 ^ taskCommNameLen
  others : ∀ l ∈ before ++ between, OtherLine l

/-- Lines with their newlines. -/
def nlLines (ls : List MbStr) : MbStr := ls.flatMap (· ++ [10])

/-- The `status` file. -/
def Task.status (t : Task) : MbStr :=
  nlLines (t.before ++ (bytes "Name:\t" ++ t.comm) :: t.between ++ [bytes "PPid:\t" ++ digits t.ppid]) ++ t.after

/-! ## Digits -/

theorem digits_eq (n : Nat) : digits n = (Nat.toDigits 10 n).map fun c => UInt8.ofNat c.toNat := by
  change bytes (toString n) = _
  simp [bytes]

theorem digit_bounds {n : Nat} {c : Char} (h : c ∈ Nat.toDigits 10 n) : 48 ≤ c.toNat ∧ c.toNat ≤ 57 := by
  have hdigit := Nat.isDigit_of_mem_toDigits (by decide) (by decide) h
  simpa [Char.isDigit, UInt32.le_iff_toNat_le] using hdigit

theorem digits_plain {n : Nat} {b : UInt8} (h : b ∈ digits n) : b ≠ 0 ∧ b ≠ 10 := by
  rw [digits_eq] at h
  obtain ⟨c, hc, rfl⟩ := List.mem_map.1 h
  have hbounds := digit_bounds hc
  have hval : (UInt8.ofNat c.toNat).toNat = c.toNat := Nat.mod_eq_of_lt (by omega)
  refine ⟨fun h0 => ?_, fun h0 => ?_⟩
  · rw [h0] at hval
    have : (0 : UInt8).toNat = 0 := rfl
    omega
  · rw [h0] at hval
    have : (10 : UInt8).toNat = 10 := rfl
    omega

theorem digits_length {n : Nat} (h : n < 10 ^ taskCommNameLen) : (digits n).length ≤ taskCommNameLen := by
  rw [digits_eq, List.length_map]
  exact (Nat.length_toDigits_le_iff (by decide) (by decide)).2 h

/-- A pid is told by its digits. -/
theorem digits_inj {n k : Nat} (h : digits n = digits k) : n = k := by
  have hback (n : Nat) : (digits n).map (fun b => Char.ofNat b.toNat) = Nat.toDigits 10 n := by
    rw [digits_eq, List.map_map]
    refine (List.map_congr_left fun c hc => ?_).trans (List.map_id _)
    have hval : (UInt8.ofNat c.toNat).toNat = c.toNat := Nat.mod_eq_of_lt (by have := digit_bounds hc; omega)
    simp [hval]
  have hdigits : Nat.toDigits 10 n = Nat.toDigits 10 k := by rw [← hback, h, hback]
  calc n = Nat.ofDigitChars 10 (Nat.toDigits 10 n) 0 := Nat.ofDigitChars_ten_toDigits.symm
    _ = k := by rw [hdigits, Nat.ofDigitChars_ten_toDigits]

theorem digits_one {n : Nat} : digits n = bytes "1" ↔ n = 1 := ⟨fun h => digits_inj h, fun h => h ▸ rfl⟩

/-! ## Reading a file -/

theorem ppidLabel_plain : PlainLine (bytes "PPid:\t") := .of_all (by decide) (by decide)

theorem fgetsLines_plain {l : MbStr} (h : PlainLine l) (rest : MbStr) :
    fgetsLines procenvBuffer [] (l ++ 10 :: rest) = (l ++ [10]) :: fgetsLines procenvBuffer [] rest :=
  fgetsLines_line l (fun hmem => (h.plain 10 hmem).2 rfl) [] rest (by simpa using h.short)

theorem fgetsLines_nlLines {ls : List MbStr} (h : ∀ l ∈ ls, PlainLine l) (rest : MbStr) :
    fgetsLines procenvBuffer [] (nlLines ls ++ rest) = ls.map (· ++ [10]) ++
      fgetsLines procenvBuffer [] rest := by
  induction ls with
  | nil => rfl
  | cons l ls ih =>
    obtain ⟨hl, hls⟩ := List.forall_mem_cons.1 h
    have hcontent : nlLines (l :: ls) ++ rest = l ++ 10 :: (nlLines ls ++ rest) := by simp [nlLines]
    rw [hcontent, fgetsLines_plain hl, ih hls]
    rfl

variable {s : Status} {l : MbStr} {lines : List MbStr}

theorem readStatus_other (h : OtherLine l) : readStatus ((l ++ [10]) :: lines) s = readStatus lines s := by
  have hname : (bytes "Name:").isPrefixOf l = false := by simpa [← List.isPrefixOf_iff_prefix] using h.name
  have hppid : (bytes "PPid:").isPrefixOf l = false := by simpa [← List.isPrefixOf_iff_prefix] using h.ppid
  rw [readStatus, chompLine_line fun b hb => (h.plain b hb).1]
  simp only [hname, hppid, bind, Except.bind, pure, Except.pure, Bool.false_eq_true, if_false]

theorem statusField_label (label value : MbStr) :
    statusField label (label ++ 9 :: value) = .ok (value.take taskCommNameLen) := by
  have hlen : (label ++ 9 :: value).length ≠ label.length := by simp
  rw [statusField, if_neg hlen, Nat.add_comm, ← List.drop_drop, List.drop_left]
  rfl

theorem readStatus_name {comm : MbStr} (h : PlainLine (bytes "Name:\t" ++ comm)) :
    readStatus ((bytes "Name:\t" ++ comm ++ [10]) :: lines) s =
      readStatus lines { s with name := some (comm.take taskCommNameLen) } := by
  have hsplit : bytes "Name:\t" ++ comm = bytes "Name:" ++ 9 :: comm := rfl
  have hname : (bytes "Name:").isPrefixOf (bytes "Name:" ++ 9 :: comm) = true :=
    List.isPrefixOf_iff_prefix.2 (List.prefix_append _ _)
  have hppid : (bytes "PPid:").isPrefixOf (bytes "Name:" ++ 9 :: comm) = false := rfl
  rw [readStatus, chompLine_line fun b hb => (h.plain b hb).1]
  simp only [hsplit, hname, hppid, statusField_label, bind, Except.bind, pure, Except.pure,
    Bool.false_eq_true, if_false, if_true]

theorem readStatus_ppid {value : MbStr} (h : ∀ b ∈ value, b ≠ 0) :
    readStatus ((bytes "PPid:\t" ++ value ++ [10]) :: lines) s =
      .ok { s with ppid := some (value.take taskCommNameLen) } := by
  have hsplit : bytes "PPid:\t" ++ value = bytes "PPid:" ++ 9 :: value := rfl
  have hname : (bytes "Name:").isPrefixOf (bytes "PPid:" ++ 9 :: value) = false := rfl
  have hppid : (bytes "PPid:").isPrefixOf (bytes "PPid:" ++ 9 :: value) = true :=
    List.isPrefixOf_iff_prefix.2 (List.prefix_append _ _)
  have hplain : ∀ b ∈ bytes "PPid:\t" ++ value, b ≠ 0 := by
    intro b hb
    rcases List.mem_append.1 hb with hmem | hmem
    · exact (ppidLabel_plain.plain b hmem).1
    · exact h b hmem
  rw [readStatus, chompLine_line hplain]
  simp only [hsplit, hname, hppid, statusField_label, bind, Except.bind, pure, Except.pure,
    Bool.false_eq_true, if_false, if_true]

theorem readStatus_others {ls : List MbStr} (h : ∀ l ∈ ls, OtherLine l) :
    readStatus (ls.map (· ++ [10]) ++ lines) s = readStatus lines s := by
  induction ls with
  | nil => rfl
  | cons l ls ih =>
    obtain ⟨hl, hls⟩ := List.forall_mem_cons.1 h
    rw [List.map_cons, List.cons_append, readStatus_other hl, ih hls]

/-- **The name and the parent are read from a file**, whatever was read before. -/
theorem readStatus_status (t : Task) (s : Status) :
    readStatus (fgetsLines procenvBuffer [] t.status) s =
      .ok ⟨some (t.comm.take taskCommNameLen), some (digits t.ppid)⟩ := by
  have hbefore : ∀ l ∈ t.before, OtherLine l := fun l hl => t.others l (List.mem_append_left _ hl)
  have hbetween : ∀ l ∈ t.between, OtherLine l := fun l hl => t.others l (List.mem_append_right _ hl)
  have hlast : PlainLine (bytes "PPid:\t" ++ digits t.ppid) := by
    refine ⟨fun b hb => ?_, ?_⟩
    · rcases List.mem_append.1 hb with hmem | hmem
      · exact ppidLabel_plain.plain b hmem
      · exact digits_plain hmem
    · have hlen := digits_length t.ppidShort
      have hlabel : (bytes "PPid:\t").length = 6 := rfl
      rw [List.length_append, hlabel]
      unfold taskCommNameLen at hlen
      unfold procenvBuffer
      omega
  have hall : ∀ l ∈ t.before ++ (bytes "Name:\t" ++ t.comm) :: t.between ++ [bytes "PPid:\t" ++ digits t.ppid],
      PlainLine l := by
    intro l hl
    simp only [List.mem_append, List.mem_cons, List.not_mem_nil, or_false] at hl
    rcases hl with (hl | rfl | hl) | rfl
    · exact (hbefore l hl).toPlainLine
    · exact t.commLine
    · exact (hbetween l hl).toPlainLine
    · exact hlast
  have htake : (digits t.ppid).take taskCommNameLen = digits t.ppid :=
    List.take_of_length_le (digits_length t.ppidShort)
  rw [Task.status, fgetsLines_nlLines hall, List.append_assoc, List.map_append, List.append_assoc,
    readStatus_others hbefore, List.cons_append, List.map_cons, List.cons_append, readStatus_name t.commLine,
    List.map_append, List.append_assoc, readStatus_others hbetween, List.map_cons, List.cons_append,
    readStatus_ppid fun b hb => (digits_plain hb).1, htake]

/-! ## The walk -/

/-- `/proc` has the files of the tasks, and no others of the kind. -/
structure ProcDir (tasks : List Task) (fopen : MbStr → Option MbStr) : Prop where
  present : ∀ t ∈ tasks, fopen (statusPath (digits t.pid)) = some t.status
  missing : ∀ pid, (∀ t ∈ tasks, t.pid ≠ pid) → fopen (statusPath (digits pid)) = none

/-- The way up from a pid: to pid 1, or to a pid without a file. -/
inductive Ascent (tasks : List Task) : Nat → List Task → Prop
  | init {t : Task} : t ∈ tasks → t.pid = 1 → Ascent tasks t.pid [t]
  | missing {pid : Nat} : (∀ t ∈ tasks, t.pid ≠ pid) → Ascent tasks pid []
  | task {t : Task} {l : List Task} : t ∈ tasks → t.pid ≠ 1 → Ascent tasks t.ppid l → Ascent tasks t.pid (t :: l)

/-- The pid and the name, as much of it as fits. -/
def Task.text (t : Task) : MbStr := digits t.pid ++ bytes " ('" ++ t.comm.take taskCommNameLen ++ bytes "')"

/-- The tasks with commas between them; one that is missing comes last. -/
def ascentText (l : List Task) : MbStr :=
  (bytes ", ").intercalate (l.map Task.text ++ if l.getLast?.any (·.pid = 1) then [] else [bytes "unknown"])

variable {tasks : List Task} {fopen : MbStr → Option MbStr} {pid fuel : Nat} {str : MbStr}
  {t : Task} {l : List Task}

theorem ascentText_init (h : t.pid = 1) : ascentText [t] = t.text := by
  simp [ascentText, h, List.intercalate]

theorem ascentText_cons (h : t.pid ≠ 1) : ascentText (t :: l) = t.text ++ bytes ", " ++ ascentText l := by
  have hlast : (t :: l).getLast?.any (·.pid = 1) = l.getLast?.any (·.pid = 1) := by
    cases l with
    | nil => simpa using h
    | cons u l => rw [List.getLast?_cons_cons]
  unfold ascentText
  rw [hlast, List.map_cons, List.cons_append]
  obtain ⟨x, xs, hx⟩ : ∃ x xs, l.map Task.text ++
    (if l.getLast?.any (·.pid = 1) then [] else [bytes "unknown"]) = x :: xs := by
    cases l with
    | nil => exact ⟨_, _, rfl⟩
    | cons u l => exact ⟨_, _, rfl⟩
  rw [hx, List.intercalate_cons_cons]

theorem walkLinux_missing (h : ProcDir tasks fopen) (hpid : ∀ t ∈ tasks, t.pid ≠ pid) :
    walkLinux fopen (fuel + 1) (digits pid) s str = .ok (some (str ++ ascentText [])) := by
  rw [walkLinux, h.missing pid hpid]
  rfl

/-- A task is shown, and its parent is next unless it is the first one. -/
theorem walkLinux_present (h : ProcDir tasks fopen) (ht : t ∈ tasks) :
    walkLinux fopen (fuel + 1) (digits t.pid) s str =
      if t.pid = 1 then .ok (some (str ++ t.text))
      else walkLinux fopen fuel (digits t.ppid) ⟨some (t.comm.take taskCommNameLen), some (digits t.ppid)⟩
        (str ++ t.text ++ bytes ", ") := by
  have htext : str ++ digits t.pid ++ bytes " ('" ++ t.comm.take taskCommNameLen ++ bytes "')" =
    str ++ t.text := by
    simp [Task.text]
  rw [walkLinux, h.present t ht]
  simp only [readStatus_status, written, htext, digits_one, bind, Except.bind, pure, Except.pure]

/-- **The walk takes the way up.** -/
theorem Ascent.walk (h : ProcDir tasks fopen) (hl : Ascent tasks pid l) (hfuel : l.length < fuel) :
    walkLinux fopen fuel (digits pid) s str = .ok (some (str ++ ascentText l)) := by
  induction hl generalizing fuel s str with
  | init ht hone =>
    obtain ⟨fuel, rfl⟩ : ∃ f, fuel = f + 1 := ⟨fuel - 1, by omega⟩
    rw [walkLinux_present h ht, if_pos hone, ascentText_init hone]
  | missing hpid =>
    obtain ⟨fuel, rfl⟩ : ∃ f, fuel = f + 1 := ⟨fuel - 1, by omega⟩
    exact walkLinux_missing h hpid
  | task ht hone _ ih =>
    obtain ⟨fuel, rfl⟩ : ∃ f, fuel = f + 1 := ⟨fuel - 1, by omega⟩
    rw [walkLinux_present h ht, if_neg hone, ih (by simpa using hfuel), ascentText_cons hone]
    simp

/-- A walk that ends has taken it. -/
theorem walkLinux_cases (h : ProcDir tasks fopen) (pid fuel : Nat) (s : Status) (str : MbStr) :
    walkLinux fopen fuel (digits pid) s str = .ok none ∨
      ∃ l, Ascent tasks pid l ∧ walkLinux fopen fuel (digits pid) s str = .ok (some (str ++ ascentText l)) := by
  induction fuel generalizing pid s str with
  | zero => exact Or.inl rfl
  | succ fuel ih =>
    by_cases hpid : ∃ t ∈ tasks, t.pid = pid
    · obtain ⟨t, ht, rfl⟩ := hpid
      rw [walkLinux_present h ht]
      by_cases hone : t.pid = 1
      · rw [if_pos hone]
        exact Or.inr ⟨[t], .init ht hone, by rw [ascentText_init hone]⟩
      · rw [if_neg hone]
        rcases ih t.ppid ⟨some (t.comm.take taskCommNameLen), some (digits t.ppid)⟩
          (str ++ t.text ++ bytes ", ") with
          hnone | ⟨l, hl, hsome⟩
        · exact Or.inl hnone
        · refine Or.inr ⟨t :: l, .task ht hone hl, ?_⟩
          rw [hsome, ascentText_cons hone]
          simp
    · have hmissing : ∀ t ∈ tasks, t.pid ≠ pid := fun t ht heq => hpid ⟨t, ht, heq⟩
      exact Or.inr ⟨[], .missing hmissing, walkLinux_missing h hmissing⟩

/-- The way up is the first part of the line of ancestors. -/
theorem ascent_of_lineage (h : Lineage Task.pid Task.ppid tasks pid l) :
    ∃ l', l' <+: l ∧ Ascent tasks pid l' := by
  induction h with
  | missing hpid => exact ⟨[], List.prefix_rfl, .missing hpid⟩
  | @entry t l ht _ ih =>
    by_cases hone : t.pid = 1
    · exact ⟨[t], by simp, .init ht hone⟩
    · obtain ⟨l', hprefix, hl'⟩ := ih
      exact ⟨t :: l', (List.prefix_cons_inj t).2 hprefix, .task ht hone hl'⟩

/-- **When the walk ends, and with what text**: exactly if there is a way up from the process, and then with its
tasks, nearest first. Without cycles there is one. Nothing is read that has not been written. -/
theorem handleProcBranchLinux_iff (tasks : List Task) (fopen : MbStr → Option MbStr) (h : ProcDir tasks fopen)
    (pid : Nat) :
    (∀ fuel, ∃ r, handleProcBranchLinux fopen pid fuel = .ok r) ∧
      (∀ str, (∃ fuel, handleProcBranchLinux fopen pid fuel = .ok (some str)) ↔
        ∃ l, Ascent tasks pid l ∧ str = ascentText l) ∧
      (Acyclic Task.pid Task.ppid tasks → ∃ fuel str, handleProcBranchLinux fopen pid fuel = .ok (some str)) := by
  have hwalk {l : List Task} (hl : Ascent tasks pid l) :
      handleProcBranchLinux fopen pid (l.length + 1) = .ok (some (ascentText l)) :=
    hl.walk h (Nat.lt_succ_self _)
  refine ⟨fun fuel => ?_, fun str => ⟨?_, ?_⟩, fun hacyclic => ?_⟩
  · rcases walkLinux_cases h pid fuel {} [] with hnone | ⟨l, -, hsome⟩
    · exact ⟨_, hnone⟩
    · exact ⟨_, hsome⟩
  · rintro ⟨fuel, hrun⟩
    rcases walkLinux_cases h pid fuel {} [] with hnone | ⟨l, hl, hsome⟩
    · exact absurd (Except.ok.inj (hnone.symm.trans hrun)) (by simp)
    · exact ⟨l, hl, (Option.some.inj (Except.ok.inj (hsome.symm.trans hrun))).symm⟩
  · rintro ⟨l, hl, rfl⟩
    exact ⟨_, hwalk hl⟩
  · obtain ⟨line, hline⟩ := hacyclic.lineage pid
    obtain ⟨l, -, hl⟩ := ascent_of_lineage hline
    exact ⟨_, _, hwalk hl⟩

/-- What `Call.procBranch` answers of a way up. -/
def branchOf (l : List Task) : List (MbStr × MbStr) × Bool :=
  (l.map fun t => (digits t.pid, t.comm.take taskCommNameLen), !l.getLast?.any (·.pid = 1))

theorem procBranchText_ascent (hl : Ascent tasks pid l) :
    procBranchText (branchOf l).1 (branchOf l).2 = ascentText l := by
  induction hl with
  | init ht h =>
    rw [ascentText_init h]
    simp [branchOf, procBranchText, Task.text, digits_one, h]
  | missing _ => rfl
  | @task t l ht h _ ih =>
    have hlast : (t :: l).getLast?.any (·.pid = 1) = l.getLast?.any (·.pid = 1) := by
      cases l with
      | nil => simpa using h
      | cons u l => rw [List.getLast?_cons_cons]
    rw [ascentText_cons h, ← ih]
    have hcomma : bytes "'), " = bytes "')" ++ bytes ", " := rfl
    simp [branchOf, procBranchText, Task.text, digits_one, h, hlast, hcomma]

/-- **`show_proc` shows the text that the walk over the files builds**, where the system answers as the files
say. -/
theorem showProcBranch_walk {env : Env} {o : Interact.Prog.Oracle Call} {n : Nat} (h : ProcDir tasks fopen)
    (hl : Ascent tasks pid l) (ho : o n .procBranch = branchOf l) :
    ∃ fuel text, handleProcBranchLinux fopen pid fuel = .ok (some text) ∧
      (Show.handleProcBranchLinux env).run o n =
        (expandStr env.locale text).map fun w => ((), [.entry (bytes "ancestry") w], n + 1) := by
  refine ⟨l.length + 1, ascentText l, hl.walk h (Nat.lt_succ_self _), ?_⟩
  rw [← procBranchText_ascent hl, ← ho]
  change (str env (procBranchText (o n .procBranch).1 (o n .procBranch).2) >>= fun text =>
    Show.entry "ancestry" text).run o (n + 1) = _
  unfold str
  cases expandStr env.locale (procBranchText (o n .procBranch).1 (o n .procBranch).2) <;> rfl

/-- The directory of tasks. -/
def procFiles (tasks : List Task) (path : MbStr) : Option MbStr :=
  (tasks.find? fun t => statusPath (digits t.pid) = path).map Task.status

/-- Every table with different pids has its directory. -/
theorem procFiles_dir (hnd : (tasks.map Task.pid).Nodup) : ProcDir tasks (procFiles tasks) := by
  have hpath {pid pid' : Nat} (h : statusPath (digits pid) = statusPath (digits pid')) : pid = pid' :=
    digits_inj (List.append_cancel_left (List.append_cancel_right h))
  refine ⟨fun t ht => ?_, fun pid hpid => ?_⟩
  · cases hfind : tasks.find? fun u => statusPath (digits u.pid) = statusPath (digits t.pid) with
    | none => simpa using List.find?_eq_none.1 hfind t ht
    | some u =>
      have hu : u.pid = t.pid := hpath (by simpa using List.find?_some hfind)
      obtain rfl := eq_of_key_eq hnd (List.mem_of_find?_eq_some hfind) ht hu
      rw [procFiles, hfind]
      rfl
  · have hnone : (tasks.find? fun t => statusPath (digits t.pid) = statusPath (digits pid)) = none :=
      List.find?_eq_none.2 fun t ht => by simpa using fun heq => hpid t ht (hpath heq)
    rw [procFiles, hnone]
    rfl

/-- A task whose file has two more fields. -/
def plainTask (pid ppid : Nat) (comm : String) (hcomm : PlainLine (bytes "Name:\t" ++ bytes comm))
    (hppid : ppid < 10 ^ taskCommNameLen) : Task where
  pid := pid
  comm := bytes comm
  ppid := ppid
  before := []
  between := [bytes "State:\tS (sleeping)"]
  after := bytes "TracerPid:\t0\n"
  commLine := hcomm
  ppidShort := hppid
  others := by
    intro l hl
    obtain rfl := List.mem_singleton.1 hl
    exact ⟨.of_all (by decide) (by decide), by decide, by decide⟩

/-- A shell in a container, whose parent is outside, and a process of the first one. -/
def containerTasks : List Task :=
  [plainTask 1 0 "init" (.of_all (by decide) (by decide)) (by decide),
    plainTask 40 0 "sh" (.of_all (by decide) (by decide)) (by decide),
    plainTask 41 40 "procenv" (.of_all (by decide) (by decide)) (by decide),
    plainTask 7 1 "a-worker-with-a-long-name" (.of_all (by decide) (by decide)) (by decide)]

theorem handleProcBranchLinux_iff_container :
    (∀ fuel, ∃ r, handleProcBranchLinux (procFiles containerTasks) 41 fuel = .ok r) ∧
      (∀ str, (∃ fuel, handleProcBranchLinux (procFiles containerTasks) 41 fuel = .ok (some str)) ↔
        ∃ l, Ascent containerTasks 41 l ∧ str = ascentText l) ∧
      (Acyclic Task.pid Task.ppid containerTasks →
        ∃ fuel str, handleProcBranchLinux (procFiles containerTasks) 41 fuel = .ok (some str)) :=
  handleProcBranchLinux_iff containerTasks (procFiles containerTasks) (procFiles_dir (by decide)) 41

example : handleProcBranchLinux (procFiles containerTasks) 41 3 =
    .ok (some (bytes "41 ('procenv'), 40 ('sh'), unknown")) := by
  decide

end Procenv.Ancestry
