import Procenv.Proof.MainIndent
import Procenv.Proof.Strsep

/-!
# Settings from the environment and from the command line

A setting has a variable, which `check_envvars` reads, and a long option. The two are
decoded in different places: `Setting.assign` is what the variable does, and
`LongOption.set` what the option does. Two settings are the same but for one
(`Setting.clear`) if they agree in what it does not write.

* `settings_alias_iff`: **variable and option of a setting agree**, but for an indent
  amount that is not positive and a separator that stands for a tab.
* `command_line_priority`: **an option of the command line makes the variable
  irrelevant**, but for `--exec`, whose variable wins.
* `accepted_usable_iff`: **which accepted settings the output functions can work with**.
-/

namespace Procenv

open Text Outcome

/-! ## Variables and options -/

/-- The settings with a variable of the environment and a long option with an argument. -/
inductive Setting
  | output | file | format | indent | indentChar | separator | crumbSeparator
deriving DecidableEq, Repr

namespace Setting

/-- The variable of a setting. -/
def envVar : Setting → String
  | output => "PROCENV_OUTPUT"
  | file => "PROCENV_FILE"
  | format => "PROCENV_FORMAT"
  | indent => "PROCENV_INDENT"
  | indentChar => "PROCENV_INDENT_CHAR"
  | separator => "PROCENV_SEPARATOR"
  | crumbSeparator => "PROCENV_CRUMB_SEPARATOR"

/-- The long option of a setting. -/
def option (optarg : MbStr) : Setting → LongOption
  | output => .output optarg
  | file => .file optarg
  | format => .format optarg
  | indent => .indent optarg
  | indentChar => .indentChar optarg
  | separator => .separator optarg
  | crumbSeparator => .crumbSeparator optarg

/-- What the variable of a setting does, when it is set and not empty. -/
def assign (e : MbStr) (c : Settings) : Setting → Except Halt Settings
  | output => setOutputValue e c
  | file => .ok { c with output := .file, outputFile := some e }
  | format => setOutputFormat e c
  | indent => .ok { c with indentAmount := atoi e }
  | indentChar => .ok { c with indentChar := tabEscape e }
  | separator => .ok { c with textSeparator := e }
  | crumbSeparator => .ok { c with crumbSeparator := tabEscape e }

/-- Reading the variable of a setting. -/
def read (getenv : String → Option MbStr) (c : Settings) (s : Setting) : Except Halt Settings :=
  match getenvSet getenv s.envVar with
  | some e => s.assign e c
  | none => .ok c

end Setting

/-- `PROCENV_FILE_APPEND`. -/
def readAppend (getenv : String → Option MbStr) (c : Settings) : Settings :=
  if (getenvSet getenv "PROCENV_FILE_APPEND").isSome then { c with outputFileAppend := true } else c

/-- Reading the variables of some settings, one after the other. -/
def readAll (getenv : String → Option MbStr) (ss : List Setting) (c : Settings) : Except Halt Settings :=
  ss.foldlM (Setting.read getenv) c

/-- A variable that is read, and then the others. -/
theorem Setting.read_bind {getenv : String → Option MbStr} {c : Settings} {s : Setting}
    {k : Settings → Except Halt Settings} {x : Except Halt Settings} (name : String) (hname : s.envVar = name)
    (hsome : ∀ e, getenvSet getenv name = some e → x = s.assign e c >>= k)
    (hnone : getenvSet getenv name = none → x = k c) : x = s.read getenv c >>= k := by
  subst hname
  unfold read
  split
  · exact hsome _ ‹_›
  · exact hnone ‹_›

/-- **`check_envvars` reads the variables one after the other.** -/
theorem checkSettings_eq (getenv : String → Option MbStr) (c : Settings) :
    checkSettings getenv c =
      Setting.output.read getenv c >>= fun c => Setting.file.read getenv c >>= fun c =>
      readAll getenv [.format, .indent, .indentChar, .separator, .crumbSeparator] (readAppend getenv c) := by
  unfold checkSettings
  -- what follows each variable, from the last one to the first
  extract_lets var c0 k0 k1 k2 k3 k4 k5 k6 k7
  have h1 (c) : k1 () c = readAll getenv [.crumbSeparator] c := by
    refine Setting.read_bind "PROCENV_CRUMB_SEPARATOR" rfl (fun e he => ?_) fun hn => ?_
    · simp only [k1, var, he]
      rfl
    · simp only [k1, var, hn]
      rfl
  have h2 (c) : k2 () c = readAll getenv [.separator, .crumbSeparator] c := by
    refine Setting.read_bind "PROCENV_SEPARATOR" rfl (fun e he => ?_) fun hn => ?_
    · simp only [k2, var, he, h1]
      rfl
    · simp only [k2, var, hn, h1]
      rfl
  have h3 (c) : k3 () c = readAll getenv [.indentChar, .separator, .crumbSeparator] c := by
    refine Setting.read_bind "PROCENV_INDENT_CHAR" rfl (fun e he => ?_) fun hn => ?_
    · simp only [k3, var, he, h2]
      rfl
    · simp only [k3, var, hn, h2]
      rfl
  have h4 (c) : k4 () c = readAll getenv [.indent, .indentChar, .separator, .crumbSeparator] c := by
    refine Setting.read_bind "PROCENV_INDENT" rfl (fun e he => ?_) fun hn => ?_
    · simp only [k4, var, he, h3]
      rfl
    · simp only [k4, var, hn, h3]
      rfl
  have h5 (c) : k5 () c = readAll getenv [.format, .indent, .indentChar, .separator, .crumbSeparator] c := by
    refine Setting.read_bind "PROCENV_FORMAT" rfl (fun e he => ?_) fun hn => ?_
    · simp only [k5, var, he, h4]
      rfl
    · simp only [k5, var, hn, h4]
      rfl
  have h6 (c) : k6 () c =
      readAll getenv [.format, .indent, .indentChar, .separator, .crumbSeparator] (readAppend getenv c) := by
    simp only [k6, var, readAppend, h5]
    split <;> rfl
  have h7 (c) : k7 () c = Setting.file.read getenv c >>= fun c =>
      readAll getenv [.format, .indent, .indentChar, .separator, .crumbSeparator] (readAppend getenv c) := by
    refine Setting.read_bind "PROCENV_FILE" rfl (fun e he => ?_) fun hn => ?_
    · simp only [k7, var, he, h6]
      rfl
    · simp only [k7, var, hn, h6]
  refine Setting.read_bind "PROCENV_OUTPUT" rfl (fun e he => ?_) fun hn => ?_
  · simp only [var, c0, he, h7]
    rfl
  · simp only [var, c0, hn, h7]

/-! ## A variable and its option -/

/-- The environment with one variable. -/
def onlyVar (name : String) (value : MbStr) : String → Option MbStr :=
  fun n => if n = name then some value else none

variable (host : Host) (display : Display)

/-- The settings before the option loop, where only the variable of a setting is set. -/
def settingsFromVar (s : Setting) (value : MbStr) : Except Halt Settings :=
  (startMain host.locale (onlyVar s.envVar value)).map MainState.settings

/-- The settings after the option loop, where only the option of a setting is given. -/
def settingsFromOption (s : Setting) (value : MbStr) : Except Halt Settings := do
  let st ← startMain host.locale fun _ => none
  let st ← runActions host (loopActions display 0 [.long (s.option value)]) st
  return st.settings

variable {host display}

theorem getenvSet_onlyVar {name n : String} {v : MbStr} (hv : v ≠ []) :
    getenvSet (onlyVar name v) n = if n = name then some v else none := by
  unfold getenvSet onlyVar
  split <;> simp [hv]

theorem envVar_injective {s t : Setting} (h : s.envVar = t.envVar) : s = t := by
  cases s <;> cases t <;> simp [Setting.envVar] at h <;> rfl

theorem read_onlyVar {s t : Setting} {v : MbStr} (hv : v ≠ []) (c : Settings) :
    t.read (onlyVar s.envVar v) c = if t = s then s.assign v c else .ok c := by
  unfold Setting.read
  rw [getenvSet_onlyVar hv]
  by_cases hts : t = s
  · simp [hts]
  · simp [hts, mt envVar_injective hts]

/-- With one variable, that one is read. -/
theorem checkSettings_onlyVar (s : Setting) {v : MbStr} (hv : v ≠ []) (c : Settings) :
    checkSettings (onlyVar s.envVar v) c = s.assign v c := by
  have happend (c : Settings) : readAppend (onlyVar s.envVar v) c = c := by
    have hne : "PROCENV_FILE_APPEND" ≠ s.envVar := by cases s <;> simp [Setting.envVar]
    simp [readAppend, getenvSet_onlyVar hv, hne]
  rw [checkSettings_eq]
  simp only [readAll, List.foldlM_cons, List.foldlM_nil, read_onlyVar hv, happend]
  -- of the settings read in turn all but `s` leave `c` alone
  cases s <;> simp [bind, Except.bind, pure, Except.pure] <;> split <;> simp_all

theorem settingsFromVar_eq (s : Setting) {v : MbStr} (hv : v ≠ []) :
    settingsFromVar host s v = s.assign v {} >>= handleIndentChar host.locale := by
  rw [settingsFromVar, startMain_def, checkSettings_onlyVar s hv]
  cases s.assign v {} >>= handleIndentChar host.locale <;> rfl

section Alias

variable {w : WChar} (hblank : host.locale.mbsrtowcs (bytes " ") = some [w])
include hblank

theorem startMain_default :
    startMain host.locale (fun _ => none) = .ok { settings := { wideIndentChar := w } } := by
  have hcheck : checkSettings (fun _ => none) {} = .ok {} := by rfl
  simp [startMain, checkEnvvars, hcheck, init, handleIndentChar, getenvSet, hblank, bind, Except.bind, pure,
    Except.pure]

theorem settingsFromOption_eq (s : Setting) (v : MbStr) :
    settingsFromOption host display s v = (s.option v).set host.locale { wideIndentChar := w } := by
  unfold settingsFromOption
  rw [startMain_default hblank]
  simp only [bind, Except.bind, loopActions, runActions, List.foldlM_cons, List.foldlM_nil,
    act, pure, Except.pure]
  cases (s.option v).set host.locale { wideIndentChar := w } <;> simp

/-- **Variable and option of a setting agree**, but for an indent amount that is not positive, which only
the option refuses, and for the separator that stands for a tab, which only the option knows. -/
theorem settings_alias_iff (display : Display) (s : Setting) (v : MbStr) (hv : v ≠ []) :
    settingsFromVar host s v = settingsFromOption host display s v ↔
      ¬ (s = .indent ∧ atoi v ≤ 0) ∧ ¬ (s = .separator ∧ v = bytes "\\t") := by
  rw [settingsFromVar_eq s hv, settingsFromOption_eq hblank]
  cases s with
  | output =>
    simp only [Setting.assign, Setting.option, LongOption.set, setOutputValue]
    cases outputMap.lookup v <;> simp [bind, Except.bind, handleIndentChar, hblank]
  | format =>
    simp only [Setting.assign, Setting.option, LongOption.set, setOutputFormat]
    cases outputFormatMap.lookup v <;> simp [bind, Except.bind, handleIndentChar, hblank]
  | file => simp [Setting.assign, Setting.option, LongOption.set, bind, Except.bind, handleIndentChar, hblank]
  | crumbSeparator => simp [Setting.assign, Setting.option, LongOption.set, bind, Except.bind,
      handleIndentChar, hblank]
  | indentChar =>
    simp only [Setting.assign, Setting.option, LongOption.set, bind, Except.bind, handleIndentChar]
    simp
  | separator =>
    -- only the option replaces `\t`
    have htab : v = tabEscape v ↔ v ≠ bytes "\\t" := by
      unfold tabEscape
      split
      · subst v
        decide
      · simp [*]
    simp [Setting.assign, Setting.option, LongOption.set, bind, Except.bind, handleIndentChar, hblank, htab]
  | indent =>
    -- only the option checks the sign
    by_cases ha : atoi v ≤ 0 <;>
      simp [Setting.assign, Setting.option, LongOption.set, bind, Except.bind, handleIndentChar, hblank, ha]

end Alias

/-- The host of the examples: ASCII, and no operands. -/
def posixHost : Host where
  locale := posixLocale

theorem posixHost_blank : posixHost.locale.mbsrtowcs (bytes " ") = some [32] := rfl

/-- The routines of the examples: they show nothing. -/
def noDisplay : Display := fun _ _ => ([], none)

theorem settings_alias_json :
    settingsFromVar posixHost .format (bytes "json") =
      settingsFromOption posixHost noDisplay .format (bytes "json") :=
  (settings_alias_iff posixHost_blank noDisplay .format (bytes "json") (by decide)).2 (by decide)

theorem indent_zero_not_alias :
    ¬ ∀ (s : Setting) (v : MbStr), v ≠ [] →
      settingsFromVar posixHost s v = settingsFromOption posixHost noDisplay s v := by
  intro h
  have h0 := h .indent (bytes "0") (by decide)
  rw [settingsFromVar_eq _ (by decide), settingsFromOption_eq posixHost_blank] at h0
  cases h0

/-! ## Settings but for one -/

namespace Setting

/-- The settings without what one of them writes. -/
def clear (c : Settings) : Setting → Settings
  | output => { c with output := .stdout }
  | file => { c with output := .stdout, outputFile := none }
  | format => { c with outputFormat := .text }
  | indent => { c with indentAmount := 0 }
  | indentChar => { c with indentChar := [], wideIndentChar := 0 }
  | separator => { c with textSeparator := [] }
  | crumbSeparator => { c with crumbSeparator := [] }

/-- What a variable gives, but for a setting, depends on the settings but for this one. -/
theorem assign_clear (s t : Setting) (e : MbStr) (c : Settings) :
    (t.assign e c).map s.clear = (t.assign e (s.clear c)).map s.clear := by
  cases t with
  | output =>
    simp only [assign, setOutputValue]
    cases outputMap.lookup e <;> cases s <;> rfl
  | format =>
    simp only [assign, setOutputFormat]
    cases outputFormatMap.lookup e <;> cases s <;> rfl
  | file | indent | indentChar | separator | crumbSeparator => cases s <;> rfl

/-- The variable of a setting writes nothing else. -/
theorem clear_assign {s : Setting} {e : MbStr} {c c' : Settings} (h : s.assign e c = .ok c') :
    s.clear c' = s.clear c := by
  cases s with
  | output =>
    simp only [assign, setOutputValue] at h
    split at h <;> cases h
    rfl
  | format =>
    simp only [assign, setOutputFormat] at h
    split at h <;> cases h
    rfl
  | file | indent | indentChar | separator | crumbSeparator =>
    cases h
    rfl

theorem clear_read {s : Setting} {getenv : String → Option MbStr} {c c' : Settings}
    (h : s.read getenv c = .ok c') : s.clear c' = s.clear c := by
  unfold read at h
  split at h
  · exact clear_assign h
  · cases h
    rfl

/-- The option of a setting does not read it. -/
theorem option_clear (s : Setting) (v : MbStr) (loc : Locale) (c : Settings) :
    (s.option v).set loc c = (s.option v).set loc (s.clear c) := by
  cases s with
  | output =>
    simp only [option, LongOption.set, setOutputValue]
    cases outputMap.lookup v <;> rfl
  | format =>
    simp only [option, LongOption.set, setOutputFormat]
    cases outputFormatMap.lookup v <;> rfl
  | indentChar =>
    simp only [option, LongOption.set, handleIndentChar]
    rfl
  | file | indent | separator | crumbSeparator => rfl

end Setting

/-- What an option gives, but for a setting, depends on the settings but for this one. -/
theorem LongOption.set_clear (s : Setting) (o : LongOption) (loc : Locale) (c : Settings) :
    (o.set loc c).map s.clear = (o.set loc (s.clear c)).map s.clear := by
  cases o with
  | output optarg =>
    simp only [set, setOutputValue]
    cases outputMap.lookup optarg <;> cases s <;> rfl
  | format optarg =>
    simp only [set, setOutputFormat]
    cases outputFormatMap.lookup optarg <;> cases s <;> rfl
  | indent optarg =>
    simp only [set]
    by_cases ha : atoi optarg ≤ 0
    · simp only [ha, if_true]
    · simp only [ha, if_false]
      cases s <;> rfl
  | indentChar optarg =>
    simp only [set, handleIndentChar]
    rcases loc.mbsrtowcs (tabEscape optarg) with _ | _ | ⟨w, _ | ⟨w', ws⟩⟩ <;> cases s <;> rfl
  | file _ | fileAppend | exec | separator _ | crumbSeparator _ => cases s <;> rfl

theorem Opt.set_clear (s : Setting) (o : Opt) (loc : Locale) (c : Settings) :
    (o.set loc c).map s.clear = (o.set loc (s.clear c)).map s.clear := by
  cases o with
  | long o => exact o.set_clear s loc c
  | display _ | help | invalid => cases s <;> rfl

theorem handleIndentChar_eq {loc : Locale} {c c' : Settings} (h : handleIndentChar loc c = .ok c') :
    c' = { c with wideIndentChar := c'.wideIndentChar } := by
  unfold handleIndentChar at h
  split at h <;> cases h
  rfl

/-! ## Two runs -/

namespace Setting

/-- Two settings are the same but for one. -/
def Agree (s : Setting) (c₁ c₂ : Settings) : Prop := s.clear c₁ = s.clear c₂

variable {s : Setting} {c₁ c₂ d₁ d₂ : Settings}

/-- Steps whose results depend on the settings but for one, keep this. -/
theorem Agree.step {f : Settings → Except Halt Settings}
    (hf : ∀ c, (f c).map s.clear = (f (s.clear c)).map s.clear) (h : s.Agree c₁ c₂) (h₁ : f c₁ = .ok d₁)
    (h₂ : f c₂ = .ok d₂) : s.Agree d₁ d₂ := by
  have h₁' := hf c₁
  have h₂' := hf c₂
  rw [show s.clear c₁ = s.clear c₂ from h, ← h₂', h₁, h₂] at h₁'
  simpa [Agree, Except.map] using h₁'

/-- Variables that differ in that of a setting. -/
theorem Agree.read {getenv₁ getenv₂ : String → Option MbStr} (hdiff : ∀ n, n ≠ s.envVar → getenv₁ n = getenv₂ n)
    (t : Setting) (h : s.Agree c₁ c₂) (h₁ : t.read getenv₁ c₁ = .ok d₁) (h₂ : t.read getenv₂ c₂ = .ok d₂) :
    s.Agree d₁ d₂ := by
  by_cases hts : t = s
  · -- its own variable writes nothing else
    subst hts
    rw [Agree, clear_read h₁, clear_read h₂]
    exact h
  · have henv : getenvSet getenv₂ t.envVar = getenvSet getenv₁ t.envVar := by
      simp only [getenvSet, hdiff t.envVar (mt envVar_injective hts)]
    unfold Setting.read at h₁ h₂
    rw [henv] at h₂
    split at h₁
    · simp only [*] at h₂
      exact h.step (assign_clear s t _) h₁ h₂
    · simp only [*] at h₂
      cases h₁
      cases h₂
      exact h

theorem Agree.readAll {getenv₁ getenv₂ : String → Option MbStr}
    (hdiff : ∀ n, n ≠ s.envVar → getenv₁ n = getenv₂ n) {ts : List Setting} (h : s.Agree c₁ c₂)
    (h₁ : Procenv.readAll getenv₁ ts c₁ = .ok d₁) (h₂ : Procenv.readAll getenv₂ ts c₂ = .ok d₂) :
    s.Agree d₁ d₂ := by
  induction ts generalizing c₁ c₂ with
  | nil =>
    cases h₁
    cases h₂
    exact h
  | cons t ts ih =>
    obtain ⟨e₁, he₁, h₁⟩ := ok_of_bind h₁
    obtain ⟨e₂, he₂, h₂⟩ := ok_of_bind h₂
    exact ih (h.read hdiff t he₁ he₂) h₁ h₂

theorem Agree.readAppend {getenv₁ getenv₂ : String → Option MbStr}
    (hdiff : ∀ n, n ≠ s.envVar → getenv₁ n = getenv₂ n) (h : s.Agree c₁ c₂) :
    s.Agree (Procenv.readAppend getenv₁ c₁) (Procenv.readAppend getenv₂ c₂) := by
  have hne : "PROCENV_FILE_APPEND" ≠ s.envVar := by cases s <;> simp [envVar]
  have henv : getenvSet getenv₂ "PROCENV_FILE_APPEND" = getenvSet getenv₁ "PROCENV_FILE_APPEND" := by
    simp only [getenvSet, hdiff _ hne]
  unfold Procenv.readAppend
  rw [henv]
  split
  · refine h.step (f := fun c => .ok { c with outputFileAppend := true }) (fun c => ?_) rfl rfl
    cases s <;> rfl
  · exact h

theorem Agree.handleIndentChar {loc : Locale} (h : s.Agree c₁ c₂) (h₁ : Procenv.handleIndentChar loc c₁ = .ok d₁)
    (h₂ : Procenv.handleIndentChar loc c₂ = .ok d₂) : s.Agree d₁ d₂ := by
  by_cases hs : s = .indentChar
  · subst hs
    rw [handleIndentChar_eq h₁, handleIndentChar_eq h₂]
    exact h
  · refine h.step (fun c => ?_) h₁ h₂
    have hchar : (s.clear c).indentChar = c.indentChar := by
      cases s <;> first | rfl | exact absurd rfl hs
    simp only [Procenv.handleIndentChar, hchar]
    rcases loc.mbsrtowcs c.indentChar with _ | _ | ⟨w, _ | ⟨w', ws⟩⟩ <;> cases s <;> rfl

/-- The start of `main` leaves the same settings but for the one of the variable. -/
theorem Agree.start {loc : Locale} {getenv₁ getenv₂ : String → Option MbStr} {st₁ st₂ : MainState}
    (hdiff : ∀ n, n ≠ s.envVar → getenv₁ n = getenv₂ n) (h₁ : startMain loc getenv₁ = .ok st₁)
    (h₂ : startMain loc getenv₂ = .ok st₂) : s.Agree st₁.settings st₂.settings := by
  obtain ⟨f₁, hf₁, rfl⟩ := start_of_startMain h₁
  obtain ⟨f₂, hf₂, rfl⟩ := start_of_startMain h₂
  rw [checkSettings_eq] at hf₁ hf₂
  obtain ⟨e₁, he₁, hf₁⟩ := ok_of_bind hf₁
  obtain ⟨e₂, he₂, hf₂⟩ := ok_of_bind hf₂
  obtain ⟨a₁, ha₁, he₁⟩ := ok_of_bind he₁
  obtain ⟨a₂, ha₂, he₂⟩ := ok_of_bind he₂
  obtain ⟨b₁, hb₁, he₁⟩ := ok_of_bind he₁
  obtain ⟨b₂, hb₂, he₂⟩ := ok_of_bind he₂
  have ha : s.Agree a₁ a₂ := Agree.read hdiff _ rfl ha₁ ha₂
  have hb : s.Agree b₁ b₂ := ha.read hdiff _ hb₁ hb₂
  exact ((hb.readAppend hdiff).readAll hdiff he₁ he₂).handleIndentChar hf₁ hf₂

/-- **Options keep what is the same but for a setting**, and after the option of the setting all is the
same. -/
theorem Agree.loop {loc : Locale} {p : List Opt} (h : s.Agree c₁ c₂) (h₁ : p.foldlM (Opt.set loc) c₁ = .ok d₁)
    (h₂ : p.foldlM (Opt.set loc) c₂ = .ok d₂) :
    s.Agree d₁ d₂ ∧ ((∃ v, .long (s.option v) ∈ p) → d₁ = d₂) := by
  induction p generalizing c₁ c₂ with
  | nil =>
    cases h₁
    cases h₂
    exact ⟨h, by simp⟩
  | cons o p ih =>
    obtain ⟨e₁, he₁, hp₁⟩ := ok_of_bind h₁
    obtain ⟨e₂, he₂, hp₂⟩ := ok_of_bind h₂
    obtain ⟨hd, hrest⟩ := ih (h.step (o.set_clear s loc) he₁ he₂) hp₁ hp₂
    refine ⟨hd, fun ⟨v, hv⟩ => ?_⟩
    rcases List.mem_cons.1 hv with rfl | hv
    · -- the option of the setting reads what is the same in both
      have he : e₁ = e₂ := by
        simp only [Opt.set] at he₁ he₂
        rw [option_clear, show s.clear c₁ = s.clear c₂ from h, ← option_clear, he₂] at he₁
        simpa using he₁.symm
      rw [he] at hp₁
      exact Except.ok.inj (hp₁.symm.trans hp₂)
    · exact hrest ⟨v, hv⟩

end Setting

/-- Whether an option is accepted does not depend on the settings. -/
theorem LongOption.set_isOk (o : LongOption) (loc : Locale) (c₁ c₂ : Settings) :
    (o.set loc c₁).isOk = (o.set loc c₂).isOk := by
  cases o with
  | output optarg =>
    simp only [set, setOutputValue]
    cases outputMap.lookup optarg <;> rfl
  | format optarg =>
    simp only [set, setOutputFormat]
    cases outputFormatMap.lookup optarg <;> rfl
  | indent optarg =>
    simp only [set]
    split <;> rfl
  | indentChar optarg =>
    simp only [set, handleIndentChar]
    split <;> rfl
  | file _ | fileAppend | exec | separator _ | crumbSeparator _ => rfl

theorem long_isOk {os : List LongOption} {st₁ st₂ : MainState} (h₁ : st₁.done = false) (h₂ : st₂.done = false) :
    (runActions host (os.map .long) st₁).isOk = (runActions host (os.map .long) st₂).isOk := by
  induction os generalizing st₁ st₂ with
  | nil => rfl
  | cons o os ih =>
    have hok := o.set_isOk host.locale st₁.settings st₂.settings
    simp only [List.map_cons, runActions_cons, act, h₁, h₂, bind, Except.bind, pure, Except.pure]
    simp only [Bool.false_eq_true, false_and, if_false]
    cases hc₁ : o.set host.locale st₁.settings <;> cases hc₂ : o.set host.locale st₂.settings <;>
      simp only [hc₁, hc₂, Except.isOk, Except.toBool, Bool.true_eq_false, Bool.false_eq_true] at hok ⊢
    exact ih rfl rfl

theorem loopActions_append (display : Display) (p q : List Opt) (n : Nat) :
    ∃ m, loopActions display n (p ++ q) = loopActions display n p ++ loopActions display m q := by
  induction p generalizing n with
  | nil => exact ⟨n, rfl⟩
  | cons o p ih =>
    cases o with
    | display r =>
      obtain ⟨m, hm⟩ := ih (n + 1)
      exact ⟨m, by simp [loopActions, hm]⟩
    | long _ | help | invalid =>
      obtain ⟨m, hm⟩ := ih n
      exact ⟨m, by simp [loopActions, hm]⟩

/-- A setting is refused after a display option. -/
theorem late_option_refused {p : List Opt} {o : LongOption} (ho : o ≠ .exec) (hp : p.any Opt.isDisplay = true)
    (st : MainState) : (runActions host (loopActions display 0 (p ++ [.long o])) st).isOk = false := by
  obtain ⟨m, hm⟩ := loopActions_append display p [.long o] 0
  cases h : runActions host (loopActions display 0 (p ++ [.long o])) st with
  | error e => rfl
  | ok st' =>
    rw [hm] at h
    obtain ⟨t, ht, h'⟩ := run_of_append h
    obtain ⟨t', ht', -, -⟩ := run_of_cons h'
    have hdone : t.done = true := by
      rw [runActions_done ht, decide_eq_true ((setDone_loopActions 0 p).2 hp), Bool.or_true]
    exact absurd (ht'.late hdone o rfl) ho

/-- **The option of a setting is accepted in both runs, or in none.** -/
theorem option_isOk (s : Setting) {display₁ display₂ : Display} {st₁ st₂ : MainState} (h₁ : st₁.done = false)
    (h₂ : st₂.done = false) (p : List Opt) (v : MbStr) :
    (runActions host (loopActions display₁ 0 (p ++ [.long (s.option v)])) st₁).isOk =
      (runActions host (loopActions display₂ 0 (p ++ [.long (s.option v)])) st₂).isOk := by
  have ho : s.option v ≠ .exec := by cases s <;> simp [Setting.option]
  by_cases hp : p.any Opt.isDisplay = true
  · rw [late_option_refused ho hp, late_option_refused ho hp]
  · obtain ⟨os, rest, rfl, rfl | ⟨o, rest, rfl, hrest⟩⟩ := opts_split p
    · have hlong (display : Display) : loopActions display 0 (os.map .long ++ [] ++ [.long (s.option v)]) =
          (os ++ [s.option v]).map .long := by
        simp [loopActions_long, loopActions]
      rw [hlong, hlong]
      exact long_isOk h₁ h₂
    · simp [hrest] at hp

/-! ## The program to run -/

/-- The fields of `PROCENV_EXEC` tell its text. -/
theorem strsepFields_injective {e e' : MbStr} (h : strsepFields e = strsepFields e') : e = e' := by
  rw [strsepFields_eq, strsepFields_eq] at h
  exact Show.strsep_injective h

/-- What a variable and an option both give: a setting, or that a program is run. -/
inductive Given
  | setting (s : Setting)
  | exec
deriving DecidableEq, Repr

/-- The variable. -/
def Given.envVar : Given → String
  | .setting s => s.envVar
  | .exec => "PROCENV_EXEC"

/-- The option is on the command line. -/
def Given.onLine (opts : List Opt) : Given → Prop
  | .setting s => ∃ v, .long (s.option v) ∈ opts
  | .exec => .long .exec ∈ opts

/-- Two runs of `main` with the same command line, from what `init` leaves, use the same value: a setting
from its option on, and for `--exec` the arguments of `execvp`. -/
def Given.SameUse (host : Host) (display₁ display₂ : Display) (opts : List Opt) (st₁ st₂ : MainState) :
    Given → Prop
  | .setting s =>
    (∀ p v, p ++ [.long (s.option v)] <+: opts →
      (runActions host (loopActions display₁ 0 (p ++ [.long (s.option v)])) st₁).isOk =
        (runActions host (loopActions display₂ 0 (p ++ [.long (s.option v)])) st₂).isOk) ∧
    (∀ p, p <+: opts → (∃ v, .long (s.option v) ∈ p) → ∀ t₁ t₂,
      runActions host (loopActions display₁ 0 p) st₁ = .ok t₁ →
      runActions host (loopActions display₂ 0 p) st₂ = .ok t₂ → t₁.settings = t₂.settings) ∧
    ∀ t₁ t₂, runMain host display₁ opts st₁ = .ok t₁ → runMain host display₂ opts st₂ = .ok t₂ →
      t₁.settings = t₂.settings
  | .exec =>
    ∀ t₁ t₂, runMain host display₁ opts st₁ = .ok t₁ → runMain host display₂ opts st₂ = .ok t₂ →
      t₁.execArgs = t₂.execArgs

/-- Two values of `PROCENV_EXEC` run the same program: they are the same, or one of them has the operands
as its fields and the other is not set. -/
def ExecAgrees (operands : List MbStr) : Option MbStr → Option MbStr → Prop
  | some e₁, some e₂ => e₁ = e₂
  | some e, none | none, some e => strsepFields e = operands
  | none, none => True

theorem execAgrees_iff (operands : List MbStr) (e₁ e₂ : Option MbStr) :
    (e₁.map strsepFields).getD operands = (e₂.map strsepFields).getD operands ↔ ExecAgrees operands e₁ e₂ := by
  cases e₁ <;> cases e₂ <;> simp [ExecAgrees, eq_comm]
  exact ⟨fun h => strsepFields_injective h, fun h => by rw [h]⟩

/-- **An option of the command line makes its variable irrelevant**, but for `--exec`: there the
variable wins. -/
theorem command_line_priority_iff {display₁ display₂ : Display} {opts : List Opt}
    {getenv₁ getenv₂ : String → Option MbStr} {st₁ st₂ : MainState} (x : Given)
    (hdiff : ∀ n, n ≠ x.envVar → getenv₁ n = getenv₂ n) (h₁ : startMain host.locale getenv₁ = .ok st₁)
    (h₂ : startMain host.locale getenv₂ = .ok st₂) (hline : x.onLine opts)
    (hrun : x = .exec → ∃ t₁ t₂, runMain host display₁ opts st₁ = .ok t₁ ∧
      runMain host display₂ opts st₂ = .ok t₂) :
    x.SameUse host display₁ display₂ opts st₁ st₂ ↔
      (x = .exec →
        ExecAgrees host.operands (getenvSet getenv₁ "PROCENV_EXEC") (getenvSet getenv₂ "PROCENV_EXEC")) := by
  cases x with
  | setting s =>
    simp only [reduceCtorEq, false_imp_iff, iff_true]
    have hagree : s.Agree st₁.settings st₂.settings := .start hdiff h₁ h₂
    -- from the option on, nothing is left of the variable
    have hloop : ∀ p, (∃ v, .long (s.option v) ∈ p) → ∀ t₁ t₂,
        runActions host (loopActions display₁ 0 p) st₁ = .ok t₁ →
        runActions host (loopActions display₂ 0 p) st₂ = .ok t₂ → t₁.settings = t₂.settings :=
      fun p hp t₁ t₂ ht₁ ht₂ => (hagree.loop (loop_settings_eq ht₁) (loop_settings_eq ht₂)).2 hp
    refine ⟨fun p v _ => ?_, fun p _ => hloop p, fun t₁ t₂ ht₁ ht₂ => ?_⟩
    · obtain ⟨c₁, -, rfl⟩ := start_of_startMain h₁
      obtain ⟨c₂, -, rfl⟩ := start_of_startMain h₂
      exact option_isOk s rfl rfl p v
    · obtain ⟨u₁, hu₁, hs₁⟩ := runMain_settings ht₁
      obtain ⟨u₂, hu₂, hs₂⟩ := runMain_settings ht₂
      rw [hs₁, hs₂]
      exact hloop opts hline u₁ u₂ hu₁ hu₂
  | exec =>
    obtain ⟨c₁, -, rfl⟩ := start_of_startMain h₁
    obtain ⟨c₂, -, rfl⟩ := start_of_startMain h₂
    obtain ⟨t₁, t₂, ht₁, ht₂⟩ := hrun rfl
    -- `exec_args` are the fields of the variable, or else the operands
    rw [← execAgrees_iff]
    simp only [forall_const]
    constructor
    · intro h
      have hargs := h t₁ t₂ ht₁ ht₂
      rw [runMain_execArgs ht₁ (.inr hline), runMain_execArgs ht₂ (.inr hline)] at hargs
      exact Option.some.inj hargs
    · intro h t₁ t₂ ht₁ ht₂
      rw [runMain_execArgs ht₁ (.inr hline), runMain_execArgs ht₂ (.inr hline)]
      exact congrArg some h

/-- `--format=json` with and without `PROCENV_FORMAT=xml`. -/
theorem format_priority :
    (Given.setting .format).SameUse posixHost noDisplay noDisplay [.long (.format (bytes "json"))]
      { settings := { outputFormat := .xml } } {} :=
  (command_line_priority_iff (.setting .format)
    (fun n hn => (if_neg hn : onlyVar "PROCENV_FORMAT" (bytes "xml") n = none)) rfl rfl
      ⟨bytes "json", by simp [Setting.option]⟩
    (by simp)).2 (by simp)

/-- The host of the example: two operands. -/
def echoHost : Host where
  locale := posixLocale
  operands := [bytes "echo", bytes "cli"]

/-- `PROCENV_EXEC='echo env' procenv --version --exec echo cli` runs `echo env`. -/
theorem exec_variable_wins :
    ∃ st₁ st₂,
      (∀ n, n ≠ Given.exec.envVar → onlyVar "PROCENV_EXEC" (bytes "echo env") n = none) ∧
      startMain echoHost.locale (onlyVar "PROCENV_EXEC" (bytes "echo env")) = .ok st₁ ∧
      startMain echoHost.locale (fun _ => none) = .ok st₂ ∧
      Given.exec.onLine [.display .showVersion, .long .exec] ∧
      ¬ Given.exec.SameUse echoHost (fun _ _ => (versionCalls.events, none))
        (fun _ _ => (versionCalls.events, none))
        [.display .showVersion, .long .exec] st₁ st₂ := by
  refine ⟨_, _, fun n hn => if_neg hn, rfl, rfl, by simp [Given.onLine], fun h => ?_⟩
  have hargs := h _ _ rfl rfl
  revert hargs
  decide

/-! ## Settings that can be used -/

/-- What the output functions assert about the settings: `common_assert` and `_show_output`. -/
def Usable (c : Settings) : Prop := 0 ≤ c.indentAmount ∧ (c.output = .file → c.outputFile.isSome = true)

/-- The argument of `--output`. -/
def LongOption.outputArg : LongOption → Option MbStr
  | .output optarg => some optarg
  | _ => none

/-- The output that is named last, by an option or else by the variable. -/
def namedOutput (getenv : String → Option MbStr) (os : List LongOption) : Option MbStr :=
  (os.filterMap LongOption.outputArg).getLast?.or (getenvSet getenv "PROCENV_OUTPUT")

theorem setOutputValue_file {e : MbStr} {c c' : Settings} (h : setOutputValue e c = .ok c') :
    c' = { c with output := c'.output } ∧ (c'.output = .file ↔ e = bytes "file") := by
  unfold setOutputValue at h
  split at h <;> cases h
  rename_i o ho
  have hmem : (e, o) ∈ outputMap := by
    obtain ⟨l₁, l₂, hl, -⟩ := List.lookup_eq_some_iff.1 ho
    simp [hl]
  refine ⟨rfl, show o = .file ↔ e = bytes "file" from ?_⟩
  simp only [outputMap, List.mem_cons, Prod.mk.injEq, List.not_mem_nil, or_false] at hmem
  rcases hmem with ⟨rfl, rfl⟩ | ⟨rfl, rfl⟩ | ⟨rfl, rfl⟩ | ⟨rfl, rfl⟩ | ⟨rfl, rfl⟩ <;> decide

/-- What an option that is accepted makes of what is asserted later. -/
theorem LongOption.set_usable {loc : Locale} {o : LongOption} {c c' : Settings} (h : o.set loc c = .ok c') :
    (0 ≤ c'.indentAmount ↔ (∃ v, .indent v = o) ∨ 0 ≤ c.indentAmount) ∧
    (c'.outputFile.isSome = true ↔ (∃ v, .file v = o) ∨ c.outputFile.isSome = true) ∧
    ((∀ v, o ≠ .file v) →
      (c'.output = .file ↔ o.outputArg.elim (c.output = .file) (· = bytes "file"))) := by
  cases o with
  | output optarg =>
    obtain ⟨hc, hfile⟩ := setOutputValue_file h
    rw [hc]
    simp [outputArg, hfile]
  | format optarg =>
    simp only [set, setOutputFormat] at h
    split at h <;> cases h
    simp [outputArg]
  | indent optarg =>
    -- an amount that is accepted is positive
    simp only [set] at h
    split at h <;> cases h
    rename_i hpos
    simp only [outputArg]
    simp
    omega
  | indentChar optarg =>
    simp only [set, handleIndentChar] at h
    split at h <;> cases h
    simp [outputArg]
  | file _ | fileAppend | exec | separator _ | crumbSeparator _ =>
    cases h
    simp [outputArg]

/-- What a sequence of options makes of it. -/
theorem sets_usable {loc : Locale} {os : List LongOption} {c c' : Settings}
    (h : os.foldlM (LongOption.set loc) c = .ok c') :
    (0 ≤ c'.indentAmount ↔ (∃ v, .indent v ∈ os) ∨ 0 ≤ c.indentAmount) ∧
    (c'.outputFile.isSome = true ↔ (∃ v, .file v ∈ os) ∨ c.outputFile.isSome = true) ∧
    ((∀ v, .file v ∉ os) →
      (c'.output = .file ↔
        (os.filterMap LongOption.outputArg).getLast?.elim (c.output = .file) (· = bytes "file"))) := by
  induction os generalizing c with
  | nil =>
    cases h
    simp
  | cons o os ih =>
    obtain ⟨c₁, h₁, h⟩ := ok_of_bind h
    obtain ⟨hi, hf, ho⟩ := ih h
    obtain ⟨hi₁, hf₁, ho₁⟩ := LongOption.set_usable h₁
    refine ⟨?_, ?_, fun hno => ?_⟩
    · rw [hi, hi₁, ← or_assoc]
      simp only [List.mem_cons, exists_or]
      rw [or_comm (a := ∃ v, LongOption.indent v ∈ os)]
    · rw [hf, hf₁, ← or_assoc]
      simp only [List.mem_cons, exists_or]
      rw [or_comm (a := ∃ v, LongOption.file v ∈ os)]
    · rw [ho fun v hv => hno v (by simp [hv])]
      have ho₁ := ho₁ fun v hv => hno v (by simp [hv])
      rw [List.filterMap_cons]
      -- the last value named is that of the rest, or this one
      cases harg : o.outputArg with
      | none => simp [ho₁, harg]
      | some v =>
        rw [harg] at ho₁
        cases hlast : (os.filterMap LongOption.outputArg).getLast? with
        | none => simp [List.getLast?_cons, hlast, ho₁]
        | some w => simp [List.getLast?_cons, hlast]

/-- A variable leaves the fields of the others. -/
theorem read_keeps {s : Setting} {getenv : String → Option MbStr} {c c' : Settings}
    (h : s.read getenv c = .ok c') :
    (s ≠ .indent → c'.indentAmount = c.indentAmount) ∧ (s ≠ .output → s ≠ .file → c'.output = c.output) ∧
      (s ≠ .file → c'.outputFile = c.outputFile) := by
  have hclear := Setting.clear_read h
  have hindent := congrArg Settings.indentAmount hclear
  have houtput := congrArg Settings.output hclear
  have hfile := congrArg Settings.outputFile hclear
  cases s <;> simp_all [Setting.clear]

theorem readAll_keeps {ss : List Setting} {getenv : String → Option MbStr} {c c' : Settings}
    (h : readAll getenv ss c = .ok c') :
    (.indent ∉ ss → c'.indentAmount = c.indentAmount) ∧ (.output ∉ ss → .file ∉ ss → c'.output = c.output) ∧
      (.file ∉ ss → c'.outputFile = c.outputFile) := by
  induction ss generalizing c with
  | nil =>
    cases h
    simp
  | cons s ss ih =>
    obtain ⟨d, hd, h⟩ := ok_of_bind h
    obtain ⟨hi, ho, hf⟩ := read_keeps hd
    obtain ⟨hi', ho', hf'⟩ := ih h
    simp only [List.mem_cons, not_or]
    exact ⟨fun ⟨h1, h2⟩ => (hi' h2).trans (hi (Ne.symm h1)),
      fun ⟨h1, h2⟩ ⟨h3, h4⟩ => (ho' h2 h4).trans (ho (Ne.symm h1) (Ne.symm h3)),
      fun ⟨h1, h2⟩ => (hf' h2).trans (hf (Ne.symm h1))⟩

/-- What the environment makes of what is asserted later. -/
theorem start_usable {loc : Locale} {getenv : String → Option MbStr} {st : MainState}
    (h : startMain loc getenv = .ok st) :
    (0 ≤ st.settings.indentAmount ↔ ∀ e, getenvSet getenv "PROCENV_INDENT" = some e → 0 ≤ atoi e) ∧
    (st.settings.outputFile.isSome = true ↔ (getenvSet getenv "PROCENV_FILE").isSome = true) ∧
    (getenvSet getenv "PROCENV_FILE" = none →
      (st.settings.output = .file ↔ getenvSet getenv "PROCENV_OUTPUT" = some (bytes "file"))) := by
  obtain ⟨c, hc, rfl⟩ := start_of_startMain h
  rw [checkSettings_eq] at hc
  obtain ⟨d, hd, hc⟩ := ok_of_bind hc
  -- `a` after the output, `b` after the file, `d` after the other variables, `c` after `init`
  obtain ⟨a, ha, hd⟩ := ok_of_bind hd
  obtain ⟨b, hb, hd⟩ := ok_of_bind hd
  have hlast : c.indentAmount = d.indentAmount ∧ c.output = d.output ∧ c.outputFile = d.outputFile := by
    rw [handleIndentChar_eq hc]
    exact ⟨rfl, rfl, rfl⟩
  have happend : (readAppend getenv b).indentAmount = b.indentAmount ∧ (readAppend getenv b).output = b.output ∧
      (readAppend getenv b).outputFile = b.outputFile := by
    unfold readAppend
    split <;> exact ⟨rfl, rfl, rfl⟩
  obtain ⟨-, hdo, hdf⟩ := readAll_keeps hd
  have houtput : c.output = b.output := by rw [hlast.2.1, hdo (by simp) (by simp), happend.2.1]
  have hfile : c.outputFile = b.outputFile := by rw [hlast.2.2, hdf (by simp), happend.2.2]
  refine ⟨?_, ?_, fun hno => ?_⟩
  · -- the format keeps the default of the amount, its own variable may change it
    obtain ⟨f, hf, hd⟩ := ok_of_bind hd
    obtain ⟨g, hg, hd⟩ := ok_of_bind hd
    have hrest := (readAll_keeps hd).1 (by simp)
    have hdefault : f.indentAmount = 2 := by
      rw [(read_keeps hf).1 (by simp), happend.1, (read_keeps hb).1 (by simp), (read_keeps ha).1 (by simp)]
    show 0 ≤ c.indentAmount ↔ _
    rw [hlast.1, hrest]
    simp only [Setting.read, Setting.envVar] at hg
    split at hg <;> rename_i he <;> cases hg
    · simp [he]
    · simp [he, hdefault]
  · show c.outputFile.isSome = true ↔ _
    rw [hfile]
    simp only [Setting.read, Setting.envVar] at hb
    split at hb <;> rename_i he <;> cases hb
    · simp [he]
    · simp [he, (read_keeps ha).2.2 (by simp)]
  · show c.output = .file ↔ _
    rw [houtput]
    simp only [Setting.read, Setting.envVar, hno, Except.ok.injEq] at hb
    subst hb
    simp only [Setting.read, Setting.envVar] at ha
    split at ha <;> rename_i he
    · simp [he, (setOutputValue_file ha).2]
    · cases ha
      simp [he]

/-- **Which accepted settings can be used**: an indent amount must not come negative from the environment
alone, and an output to a file must not be the last one named where no file is. -/
theorem accepted_usable_iff {getenv : String → Option MbStr} {os : List LongOption} {st st' : MainState}
    (hstart : startMain host.locale getenv = .ok st)
    (hloop : runActions host (loopActions display 0 (os.map .long)) st = .ok st') :
    Usable st'.settings ↔
      ((∃ v, .indent v ∈ os) ∨ ∀ e, getenvSet getenv "PROCENV_INDENT" = some e → 0 ≤ atoi e) ∧
      ((∃ v, .file v ∈ os) ∨ (getenvSet getenv "PROCENV_FILE").isSome = true ∨
        namedOutput getenv os ≠ some (bytes "file")) := by
  have hsets : os.foldlM (LongOption.set host.locale) st.settings = .ok st'.settings := by
    have h := loop_settings_eq hloop
    rwa [List.foldlM_map] at h
  obtain ⟨hi, hf, ho⟩ := sets_usable hsets
  obtain ⟨hi₀, hf₀, ho₀⟩ := start_usable hstart
  unfold Usable
  rw [hi, hi₀, hf, hf₀]
  refine and_congr_right fun _ => ?_
  by_cases hfile : (∃ v, .file v ∈ os) ∨ (getenvSet getenv "PROCENV_FILE").isSome = true
  · rw [← or_assoc]
    simp only [hfile, imp_true_iff, true_or]
  · -- without a file, the output must not be the one to a file
    obtain ⟨hos, henv⟩ := not_or.1 hfile
    have houtput : st'.settings.output = .file ↔ namedOutput getenv os = some (bytes "file") := by
      rw [ho fun v hv => hos ⟨v, hv⟩, ho₀ (by simpa using henv)]
      unfold namedOutput
      cases (os.filterMap LongOption.outputArg).getLast? <;> simp
    rw [← or_assoc]
    simp only [hfile, false_or, houtput, imp_false, ne_eq]

/-- `PROCENV_INDENT=4 procenv --output=stderr`. -/
theorem accepted_usable_stderr : Usable { indentAmount := 4, output := .stderr } := by
  have hstart : startMain posixHost.locale (onlyVar "PROCENV_INDENT" (bytes "4")) =
      .ok { settings := { indentAmount := 4 } } := rfl
  have hloop : runActions posixHost (loopActions noDisplay 0 ([LongOption.output (bytes "stderr")].map .long))
      { settings := { indentAmount := 4 } } = .ok { settings := { indentAmount := 4, output := .stderr } } := rfl
  refine (accepted_usable_iff hstart hloop).2 ⟨.inr fun e he => ?_, .inr (.inr (by decide))⟩
  obtain rfl : bytes "4" = e := Option.some.inj he
  decide

/-- `PROCENV_INDENT=-1 procenv`. -/
theorem negative_indent_accepted :
    ¬ ∀ (getenv : String → Option MbStr) (os : List LongOption) (st st' : MainState),
      startMain posixHost.locale getenv = .ok st →
      runActions posixHost (loopActions noDisplay 0 (os.map .long)) st = .ok st' → Usable st'.settings := by
  intro h
  have hbad := (h (onlyVar "PROCENV_INDENT" (bytes "-1")) [] _ _ rfl rfl).1
  revert hbad
  decide

end Procenv
