import Procenv.Proof.Environ
import Procenv.Proof.Program

/-!
# What the program was started with

The arguments and the environment of the process are in the report, each in the group of its routine, and a reader
of the bytes gets them back.

* `runs_showEnv`, `runs_showArguments`: what a run of the two routines that returns has shown.
* `IsReport.find`: the group of a routine is found in the report by its name.
* `procenv_inputs`: **the arguments and the environment are read back from what the program writes**.
-/

namespace Procenv

open Text Interact Show

variable {cfg : Config} {env : Env} {o : Prog.Oracle Call}

/-! ## Readers -/

namespace Outline

/-- What the first group of a name holds. -/
def find (name : WStr) : Outline → Option Outline
  | nil => none
  | entry _ _ next => next.find name
  | group _ name' kids next => if name' = name then some kids else next.find name

/-- The entries outside the groups. -/
def entries : Outline → List (WStr × WStr)
  | nil => []
  | entry name value next => (name, value) :: next.entries
  | group _ _ _ next => next.entries

/-- The arguments that a document tells, its objects erased. -/
def arguments (doc : Outline) : Option (List WStr) := do
  let list ← (← doc.find (lit "arguments")).find (lit "list")
  return list.entries.map Prod.snd

/-- The variables of the environment that a document tells, its objects erased. -/
def environment (doc : Outline) : Option (List (WStr × WStr)) := do
  return (← doc.find (lit "environment")).entries

end Outline

/-- A string `NAME=VALUE`, decoded. -/
def Locale.assignment (loc : Locale) (s : MbStr) : Option (WStr × WStr) :=
  match s.span (· ≠ 61) with
  | (_, []) => none
  | (name, _ :: value) => do return (← loc.mbsrtowcs name, ← loc.mbsrtowcs value)

/-! ## The two routines -/

/-- Why `show_env` stops: as before, or a string has no `=`. -/
def EnvFails (env : Env) (o : Prog.Oracle Call) (e : Halt) : Prop :=
  EnvStop env o e ∨ e = .assertFailed "show_env"

/-- A string is one entry, if it has a `=`. -/
theorem runs_showEnvVar_any {s : MbStr} (hs : s ∈ env.environ) :
    Prog.Runs o (fun _ ws => ∃ e, EnvEntry env s e ∧ ws = [e]) (EnvFails env o) (showEnvVar env s) := by
  by_cases hmem : 61 ∈ s
  · obtain ⟨name, value, rfl, hname⟩ := List.eq_append_cons_of_mem hmem
    exact (runs_showEnvVar hname hs).weaken fun e he => Or.inl he
  · have hall : ∀ c ∈ s, decide (c ≠ 61) = true := fun c hc => decide_eq_true fun heq => hmem (heq ▸ hc)
    have hspan : s.span (· ≠ 61) = (s, []) := by
      rw [List.span_eq_takeWhile_dropWhile, List.takeWhile_eq_self_iff.2 hall, List.dropWhile_eq_nil_iff.2 hall]
    unfold showEnvVar
    rw [hspan]
    exact Prog.Runs.stop (Or.inr rfl)

/-- **A run of `show_env`**, whatever the order of the strings is. -/
theorem runs_showEnv : Prog.Runs o (fun _ es => ∃ vars entries, vars.Perm env.environ ∧
    List.Forall₂ (EnvEntry env) vars entries ∧
      es = .sectionOpen (bytes "environment") :: entries ++ [.sectionClose])
    (EnvFails env o) (showEnv env) := by
  have halloc : Prog.Runs o (fun _ ws => ws = []) (EnvFails env o) (allocOrDie "failed to allocate storage") :=
    runs_allocOrDie fun hrefused => Or.inl (Or.inl ⟨rfl, hrefused⟩)
  unfold showEnv
  refine Prog.Runs.emit (halloc.bind fun _ ws hws => ?_)
  subst hws
  refine (Prog.Runs.forM_silent fun _ _ => halloc).bind fun _ ws hws => ?_
  subst hws
  refine (Prog.Runs.asked _).bind fun le ws hle => ?_
  obtain ⟨rfl, -⟩ := hle
  have hloop := Prog.Runs.forM_single fun s (hs : s ∈ env.environ.mergeSort le) =>
    @runs_showEnvVar_any env o s ((List.mergeSort_perm _ _).mem_iff.1 hs)
  refine hloop.bind fun _ entries hentries => Prog.Runs.emit (Prog.Runs.ret ?_)
  exact ⟨_, entries, List.mergeSort_perm _ _, hentries, rfl⟩

/-- What is shown of an argument. -/
def ArgumentShown (env : Env) (x : MbStr × Nat) (es : List Event) : Prop :=
  ∃ name value, env.locale.mbsrtowcs x.1 = some value ∧
    es = [.objectOpen false, .entry name value, .objectClose false]

/-- **A run of `show_arguments`**: the arguments are in the list, in their order. -/
theorem runs_showArguments : Prog.Runs o (fun _ es => ∃ count blocks,
    List.Forall₂ (ArgumentShown env) env.argvp.zipIdx blocks ∧
      es = [.sectionOpen (bytes "arguments"), .entry (bytes "count") count, .containerOpen (bytes "list")] ++
        blocks.flatten ++ [.containerClose, .sectionClose]) (fun _ => True) (showArguments env) := by
  have hone (x : MbStr × Nat) : Prog.Runs o (fun _ ws => ArgumentShown env x ws) (fun _ => True)
      (showArgument env x.1 x.2) := by
    refine Prog.Runs.emit ((runs_str fun _ => trivial).bind fun w ws hw => ?_)
    obtain ⟨rfl, hw⟩ := hw
    exact Prog.Runs.emit (Prog.Runs.emit (Prog.Runs.ret ⟨_, w, hw, rfl⟩))
  unfold showArguments
  refine Prog.Runs.emit (Prog.Runs.emit (Prog.Runs.emit ?_))
  refine (Prog.Runs.forM fun x _ => hone x).bind fun _ ws hws => ?_
  obtain ⟨blocks, hblocks, rfl⟩ := hws
  exact Prog.Runs.emit (Prog.Runs.emit (Prog.Runs.ret ⟨_, blocks, hblocks, rfl⟩))

/-- The entries of variables tell the variables. -/
theorem entries_told {vars : List MbStr} {entries : List Event} (hloc : cfg.locale = env.locale)
    (h : List.Forall₂ (EnvEntry env) vars entries) (henc : ∀ e ∈ entries, e.Encodable cfg) :
    ∃ kids : Calls, kids.events = entries ∧
      (kids.outline cfg).erase.entries.map some = vars.map env.locale.assignment := by
  induction h with
  | nil => exact ⟨.nil, rfl, rfl⟩
  | @cons s e vars entries hs _ ih =>
    obtain ⟨kids, hevents, htold⟩ := ih fun e he => henc e (List.mem_cons_of_mem _ he)
    obtain ⟨value, v, hform, hvalue, rfl⟩ := hs
    obtain ⟨r, hr⟩ := Option.isSome_iff_exists.1 (henc _ List.mem_cons_self).1
    obtain ⟨w, hw, -⟩ := encodeName_eq hr
    have hname : env.locale.mbsrtowcs (envName s) = some w := by
      unfold charToWchar at hw
      rw [hloc] at hw
      split at hw
      · cases hw
      · cases hw
      · rename_i hdecode
        exact hdecode.trans hw
    have hspan : s.span (· ≠ 61) = (envName s, 61 :: value) := by
      rw [List.span_eq_takeWhile_dropWhile]
      refine Prod.ext rfl ?_
      have hsplit := List.takeWhile_append_dropWhile (p := fun c => decide (c ≠ 61)) (l := s)
      exact List.append_cancel_left (hsplit.trans hform)
    refine ⟨.entry (envName s) v kids, congrArg (_ :: ·) hevents, ?_⟩
    have hwide : cfg.wideName (envName s) = w := by rw [Config.wideName, hw, Option.getD_some]
    have htell : env.locale.assignment s = some (w, v) := by
      rw [Locale.assignment, hspan]
      simp [hname, hvalue]
    rw [List.map_cons, htell, ← htold, ← hwide]
    rfl

/-- The objects of arguments tell the arguments. -/
theorem arguments_told {args : List (MbStr × Nat)} {blocks : List (List Event)}
    (h : List.Forall₂ (ArgumentShown env) args blocks) :
    ∃ kids : Calls, kids.events = blocks.flatten ∧
      ((kids.outline cfg).erase.entries.map Prod.snd).map some = args.map fun x => env.locale.mbsrtowcs x.1 := by
  induction h with
  | nil => exact ⟨.nil, rfl, rfl⟩
  | cons hx _ ih =>
    obtain ⟨kids, hevents, htold⟩ := ih
    obtain ⟨name, value, hvalue, rfl⟩ := hx
    refine ⟨.group .object (.entry name value .nil) kids, ?_, ?_⟩
    · rw [Calls.events, hevents]
      rfl
    · rw [List.map_cons, hvalue, ← htold]
      rfl

/-! ## Finding a group -/

/-- The names of groups are printable ASCII. -/
theorem group_ascii (r : Routine) : ∃ s : String,
    (s.toList.all fun c => decide (0x20 ≤ c.toNat ∧ c.toNat ≤ 0x7E)) = true ∧ (Show.group r).name = bytes s := by
  cases r with
  | showMounts what => cases what <;> exact ⟨_, by decide, rfl⟩
  | _ => exact ⟨_, by decide, rfl⟩

theorem wideName_ascii (hascii : cfg.locale.Ascii) {s : String}
    (hs : (s.toList.all fun c => decide (0x20 ≤ c.toNat ∧ c.toNat ≤ 0x7E)) = true) :
    cfg.wideName (bytes s) = lit s := by
  rw [Config.wideName, charToWchar, hascii.decodes s hs]
  cases lit s <;> rfl

/-- Decoded names of groups are the same only if the names are. -/
theorem wideName_group (hascii : cfg.locale.Ascii) {r r' : Routine}
    (h : cfg.wideName (Show.group r).name = cfg.wideName (Show.group r').name) :
    (Show.group r).name = (Show.group r').name := by
  obtain ⟨s, hs, hname⟩ := group_ascii r
  obtain ⟨s', hs', hname'⟩ := group_ascii r'
  rw [hname, hname', wideName_ascii hascii hs, wideName_ascii hascii hs'] at h
  rw [hname, hname']
  exact posixLocale_injective (posixLocale_ascii.decodes s hs) (h ▸ posixLocale_ascii.decodes s' hs')

theorem find_group {name : WStr} {g : Group} (hg : g.isObject = false) (kids next : Calls) :
    ((Calls.group g kids next).outline cfg).erase.find name =
      if cfg.wideName g.name = name then some (kids.outline cfg).erase
      else (next.outline cfg).erase.find name := by
  cases g with
  | object => simp [Group.isObject] at hg
  | sect name' => rfl
  | cont name' => rfl

/-- A group is found among groups of other names. -/
theorem find_sequence (hascii : cfg.locale.Ascii) {kids : Nat → Routine → Calls} {ps : List (Nat × Routine)}
    (hnames : (ps.map fun p => (Show.group p.2).name).Nodup) {p : Nat × Routine} (hp : p ∈ ps) :
    ((sequenceCalls (fun n r => .group (Show.group r) (kids n r) .nil) ps).outline cfg).erase.find
      (cfg.wideName (Show.group p.2).name) = some ((kids p.1 p.2).outline cfg).erase := by
  induction ps with
  | nil => cases hp
  | cons q ps ih =>
    obtain ⟨hq, hrest⟩ := List.nodup_cons.1 hnames
    change ((Calls.group (Show.group q.2) (kids q.1 q.2) (sequenceCalls _ ps)).outline cfg).erase.find _ = _
    rw [find_group (Show.group_isObject q.2)]
    rcases List.mem_cons.1 hp with rfl | hp
    · rw [if_pos rfl]
    · have hne : cfg.wideName (Show.group q.2).name ≠ cfg.wideName (Show.group p.2).name := by
        intro heq
        exact hq (List.mem_map.2 ⟨p, hp, (wideName_group hascii heq).symm⟩)
      rw [if_neg hne]
      exact ih hrest hp

/-- **The group of a routine is found by its name**, with what the routine has shown. -/
theorem IsReport.find {o : Nat → Prog.Oracle Call} {es : Nat → Routine → List Event} {shown : Option Routine}
    {report : Calls} (h : IsReport cfg es (called shown) report) (hascii : cfg.locale.Ascii)
    (hfound : ∀ p ∈ called shown, Found cfg env (o p.1) p.2 (es p.1 p.2))
    {p : Nat × Routine} (hp : p ∈ called shown)
    {kids : Calls} (hkids : es p.1 p.2 = (Calls.group (Show.group p.2) kids .nil).events) :
    (report.outline cfg).erase.find (cfg.wideName (Show.group p.2).name) = some (kids.outline cfg).erase := by
  have hgroup : ∀ n r, ∃ kids : Calls, (n, r) ∈ called shown →
      es n r = (Calls.group (Show.group r) kids .nil).events := by
    intro n r
    by_cases hp : (n, r) ∈ called shown
    · obtain ⟨kids, -, hkids⟩ := (hfound _ hp).group
      exact ⟨kids, fun _ => hkids⟩
    · exact ⟨.nil, fun hp' => absurd hp' hp⟩
  choose kids' hkids' using hgroup
  have hreport : report = sequenceCalls (fun n r => .group (Show.group r) (kids' n r) .nil) (called shown) := by
    apply Calls.events_injective
    rw [h.events, sequenceCalls_flatMap Calls.events rfl Calls.events_append]
    exact List.flatMap_congr fun q hq => hkids' q.1 q.2 hq
  have hsame : kids' p.1 p.2 = kids := by
    have hcalls := Calls.events_injective ((hkids' p.1 p.2 hp).symm.trans hkids)
    exact (Calls.group.inj hcalls).2.1
  rw [hreport, ← hsame]
  exact find_sequence hascii (called_groups shown) hp

/-! ## Reading them back -/

section Told

variable {o : Nat → Prog.Oracle Call} {es : Nat → Routine → List Event} {shown : Option Routine} {report : Calls}

/-- The environment is told by a report with the section of `show_env`. -/
theorem environment_told (hreport : IsReport cfg es (called shown) report) (hascii : cfg.locale.Ascii)
    (hloc : cfg.locale = env.locale) (hfound : ∀ p ∈ called shown, Found cfg env (o p.1) p.2 (es p.1 p.2))
    {n : Nat} (hp : (n, .showEnv) ∈ called shown) :
    ∃ vars, (report.outline cfg).erase.environment = some vars ∧
      (vars.map some).Perm (env.environ.map env.locale.assignment) := by
  obtain ⟨n', hrun⟩ := (hfound _ hp).returns
  obtain ⟨vars, entries, hperm, hentries, hes⟩ := (@runs_showEnv env (o n)).returned hrun
  have henc : ∀ e ∈ entries, e.Encodable cfg := by
    intro e he
    apply (hfound _ hp).encodable e
    rw [hes]
    simp [he]
  obtain ⟨kids, hkids, htold⟩ := entries_told hloc hentries henc
  have hgroup : es n .showEnv = (Calls.group (Show.group .showEnv) kids .nil).events := by
    rw [hes, Calls.events, hkids]
    rfl
  have hname : cfg.wideName (bytes "environment") = lit "environment" := wideName_ascii hascii (by decide)
  have hfind := hreport.find hascii hfound hp hgroup
  change (report.outline cfg).erase.find (cfg.wideName (bytes "environment")) = _ at hfind
  rw [hname] at hfind
  refine ⟨(kids.outline cfg).erase.entries, ?_, ?_⟩
  · rw [Outline.environment, hfind]
    rfl
  · rw [htold]
    exact hperm.map _

/-- The arguments are told by a report with the section of `show_arguments`. -/
theorem arguments_shown (hreport : IsReport cfg es (called shown) report) (hascii : cfg.locale.Ascii)
    (hfound : ∀ p ∈ called shown, Found cfg env (o p.1) p.2 (es p.1 p.2)) {n : Nat}
    (hp : (n, .showArguments) ∈ called shown) :
    ∃ args, (report.outline cfg).erase.arguments = some args ∧
      args.map some = env.argvp.map env.locale.mbsrtowcs := by
  obtain ⟨n', hrun⟩ := (hfound _ hp).returns
  obtain ⟨count, blocks, hblocks, hes⟩ := (@runs_showArguments env (o n)).returned hrun
  obtain ⟨list, hlist, htold⟩ := @arguments_told cfg env _ _ hblocks
  let kids : Calls := .entry (bytes "count") count (.group (.cont (bytes "list")) list .nil)
  have hgroup : es n .showArguments = (Calls.group (Show.group .showArguments) kids .nil).events := by
    rw [hes]
    simp [kids, Calls.events, hlist, Show.group, Group.opening, Group.closing]
  have hname {s : String} (hs : (s.toList.all fun c => decide (0x20 ≤ c.toNat ∧ c.toNat ≤ 0x7E)) = true) :
      cfg.wideName (bytes s) = lit s := wideName_ascii hascii hs
  have hfind := hreport.find hascii hfound hp hgroup
  change (report.outline cfg).erase.find (cfg.wideName (bytes "arguments")) = _ at hfind
  rw [hname (by decide)] at hfind
  have hkids : (kids.outline cfg).erase.find (lit "list") = some (list.outline cfg).erase := by
    change (((Calls.group (.cont (bytes "list")) list .nil).outline cfg).erase).find _ = _
    have hlist' : cfg.wideName (Group.cont (bytes "list")).name = lit "list" := hname (by decide)
    rw [find_group rfl, if_pos hlist']
  refine ⟨(list.outline cfg).erase.entries.map Prod.snd, ?_, ?_⟩
  · rw [Outline.arguments, hfind]
    change (do let l ← (kids.outline cfg).erase.find (lit "list"); return l.entries.map Prod.snd) = _
    rw [hkids]
    rfl
  · rw [htold]
    have hzip : env.argvp.zipIdx.map Prod.fst = env.argvp := List.zipIdx_map_fst 0 env.argvp
    calc env.argvp.zipIdx.map (fun x => env.locale.mbsrtowcs x.1)
        = (env.argvp.zipIdx.map Prod.fst).map env.locale.mbsrtowcs := by rw [List.map_map]; rfl
      _ = env.argvp.map env.locale.mbsrtowcs := by rw [hzip]

end Told

/-- **What the program was started with is read back from what it writes**, in JSON and in XML, with `dump` or
with the display option of the routine: the arguments in their order and the variables of the environment,
each as often as it is there, all of them decoded. -/
theorem procenv_inputs {print : WStr → Vswprintf} {encode : WStr → Option MbStr} (calloc : Nat → Bool)
    {getenv : String → Option MbStr} {os : List LongOption} (shown : Option Routine)
    {st : MainState} {c : Settings} {host : Host} {o : Nat → Prog.Oracle Call} {es : Nat → Routine → List Event}
    {display : Display} (hlib : Document.CLibrary (host.config {}) print)
    (hcodec : PrintedCodec host.locale encode) (hloc : host.locale.Standard) (hascii : host.locale.Ascii)
    (henv : host.locale = env.locale) (hconf : Configured host getenv os st c)
    (hf : c.outputFormat = .json ∨ c.outputFormat = .xml) (hu : Json.isWs c.wideIndentChar = true)
    (hun : c.wideIndentChar ≠ nl)
    (hfound : ∀ p ∈ called shown, Found (host.config c) env (o p.1) p.2 (es p.1 p.2))
    (hread : ∀ p ∈ called shown, ∀ e ∈ es p.1 p.2, e.Readable (host.config c))
    (hdisplay : IsDisplay env o display) :
    ∃ (told : Outline) (text : WStr) (bytes : MbStr),
      encode text = some bytes ∧ host.locale.mbsrtowcs bytes = some text ∧
      (c.outputFormat = .json → SaysJson text told) ∧ (c.outputFormat = .xml → SaysXml text told.erase) ∧
      (.showArguments ∈ (called shown).map Prod.snd →
        ∃ args, told.erase.arguments = some args ∧ args.map some = env.argvp.map host.locale.mbsrtowcs) ∧
      (.showEnv ∈ (called shown).map Prod.snd →
        ∃ vars, told.erase.environment = some vars ∧
          (vars.map some).Perm (env.environ.map host.locale.assignment)) ∧
      (bytes.length + 1 < 2 ^ 64 → calloc (bytes.length + 1) = true →
        Document.mainOutput host print encode calloc getenv display (reportOptions os shown) = .ok bytes) := by
  obtain ⟨report, text, bytes, hreport, hencode, hdecode, hjson, hxml, hwrite⟩ :=
    report_written shown calloc hlib hcodec hloc hconf hf hu hun hfound hread hdisplay
  refine ⟨report.outline (host.config c), text, bytes, hencode, hdecode, hjson, hxml, ?_, ?_, hwrite⟩
  · intro hmem
    obtain ⟨⟨n, r⟩, hp, rfl⟩ := List.mem_map.1 hmem
    rw [henv]
    exact arguments_shown hreport hascii hfound hp
  · intro hmem
    obtain ⟨⟨n, r⟩, hp, rfl⟩ := List.mem_map.1 hmem
    rw [henv]
    exact environment_told hreport hascii henv hfound hp

/-! ## A login -/

theorem posixStrings_ascii : Document.posixStrings.Ascii := by
  refine ⟨fun s hs => ?_⟩
  have hplain : ∀ b ∈ bytes s, decide (b ≠ 0) = true := by
    intro b hb
    obtain ⟨c, hc, rfl⟩ := List.mem_map.1 hb
    have hc := of_decide_eq_true (List.all_eq_true.1 hs c hc)
    refine decide_eq_true fun heq => ?_
    have hzero : c.toNat % 2 ^ 8 = 0 := by
      rw [← UInt8.toNat_ofNat', heq]
      rfl
    omega
  change posixLocale.mbsrtowcs ((bytes s).takeWhile (· ≠ 0)) = _
  rw [List.takeWhile_eq_self_iff.2 hplain]
  exact posixLocale_ascii.decodes s hs

/-- Two variables. -/
def loginEnv : Env := { posixEnv with environ := [bytes "HOME=/root", bytes "TERM=vt100"] }

/-- What `show_env` shows of them. -/
def loginCalls : Calls :=
  .group (.sect (bytes "environment"))
    (.entry (bytes "HOME") (lit "/root") (.entry (bytes "TERM") (lit "vt100") .nil)) .nil

theorem loginEnv_run : (Show.showRoutine loginEnv .showEnv).run posixOracle 0 =
    .ok ((), loginCalls.events, 4) := by
  have hsort : loginEnv.environ.mergeSort byteLe = loginEnv.environ := List.mergeSort_of_pairwise (by decide)
  have hrun : (Show.showRoutine loginEnv .showEnv).run posixOracle 0 =
      (showEnvWith loginEnv fun _ _ => loginEnv.environ.mergeSort byteLe).run posixOracle 0 := rfl
  rw [hrun, hsort]
  rfl

/-- `--format=json --env`. -/
theorem procenv_inputs_login :
    let host : Host := { locale := Document.posixStrings }
    ∃ (told : Outline) (text : WStr) (bytes' : MbStr), posixWcstombs text = some bytes' ∧ SaysJson text told ∧
      (∃ vars, told.erase.environment = some vars ∧
        (vars.map some).Perm [some (lit "HOME", lit "/root"), some (lit "TERM", lit "vt100")]) ∧
      (bytes'.length + 1 < 2 ^ 64 →
        Document.mainOutput host Document.printText posixWcstombs (fun _ => true) (fun _ => none)
          (displayOf loginEnv fun _ => posixOracle) [.long (.format (bytes "json")), .display .showEnv] =
            .ok bytes') := by
  intro host
  let c : Settings := { outputFormat := .json }
  have hfound : ∀ p ∈ called (some Routine.showEnv),
    Found (host.config c) loginEnv posixOracle p.2 loginCalls.events := by
    intro p hp
    obtain rfl := List.mem_singleton.1 hp
    exact ⟨⟨4, loginEnv_run⟩, by decide, by simp⟩
  have hread : ∀ p ∈ called (some Routine.showEnv), ∀ e ∈ loginCalls.events, e.Readable (host.config c) := by
    intro p _
    decide
  obtain ⟨told, text, bytes', hencode, -, hjson, -, -, henv, hwrite⟩ :=
    @procenv_inputs loginEnv Document.printText posixWcstombs (fun _ => true) (fun _ => none)
      [.format (bytes "json")]
      (some .showEnv) {} c host (fun _ => posixOracle) (fun _ _ => loginCalls.events)
      (displayOf loginEnv fun _ => posixOracle) (Document.posixStrings_library rfl) posixStrings_codec
      ⟨posixLocale_standard.print, posixLocale_standard.cntrl⟩ posixStrings_ascii rfl
      ⟨rfl, rfl, by simp, by decide⟩
      (Or.inl rfl) (by decide) (by decide) hfound hread (displayOf_isDisplay _ _)
  exact ⟨told, text, bytes', hencode, hjson rfl, henv (by simp [called]), fun hsize => hwrite hsize rfl⟩

end Procenv
