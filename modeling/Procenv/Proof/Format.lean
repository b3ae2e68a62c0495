import Procenv.Proof.Append

/-!
# The loops that print into a growing buffer

`appendva` and `wappendva` print again and again, each time with room for one more
character, until the text fits. `vsnprintf` says how long a text is, so that `appendva`
can tell a text that does not fit from one that cannot be made; `vswprintf` does not, and
`wappendva` goes on forever when an argument cannot be converted. The text is appended
where the length of the destination says that its content ends: behind the terminator,
if the length counts that.

* `appendva_appends`: **`appendva` appends the text, or dies.**
* `wappendvaLoop_hangs`, `wappendvaLoop_ends`: when the loop of `wappendva` ends.
* `growing_formats_iff`: **both do what they are for exactly when the wide text can be made
  and the length of its destination does not count the terminator.**
-/

namespace Procenv

open Text Data Outcome

/-- The text was appended to what was there, or the program has died because there is none. -/
def Appended {δ β : Type} (content : δ → Option (List β)) (old : List β) (expansion : Option (List β))
    (r : Except Halt δ) : Prop :=
  match expansion with
  | none => ∃ fmt args, r = .error (.die fmt args)
  | some text => ∃ d, r = .ok d ∧ content d = some (old ++ text)

/-! ## `appendva` -/

/-- The loop dies, or ends with the text. -/
theorem appendvaLoop_ends (v : Vsnprintf) (len : Nat) :
    ∃ fuel r, appendvaLoop v fuel len = some r ∧
      match v.expansion with
      | none => r = .error (.die "failed to format string" [])
      | some text => r = .ok text := by
  cases he : v.expansion with
  | none =>
    have hret := v.unconvertible he len
    exact ⟨1, _, by simp [appendvaLoop, hret], rfl⟩
  | some text =>
    -- the rounds that are left until the text fits
    induction hk : text.length + 1 - len generalizing len with
    | zero =>
      have hfits := v.fits text he len (by omega)
      have hlt : ((text.length : Int) < len) := by omega
      exact ⟨1, _, by simp [appendvaLoop, hfits, hlt], rfl⟩
    | succ k ih =>
      have hret := v.long text he len (by omega)
      obtain ⟨fuel, r, hr, h⟩ := ih (len + 1) (by omega)
      refine ⟨fuel + 1, r, ?_, h⟩
      rw [appendvaLoop]
      simp only [hret]
      rw [if_neg (by omega), if_neg (by omega)]
      exact hr

/-- The content of a string that may be `NULL`. -/
def mbContent (dest : Option MbStr) : Option MbStr := some (dest.getD [])

theorem mbContent_append (dest : Option MbStr) (src : MbStr) :
    mbContent (append dest src) = some (dest.getD [] ++ src) := by
  unfold append
  split
  · rename_i h
    rw [List.eq_nil_of_length_eq_zero h, List.append_nil]
    rfl
  · rfl

/-- **`appendva` appends the text, or dies.** -/
theorem appendva_appends (dest : Option MbStr) (v : Vsnprintf) :
    ∃ fuel r, appendva fuel dest v = some r ∧ Appended mbContent (dest.getD []) v.expansion r := by
  obtain ⟨fuel, new, hloop, hnew⟩ := appendvaLoop_ends v defaultAllocGuessSize
  refine ⟨fuel, _, by rw [appendva, hloop, Option.map_some], ?_⟩
  unfold Appended
  cases he : v.expansion with
  | none =>
    rw [he] at hnew
    exact ⟨_, _, by rw [hnew]; rfl⟩
  | some text =>
    rw [he] at hnew
    cases dest with
    | none => exact ⟨some text, by rw [hnew]; rfl, rfl⟩
    | some d => exact ⟨append (some d) text, by rw [hnew]; rfl, mbContent_append _ _⟩

/-! ## `wappendva` -/

variable {v : Vswprintf} {text old : WStr} {dest : Option Pstring}

/-- A round that fails asks for more room. -/
theorem wappendvaLoop_again {fuel len : Nat} (hret : (v.call len).1 < 0) :
    wappendvaLoop v (fuel + 1) len = wappendvaLoop v fuel (len + 1) := by
  rw [wappendvaLoop]
  split
  rename_i ret new hcall
  rw [hcall] at hret
  exact if_neg (by omega)

/-- The round that succeeds: the text stands in a buffer filled up with terminators. -/
theorem wappendvaLoop_fits (he : v.expansion = some text) (fuel k : Nat) :
    wappendvaLoop v (fuel + 1) (text.length + (k + 1)) =
      some (.ok (text.length, text.map some ++ List.replicate (k + 2) (some 0))) := by
  have hstore : Buffer.storeAll (List.replicate (1 + (text.length + (k + 1))) (some 0)) 0 (text ++ [0]) =
      some (text.map some ++ List.replicate (k + 2) (some 0)) := by
    rw [Buffer.storeAll_eq (by simp; omega), List.drop_replicate]
    simp only [List.length_append, List.length_cons, List.length_nil, List.take_zero, List.nil_append,
      List.map_append, List.map_cons, List.map_nil]
    rw [show 1 + (text.length + (k + 1)) - (0 + (text.length + (0 + 1))) = k + 1 by omega, List.append_assoc,
      List.replicate_succ (n := k + 1)]
    rfl
  rw [wappendvaLoop, v.fits text he _ (by omega)]
  simp only
  rw [if_pos (by omega), hstore]
  simp [access, bind, Except.bind, pure, Except.pure]

/-- **The loop does not end when an argument cannot be converted.** -/
theorem wappendvaLoop_hangs (he : v.expansion = none) (fuel len : Nat) : wappendvaLoop v fuel len = none := by
  induction fuel generalizing len with
  | zero => rfl
  | succ fuel ih =>
    rw [wappendvaLoop_again (v.unconvertible he len)]
    exact ih (len + 1)

/-- What the loop ends with. -/
theorem wappendvaLoop_eq (he : v.expansion = some text) {fuel len : Nat} {r : Except Halt (Nat × Buffer WChar)}
    (h : wappendvaLoop v fuel len = some r) :
    ∃ k, r = .ok (text.length, text.map some ++ List.replicate (k + 2) (some 0)) := by
  induction fuel generalizing len with
  | zero => cases h
  | succ fuel ih =>
    by_cases hlen : text.length < len
    · obtain ⟨k, rfl⟩ : ∃ k, len = text.length + (k + 1) := ⟨len - text.length - 1, by omega⟩
      rw [wappendvaLoop_fits he] at h
      exact ⟨k, (Option.some.inj h).symm⟩
    · rw [wappendvaLoop_again (v.long text he len (by omega))] at h
      exact ih h

/-- **The loop ends when the text can be made**, at the latest in the round that has room for it. -/
theorem wappendvaLoop_ends (he : v.expansion = some text) {fuel len : Nat} (hlen : text.length < fuel + len) :
    ∃ r, wappendvaLoop v (fuel + 1) len = some r := by
  induction fuel generalizing len with
  | zero =>
    obtain ⟨k, rfl⟩ : ∃ k, len = text.length + (k + 1) := ⟨len - text.length - 1, by omega⟩
    exact ⟨_, wappendvaLoop_fits he 0 k⟩
  | succ fuel ih =>
    by_cases hfits : text.length < len
    · obtain ⟨k, rfl⟩ : ∃ k, len = text.length + (k + 1) := ⟨len - text.length - 1, by omega⟩
      exact ⟨_, wappendvaLoop_fits he (fuel + 1) k⟩
    · obtain ⟨r, hr⟩ : ∃ r, wappendvaLoop v (fuel + 1) (len + 1) = some r := ih (by omega)
      exact ⟨r, by rw [wappendvaLoop_again (v.long text he len (by omega)), hr]⟩

theorem wappendva_ends (he : v.expansion = some text) (dest : Option Pstring) :
    ∃ r, wappendva (text.length + 1) dest v = some r := by
  obtain ⟨new, hloop⟩ := wappendvaLoop_ends he
    (Nat.lt_add_of_pos_right (show 0 < defaultAllocGuessSize by decide))
  rw [wappendva, hloop]
  exact ⟨_, rfl⟩

/-- The content of a `pstring` that may be `NULL`. -/
def wideContent (dest : Option Pstring) : Option WStr :=
  match dest with
  | none => some []
  | some d => d.content

/-- What `wappendva` makes without a destination: one more terminator stands behind the string. -/
def Pstring.printed (t : WStr) : Pstring :=
  ⟨t.map some ++ [some 0, some 0], t.length + 1, (1 + (t.length + 1)) * sizeofWchar⟩

theorem content_printed (hz : 0 ∉ text) : (Pstring.printed text).content = some text := by
  rw [Pstring.content, if_neg (by simp [Pstring.printed])]
  exact Buffer.string_map hz [some 0]

/-- A text made without a destination. -/
theorem wappendva_null (he : v.expansion = some text) {fuel : Nat} {r : Except Halt (Option Pstring)}
    (h : wappendva fuel none v = some r) : r = .ok (some (.printed text)) := by
  obtain ⟨new, hnew, rfl⟩ := Option.map_eq_some_iff.1 h
  obtain ⟨k, rfl⟩ := wappendvaLoop_eq he hnew
  have hzeros : Buffer.realloc (List.replicate (k + 1) (some (0 : WChar))) 1 = [some 0] := by
    rw [List.replicate_succ, Buffer.realloc]
    simp
  have hbuf : Buffer.realloc (text.map some ++ List.replicate (k + 2) (some (0 : WChar)))
    (1 + (text.length + 1)) =
      text.map some ++ [some 0, some 0] := by
    rw [List.replicate_succ, Buffer.realloc_string, hzeros]
  simp only [bind, Except.bind, pure, Except.pure, hbuf, Pstring.printed]

theorem wappendva_none (he : v.expansion = some text) {fuel : Nat} {r : Except Halt (Option Pstring)}
    (h : wappendva fuel none v = some r) : ∃ d, r = .ok d ∧ wideContent d = some text :=
  ⟨_, wappendva_null he h, content_printed (v.noZero text he)⟩

/-- With a destination the text is appended to that. -/
theorem wappendva_some (he : v.expansion = some text)
    {fuel : Nat} {d : Pstring} {r : Except Halt (Option Pstring)} (h : wappendva fuel (some d) v = some r) :
    r = wappend (some d) text := by
  obtain ⟨new, hnew, rfl⟩ := Option.map_eq_some_iff.1 h
  obtain ⟨k, rfl⟩ := wappendvaLoop_eq he hnew
  have hstr : Buffer.string 0 (text.map some ++ List.replicate (k + 2) (some 0)) = some text := by
    rw [List.replicate_succ]
    exact Buffer.string_map (v.noZero text he) _
  simp only [bind, Except.bind, hstr, access]

/-- **What is appended behind the terminator is not seen**: the content stays what it was. -/
theorem wappend_behind {d : Pstring} (hold : d.content = some old) (hlen : old.length < d.len) (ht : text ≠ [])
    (h : wappend (some d) text = .ok dest) : wideContent dest ≠ some (old ++ text) := by
  obtain ⟨d', rfl, hne, htake⟩ := wappend_take (by omega) ht h
  rw [wideContent, Pstring.content, if_neg hne]
  rw [Pstring.content] at hold
  split at hold
  · -- without a buffer the first cell has no value
    rename_i hb
    obtain ⟨n, hn⟩ : ∃ n, d.len = n + 1 := ⟨d.len - 1, by omega⟩
    cases hd' : d'.buf with
    | nil => exact absurd hd' hne
    | cons c b =>
      rw [hd', hb, hn, Buffer.realloc, List.take_nil, List.nil_append,
        show 1 + (n + 1 + text.length) - ([] : Buffer WChar).length = (n + 1 + text.length) + 1 by simp; omega,
        List.replicate_succ, List.take_succ_cons, List.take_succ_cons] at htake
      rw [(List.cons.inj htake).1]
      simp [Buffer.string]
  · have hlt := Buffer.length_lt_of_string hold
    have hcells : d'.buf.take (old.length + 1) = d.buf.take (old.length + 1) := by
      have := congrArg (List.take (old.length + 1)) htake
      rw [List.take_take, List.take_take, Nat.min_eq_left (by omega)] at this
      rw [this, Buffer.take_realloc (by omega) (by omega)]
    rw [Buffer.string_of_take hold hcells]
    intro heq
    exact ht (by simpa using Option.some.inj heq)

/-- **Both append exactly**, or die, when and only when the wide text can be made, and stands where
the content of its destination ends. -/
theorem growing_formats_iff (n : Vsnprintf) (mbDest : Option MbStr) (v : Vswprintf) (dest : Option Pstring)
    {old : WStr} (hold : wideContent dest = some old) (hlen : ∀ d, dest = some d → old.length ≤ d.len) :
    ((∃ fuel r, appendva fuel mbDest n = some r ∧ Appended mbContent (mbDest.getD []) n.expansion r) ∧
      ∃ fuel r, wappendva fuel dest v = some r ∧ Appended wideContent old v.expansion r) ↔
    ∃ text, v.expansion = some text ∧ (text = [] ∨ ∀ d, dest = some d → d.len = old.length) := by
  rw [and_iff_right (appendva_appends mbDest n)]
  constructor
  · rintro ⟨fuel, r, hrun, happ⟩
    cases he : v.expansion with
    | none =>
      rw [wappendva, wappendvaLoop_hangs he] at hrun
      cases hrun
    | some text =>
      rw [he] at happ
      obtain ⟨dest', rfl, hcont⟩ := happ
      refine ⟨text, rfl, or_iff_not_imp_left.2 fun ht d hd => ?_⟩
      subst hd
      by_contra hne
      have hlt : old.length < d.len := by
        have := hlen d rfl
        omega
      exact wappend_behind hold hlt ht (wappendva_some he hrun).symm hcont
  · rintro ⟨text, he, hdest⟩
    obtain ⟨r, hr⟩ := wappendva_ends he dest
    refine ⟨_, r, hr, ?_⟩
    rw [he]
    cases dest with
    | none =>
      obtain rfl : old = [] := (Option.some.inj hold).symm
      exact wappendva_none he hr
    | some d =>
      rw [wappendva_some he hr]
      by_cases ht : text = []
      · subst ht
        exact ⟨some d, wappend_nil _, by rw [List.append_nil]; exact hold⟩
      · have hholds : d.Holds old := ⟨hold, (hdest.resolve_left ht) d rfl⟩
        exact ⟨_, wappend_eq hholds ht, (hholds.append (v.noZero text he)).content⟩

/-- `vsnprintf` for an expansion. -/
def Vsnprintf.ofExpansion (expansion : Option MbStr) : Vsnprintf where
  expansion := expansion
  call size := match expansion with
    | none => (-1, [])
    | some text => (text.length, text.take (size - 1))
  fits text he size h := by
    subst he
    simp only [Prod.mk.injEq, true_and]
    exact List.take_of_length_le (by omega)
  long text he size h := by
    subst he
    rfl
  unconvertible he size := by
    subst he
    exact show (-1 : Int) < 0 by decide

/-- `vswprintf` for an expansion. -/
def Vswprintf.ofExpansion (expansion : Option WStr) (hz : ∀ text, expansion = some text → 0 ∉ text) :
    Vswprintf where
  expansion := expansion
  call size := match expansion with
    | none => (-1, [])
    | some text => if text.length < size then (text.length, text) else (-1, text.take (size - 1))
  fits text he size h := by
    subst he
    exact if_pos h
  long text he size h := by
    subst he
    simp only
    rw [if_neg (by omega)]
    exact show (-1 : Int) < 0 by decide
  unconvertible he size := by
    subst he
    exact show (-1 : Int) < 0 by decide
  noZero := hz

/-- Twelve characters are appended to a document of one. -/
theorem growing_formats_twelve :
    let v := Vswprintf.ofExpansion (some (lit "twelve chars")) (by simp [lit, CodePoint.ofChar])
    let n := Vsnprintf.ofExpansion (some (bytes "name"))
    (∃ fuel r, appendva fuel (some (bytes "a ")) n = some r ∧
        Appended mbContent (bytes "a ") (some (bytes "name")) r) ∧
      ∃ fuel r, wappendva fuel (some (.ofText (lit "x"))) v = some r ∧
        Appended wideContent (lit "x") (some (lit "twelve chars")) r := by
  intro v n
  have hold : wideContent (some (.ofText (lit "x"))) = some (lit "x") := by decide
  have hlen : ∀ d, some (Pstring.ofText (lit "x")) = some d → d.len = (lit "x").length := by
    intro d hd
    rw [← Option.some.inj hd]
    rfl
  exact (growing_formats_iff n (some (bytes "a ")) v _ hold fun d hd => Nat.le_of_eq (hlen d hd).symm).2
    ⟨lit "twelve chars", rfl, Or.inr hlen⟩

/-- The expansion of `%s` for the byte `0xff` in the POSIX locale is never appended. -/
theorem wide_format_hangs :
    let v := Vswprintf.ofExpansion (posixLocale.mbsrtowcs [0xFF]) (by decide)
    ¬ ∃ fuel r, wappendva fuel (some pstringNew) v = some r ∧ Appended wideContent [] v.expansion r := by
  rintro v ⟨fuel, r, hrun, -⟩
  rw [wappendva, wappendvaLoop_hangs (v := v) (by decide)] at hrun
  cases hrun

/-- The texts that the model of `entry` does not append are those that `wappendva` does not end for. -/
theorem expandStr_hangs_iff {loc : Locale} {str : MbStr} (hv : v.expansion = loc.mbsrtowcs str) :
    expandStr loc str = .error .hang ↔ ∀ fuel, wappendva fuel dest v = none := by
  unfold expandStr
  cases he : loc.mbsrtowcs str with
  | none =>
    rw [he] at hv
    simp [wappendva, wappendvaLoop_hangs hv]
  | some text =>
    rw [he] at hv
    obtain ⟨r, hr⟩ := wappendva_ends hv dest
    refine iff_of_false (by simp) fun h => ?_
    have := h (text.length + 1)
    rw [hr] at this
    cases this

end Procenv
