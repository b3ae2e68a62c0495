import Procenv.Proof.Format

/-!
# Making a `pstring` and appending to it

A `pstring` is made in one of four ways, and what is appended to it by any sequence of calls
should stand behind what it was made with. Two conventions for `len` meet here: the number
of characters, which the append functions leave, and that with the terminator, which
`pstring_create`, `char_to_pstring` and `wappendva` without a destination leave.
`size` is the number of bytes of the buffer in all of them.

* `appendCall_characters`, `appendCall_terminated`: what a call leaves, under each convention.
* `concatenates_iff`: **when the string is what was appended, with its length, after every call.**
-/

namespace Procenv

open Text Data Outcome

variable {loc : Locale} {d : Pstring} {dest dest' : Option Pstring} {t : WStr}

/-! ## Histories of a `pstring` -/

/-- How a `pstring` is made; `null` is a destination that is `NULL`. -/
inductive Origin (loc : Locale)
  | pstringNew
  | pstringCreate (str : WStr) (noZero : 0 ∉ str)
  | charToPstring (str : MbStr) (noZero : ∀ w, charToWchar loc str = some w → 0 ∉ w)
  | null

namespace Origin

/-- The `pstring`; `char_to_pstring` makes none of a string that it cannot convert. -/
def make : Origin loc → Option Pstring
  | pstringNew => some Procenv.pstringNew
  | pstringCreate str _ => some (Procenv.pstringCreate str)
  | charToPstring str _ => Procenv.charToPstring loc str
  | null => none

/-- The initial string. -/
def initial : Origin loc → WStr
  | pstringCreate str _ => str
  | charToPstring str _ => (charToWchar loc str).getD []
  | pstringNew | null => []

end Origin

/-- A call that appends a string: what it gets, and the string. -/
inductive AppendCall (loc : Locale)
  | wappend (src : WStr) (noZero : 0 ∉ src)
  | wappendf (v : Vswprintf) (text : WStr) (expands : v.expansion = some text)
  | wmappend (src : MbStr) (text : WStr) (decodes : loc.mbsrtowcs src = some text) (noZero : 0 ∉ text)
  | pappend (src : Pstring) (text : WStr) (content : src.content = some text)
    (noBuffer : src.buf = [] → src.len = 0)

namespace AppendCall

/-- What is appended. -/
def text : AppendCall loc → WStr
  | wappend text _ | wappendf _ text _ | wmappend _ text _ _ | pappend _ text _ _ => text

/-- Run the call, with at most `fuel` rounds of the loop of `wappendva`. -/
def run (fuel : Nat) (dest : Option Pstring) : AppendCall loc → Option (Except Halt (Option Pstring))
  | wappend src _ => some (Procenv.wappend dest src)
  | wappendf v _ _ => wappendva fuel dest v
  | wmappend src _ _ _ => some (Procenv.wmappend loc dest src)
  | pappend src _ _ _ => some (Procenv.pappend dest src)

/-- The call returns, and leaves `dest'`. -/
def Returns (call : AppendCall loc) (dest dest' : Option Pstring) : Prop :=
  ∃ fuel, call.run fuel dest = some (.ok dest')

theorem noZero (call : AppendCall loc) : 0 ∉ call.text := by
  cases call with
  | wappend src hz => exact hz
  | wappendf v text he => exact v.noZero text he
  | wmappend src text hd hz => exact hz
  | pappend src text hc hn =>
    rw [Pstring.content] at hc
    split at hc
    · rw [AppendCall.text, ← Option.some.inj hc]
      simp
    · exact (Buffer.string_eq_some.1 hc).1

end AppendCall

/-- What `len` counts. -/
inductive Convention
  | characters
  | terminated
deriving DecidableEq

/-- `len` of a string; without a buffer there is no terminator to count. -/
def Convention.len (buf : Buffer WChar) (t : WStr) : Convention → Nat
  | characters => t.length
  | terminated => if buf = [] then 0 else t.length + 1

/-- The string is there, and `len` and `size` are what they should be. -/
structure Convention.Fits (conv : Convention) (dest : Option Pstring) (t : WStr) : Prop where
  content : wideContent dest = some t
  counts : ∀ d, dest = some d → d.len = conv.len d.buf t ∧ d.size = d.buf.length * sizeofWchar

/-- **Everything fits**, before each of the calls and after the last one: what there is then is `t` and
what was appended. -/
def Convention.Stays (conv : Convention) : Option Pstring → WStr → List (AppendCall loc) → Prop
  | dest, t, [] => conv.Fits dest t
  | dest, t, call :: calls => conv.Fits dest t ∧
    ∃ dest', call.Returns dest dest' ∧ conv.Stays dest' (t ++ call.text) calls

/-- **A history concatenates**: the string is the initial string and what was appended. -/
def Convention.Concatenates (conv : Convention) (origin : Origin loc) (calls : List (AppendCall loc)) : Prop :=
  conv.Stays origin.make origin.initial calls

/-! ## Single calls -/

/-- **What a call leaves**, without fuel. -/
theorem returns_iff (call : AppendCall loc) :
    call.Returns dest dest' ↔ match call with
      | .wappend src _ => wappend dest src = .ok dest'
      | .wappendf _ text _ => if dest = none then dest' = some (.printed text) else wappend dest text = .ok dest'
      | .wmappend _ text _ _ => text ≠ [] ∧ wappend dest text = .ok dest'
      | .pappend src _ _ _ => pappend dest src = .ok dest' := by
  cases call with
  | wappend src hz => exact ⟨fun ⟨_, h⟩ => Option.some.inj h, fun h => ⟨0, congrArg some h⟩⟩
  | wappendf v text he =>
    have hspec : ∀ {fuel r}, wappendva fuel dest v = some r →
        r = if dest = none then .ok (some (.printed text)) else wappend dest text := by
      intro fuel r hr
      cases dest with
      | none => exact wappendva_null he hr
      | some d => exact wappendva_some he hr
    have hcases : (if dest = none then dest' = some (.printed text) else wappend dest text = .ok dest') ↔
        (if dest = none then .ok (some (.printed text)) else wappend dest text) = Except.ok dest' := by
      split
      · exact ⟨fun h => by rw [h], fun h => (Except.ok.inj h).symm⟩
      · rfl
    simp only [hcases]
    constructor
    · rintro ⟨fuel, hrun⟩
      exact (hspec hrun).symm
    · intro h
      obtain ⟨r, hr⟩ := wappendva_ends he dest
      exact ⟨_, by rw [AppendCall.run, hr, hspec hr, h]⟩
  | wmappend src text hd hz =>
    have hrun : ∀ fuel, (AppendCall.wmappend src text hd hz).run fuel dest = some (if text = [] then
        .error (.die "failed to allocate space for wide string" []) else wappend dest text) := by
      intro fuel
      rw [AppendCall.run, wmappend, charToWchar, hd]
      cases text <;> rfl
    simp only [AppendCall.Returns, hrun, Option.some.injEq, exists_const]
    by_cases ht : text = []
    · simp [ht]
    · simp [ht]
  | pappend src text hc hn => exact ⟨fun ⟨_, h⟩ => Option.some.inj h, fun h => ⟨0, congrArg some h⟩⟩

/-- A call leaves one thing. -/
theorem returns_unique {call : AppendCall loc} {dest₁ dest₂ : Option Pstring} (h₁ : call.Returns dest dest₁)
    (h₂ : call.Returns dest dest₂) : dest₁ = dest₂ := by
  rw [returns_iff] at h₁ h₂
  cases call with
  | wappend src hz => exact Except.ok.inj (h₁.symm.trans h₂)
  | wappendf v text he =>
    simp only at h₁ h₂
    split at h₁
    · rename_i hdest
      rw [if_pos hdest] at h₂
      exact h₁.trans h₂.symm
    · rename_i hdest
      rw [if_neg hdest] at h₂
      exact Except.ok.inj (h₁.symm.trans h₂)
  | wmappend src text hd hz => exact Except.ok.inj (h₁.2.symm.trans h₂.2)
  | pappend src text hc hn => exact Except.ok.inj (h₁.symm.trans h₂)

/-! ## Appending to what counts characters -/

/-- The destination before anything is appended, or the string that was appended. -/
def charactersState (start : Option Pstring) (t : WStr) : Option Pstring :=
  if t = [] then start else some (.ofText t)

theorem wappend_start (hstart : dest = none ∨ dest = some pstringNew) (hz : 0 ∉ t) {src : WStr} :
    wappend (charactersState dest t) src = .ok (charactersState dest (t ++ src)) := by
  by_cases hsrc : src = []
  · rw [hsrc, List.append_nil]
    exact wappend_nil _
  have happ : charactersState dest (t ++ src) = some (.ofText (t ++ src)) := if_neg (by simp [hsrc])
  rw [happ]
  by_cases ht : t = []
  · subst ht
    rw [charactersState, if_pos rfl, ← wappend_eq holds_new hsrc]
    rcases hstart with rfl | rfl
    · have hlen : src.length ≠ 0 := by simpa using hsrc
      simp only [wappend, wappendn, if_neg hlen, Option.getD]
    · rfl
  · rw [charactersState, if_neg ht]
    exact wappend_eq (holds_ofText hz) hsrc

theorem characters_fits (hstart : dest = none ∨ dest = some pstringNew) (hz : 0 ∉ t) :
    Convention.characters.Fits (charactersState dest t) t := by
  rw [charactersState]
  split
  · rename_i ht
    subst ht
    rcases hstart with rfl | rfl
    · exact ⟨rfl, by simp⟩
    · refine ⟨rfl, ?_⟩
      rintro d ⟨⟩
      exact ⟨rfl, rfl⟩
  · refine ⟨(holds_ofText hz).content, ?_⟩
    rintro d ⟨⟩
    refine ⟨rfl, ?_⟩
    simp only [Pstring.ofText, List.length_append, List.length_map, List.length_cons, List.length_nil]
    rw [Nat.add_comm 1]

/-- What `len` is after a `pappend` that does something. -/
theorem pappend_len {source : Pstring} (hlen : source.len ≠ 0) (h : pappend dest source = .ok dest') :
    ∃ d', dest' = some d' ∧ d'.len = (dest.getD pstringNew).len + source.len - 1 := by
  simp only [pappend, if_neg hlen] at h
  obtain ⟨str, -, h⟩ := ok_of_bind h
  obtain ⟨b₁, -, h⟩ := ok_of_bind h
  obtain ⟨b₂, -, h⟩ := ok_of_bind h
  exact ⟨_, (Except.ok.inj h).symm, rfl⟩

/-- Nothing can be appended by `pappend` where there is no buffer. -/
theorem pappend_start (hstart : dest = none ∨ dest = some pstringNew) {source : Pstring} {src : WStr}
    (hs : source.buf.string 0 = some src) (hlen : source.len ≠ 0) : pappend dest source ≠ .ok dest' := by
  have hnew := @pappend_noBuffer pstringNew src source rfl hs hlen
  have hnull : pappend dest source = pappend (some pstringNew) source := by
    rcases hstart with rfl | rfl
    · simp only [pappend, if_neg hlen, Option.getD]
    · rfl
  rw [hnull, hnew]
  rintro ⟨⟩


/-! ## What each convention asks -/

section Admits

variable (origin : Origin loc) (before : List (AppendCall loc))

/-- What was appended. -/
def appended : WStr := before.flatMap AppendCall.text

/-- A call of `wappendf`. -/
def AppendCall.isFormat : AppendCall loc → Bool
  | wappendf _ _ _ => true
  | _ => false

/-- The string was made by `wappendf`. -/
def Origin.Printed : Prop := origin.make = none ∧ ∃ call ∈ before, call.isFormat = true

/-- **What a convention asks of a call**, after the calls `before`. -/
def Convention.Admits : Convention → AppendCall loc → Prop
  | characters, .wappend _ _ => True
  | characters, .wappendf _ _ _ => origin.make ≠ none ∨ appended before ≠ []
  | characters, .wmappend _ text _ _ => text ≠ []
  | characters, .pappend src text _ _ =>
    src.len = 0 ∧ text = [] ∨ src.len = text.length + 1 ∧ appended before ≠ []
  | terminated, .wappend src _ => src = []
  | terminated, .wappendf _ text _ => text = [] ∨ origin.make = none ∧ ¬ origin.Printed before
  | terminated, .wmappend _ _ _ _ => False
  | terminated, .pappend src text _ _ => text = [] ∧ (src.len = 0 ∨ src.len = 1 ∧ origin.Printed before)

/-- **What a convention asks of the way the string is made.** -/
def Convention.Starts : Convention → Prop
  | characters => origin.make = none ∨ origin.make = some pstringNew
  | terminated => True

end Admits

variable {origin : Origin loc} {before : List (AppendCall loc)} {call : AppendCall loc}

theorem noZero_appended (before : List (AppendCall loc)) : 0 ∉ appended before := by
  intro h
  obtain ⟨call, -, h0⟩ := List.mem_flatMap.1 h
  exact call.noZero h0

theorem appended_concat (before : List (AppendCall loc)) (call : AppendCall loc) :
    appended (before ++ [call]) = appended before ++ call.text := by
  simp [appended]

/-- A call that counts characters asks for leaves what it should. -/
theorem characters_admits (hstart : Convention.characters.Starts origin)
    (h : Convention.characters.Admits origin before call) :
    call.Returns (charactersState origin.make (appended before))
      (charactersState origin.make (appended (before ++ [call]))) := by
  have hz := noZero_appended before
  rw [appended_concat, returns_iff]
  cases call with
  | wappend src hs => exact wappend_start hstart hz
  | wappendf v text he =>
    have hsome : charactersState origin.make (appended before) ≠ none := by
      rw [charactersState]
      split
      · rename_i ht
        exact h.resolve_right (not_not_intro ht)
      · simp
    simp only [if_neg hsome]
    exact wappend_start hstart hz
  | wmappend src text hd hs => exact ⟨h, wappend_start hstart hz⟩
  | pappend src text hc hn =>
    rcases h with ⟨hlen, rfl⟩ | ⟨hlen, ht⟩
    · simp only [AppendCall.text, List.append_nil, pappend, if_pos hlen]
      rfl
    · have hbuf : src.buf ≠ [] := by
        intro hb
        have hzero := hn hb
        omega
      have hs : src.buf.string 0 = some text := by
        rwa [Pstring.content, if_neg hbuf] at hc
      have happ : charactersState origin.make (appended before ++ text) =
        some (.ofText (appended before ++ text)) :=
        if_neg (by simp [ht])
      simp only [AppendCall.text, happ]
      rw [charactersState, if_neg ht]
      exact pappend_string (holds_ofText hz) (by simp [Pstring.ofText]) hs hlen

/-- Another call does not. -/
theorem characters_refuses (hstart : Convention.characters.Starts origin)
    (h : ¬ Convention.characters.Admits origin before call)
    (hret : call.Returns (charactersState origin.make (appended before)) dest') :
    ¬ Convention.characters.Fits dest' (appended (before ++ [call])) := by
  intro hfits
  rw [appended_concat] at hfits
  rw [returns_iff] at hret
  cases call with
  | wappend src hs => exact h trivial
  | wappendf v text he =>
    obtain ⟨hnone, hnil⟩ : origin.make = none ∧ appended before = [] := by
      simpa [Convention.Admits, not_or] using h
    rw [hnil, hnone, charactersState, if_pos rfl] at hret
    simp only [if_true] at hret
    have hlen := (hfits.counts _ hret).1
    simp [Convention.len, Pstring.printed, AppendCall.text, hnil] at hlen
  | wmappend src text hd hs => exact h hret.1
  | pappend src text hc hn =>
    simp only [Convention.Admits, not_or, not_and] at h
    by_cases hlen : src.len = 0
    · -- nothing is appended
      simp only [pappend, if_pos hlen] at hret
      have hdest : charactersState origin.make (appended before) = dest' := Except.ok.inj hret
      have hcontent := (characters_fits hstart (noZero_appended before)).content
      rw [hdest, hfits.content] at hcontent
      exact h.1 hlen (by simpa [AppendCall.text] using hcontent)
    · have hbuf : src.buf ≠ [] := fun hb => hlen (hn hb)
      have hs : src.buf.string 0 = some text := by
        rwa [Pstring.content, if_neg hbuf] at hc
      by_cases ht : appended before = []
      · rw [ht, charactersState, if_pos rfl] at hret
        exact pappend_start hstart hs hlen hret
      · rw [charactersState, if_neg ht] at hret
        obtain ⟨d', hd', hlen'⟩ := pappend_len hlen hret
        have hcount := (hfits.counts d' hd').1
        simp only [Convention.len, AppendCall.text, List.length_append, Pstring.ofText,
          Option.getD_some] at hcount hlen'
        exact ht (by_contra fun hne => h.2 (by omega) hne)

/-! ## Appending to what counts the terminator -/

/-- The destination, where all that was appended is what `wappendf` made. -/
def TerminatedState (origin : Origin loc) (before : List (AppendCall loc)) (dest : Option Pstring) : Prop :=
  origin.Printed before ∧ dest = some (.printed (appended before)) ∨
    ¬ origin.Printed before ∧ dest = origin.make ∧ appended before = []

theorem initial_of_null (h : origin.make = none) : origin.initial = [] := by
  cases origin with
  | pstringNew => cases h
  | pstringCreate str hz => cases h
  | charToPstring str hz =>
    rw [Origin.make, charToPstring, Option.map_eq_none_iff] at h
    rw [Origin.initial, h]
    rfl
  | null => rfl

/-- What a string is made as: nothing yet, or a string whose terminator is counted. -/
theorem make_cases (origin : Origin loc) :
    (origin.make = none ∨ origin.make = some pstringNew) ∧ origin.initial = [] ∨
      origin.make = some (pstringCreate origin.initial) ∧ 0 ∉ origin.initial := by
  cases origin with
  | pstringNew => exact Or.inl ⟨Or.inr rfl, rfl⟩
  | pstringCreate str hz => exact Or.inr ⟨rfl, hz⟩
  | charToPstring str hz =>
    rw [Origin.make, Origin.initial, charToPstring]
    cases hw : charToWchar loc str with
    | none => exact Or.inl ⟨Or.inl rfl, rfl⟩
    | some w => exact Or.inr ⟨rfl, hz w hw⟩
  | null => exact Or.inl ⟨Or.inl rfl, rfl⟩

theorem content_create (hz : 0 ∉ t) : (pstringCreate t).content = some t := by
  rw [Pstring.content, if_neg (by simp [pstringCreate])]
  exact Buffer.string_map hz []

/-- Where something is there, its terminator is counted. -/
theorem terminated_cases (h : TerminatedState origin before dest) :
    let text := origin.initial ++ appended before
    (dest = none ∨ dest = some pstringNew) ∧ text = [] ∨
      (dest = some (pstringCreate text) ∧ ¬ origin.Printed before ∨
        dest = some (.printed text) ∧ origin.Printed before) ∧
        0 ∉ text := by
  rcases h with ⟨hprinted, rfl⟩ | ⟨hprinted, rfl, hnil⟩
  · rw [initial_of_null hprinted.1, List.nil_append]
    exact Or.inr ⟨Or.inr ⟨rfl, hprinted⟩, noZero_appended before⟩
  · rw [hnil, List.append_nil]
    rcases make_cases origin with hmake | ⟨hmake, hz⟩
    · exact Or.inl hmake
    · exact Or.inr ⟨Or.inl ⟨hmake, hprinted⟩, hz⟩

theorem terminated_fits (h : TerminatedState origin before dest) :
    Convention.terminated.Fits dest (origin.initial ++ appended before) := by
  rcases terminated_cases h with ⟨rfl | rfl, htext⟩ | ⟨⟨rfl, -⟩ | ⟨rfl, -⟩, hz⟩
  · rw [htext]
    exact ⟨rfl, by simp⟩
  · rw [htext]
    refine ⟨rfl, ?_⟩
    rintro d ⟨⟩
    exact ⟨rfl, rfl⟩
  · refine ⟨content_create hz, ?_⟩
    rintro d ⟨⟩
    refine ⟨?_, ?_⟩
    · rw [Convention.len, if_neg (by simp [pstringCreate])]
      exact Nat.add_comm 1 _
    · simp only [pstringCreate, List.length_append, List.length_map, List.length_cons, List.length_nil]
      rw [Nat.add_comm 1]
  · refine ⟨content_printed hz, ?_⟩
    rintro d ⟨⟩
    refine ⟨?_, ?_⟩
    · rw [Convention.len, if_neg (by simp [Pstring.printed])]
      rfl
    · simp only [Pstring.printed, List.length_append, List.length_map, List.length_cons, List.length_nil]
      rw [Nat.add_comm 1]

/-- No text can be appended. -/
theorem terminated_wappend (h : TerminatedState origin before dest) {src : WStr} (hsrc : src ≠ [])
    (hrun : wappend dest src = .ok dest') :
    ¬ Convention.terminated.Fits dest' (origin.initial ++ appended before ++ src) := by
  intro hfits
  rcases terminated_cases h with ⟨hstart, htext⟩ | ⟨⟨rfl, -⟩ | ⟨rfl, -⟩, hz⟩
  · -- the length of what is there then is its number of characters
    have happ := @wappend_start dest [] hstart (by simp) src
    rw [charactersState, if_pos rfl, hrun, List.nil_append, charactersState, if_neg hsrc] at happ
    have hlen := (hfits.counts _ (Except.ok.inj happ)).1
    rw [htext, List.nil_append, Convention.len, if_neg (by simp [Pstring.ofText])] at hlen
    simp only [Pstring.ofText] at hlen
    omega
  · exact wappend_behind (content_create hz) (by simp [pstringCreate]) hsrc hrun hfits.content
  · exact wappend_behind (content_printed hz) (by simp [Pstring.printed]) hsrc hrun hfits.content

/-- There is no cell for the string of a `pappend` behind what `pstring_create` makes. -/
theorem pappend_create {source : Pstring} {src : WStr} (hs : source.buf.string 0 = some src)
    (hlen : source.len ≠ 0) : pappend (some (pstringCreate t)) source = .error (.outOfBounds "pappend") := by
  have hcells : Buffer.string (0 : WChar) (((pstringCreate t).buf.realloc
      (1 + ((pstringCreate t).len + source.len - 1))).drop (pstringCreate t).len) = none := by
    obtain ⟨n, hn⟩ : ∃ n, source.len = n + 1 := ⟨source.len - 1, by omega⟩
    have hbuf : ((pstringCreate t).buf).length = (pstringCreate t).len := by
      simp [pstringCreate, Nat.add_comm]
    have htotal : 1 + ((pstringCreate t).len + source.len - 1) = (pstringCreate t).buf.length + (n + 1) := by
      omega
    rw [htotal, Buffer.realloc, List.take_of_length_le (by omega),
      Nat.add_sub_cancel_left, ← hbuf, List.drop_left]
    rfl
  simp only [pappend, if_neg hlen, Option.getD_some, hs, access, bind, Except.bind, Buffer.cat, hcells,
    Option.bind_none]

/-- A `pappend` behind what `wappendf` made is not seen. -/
theorem pappend_printed (hz : 0 ∉ t) {source : Pstring} (hlen : source.len ≠ 0)
    (h : pappend (some (.printed t)) source = .ok dest') :
    ∃ d', dest' = some d' ∧ d'.len = t.length + source.len ∧ d'.buf.string 0 = some t := by
  obtain ⟨d', rfl, hlen', htake⟩ := pappend_take hlen h
  have hstr : (Pstring.printed t).buf.string 0 = some t := Buffer.string_map hz [some 0]
  refine ⟨d', rfl, ?_, Buffer.string_of_take hstr ?_⟩
  · simp only [Pstring.printed] at hlen'
    omega
  · have hbuf : (Pstring.printed t).buf.length = t.length + 2 := by simp [Pstring.printed]
    have hle : (Pstring.printed t).len = t.length + 1 := rfl
    rw [hle, Buffer.take_realloc (by omega) (by omega)] at htake
    exact htake

/-- Of the empty string it leaves everything as it is. -/
theorem pappend_printed_nil {source : Pstring} (hs : source.buf.string 0 = some []) (hlen : source.len = 1) :
    pappend (some (.printed t)) source = .ok (some (.printed t)) := by
  have hbuf : Buffer.realloc (t.map some ++ [some (0 : WChar), some 0]) (1 + (t.length + 1)) =
      t.map some ++ [some 0, some 0] := by
    rw [Buffer.realloc, List.take_of_length_le (by simp; omega), Nat.sub_eq_zero_of_le (by simp; omega)]
    simp
  have hdrop : (t.map some ++ [some (0 : WChar), some 0]).drop (t.length + 1) = some 0 :: [] := by
    rw [← List.length_map some, List.drop_append, List.drop_eq_nil_of_le (by simp)]
    simp
  have hcat : Buffer.cat 0 (t.map some ++ [some (0 : WChar), some 0]) (t.length + 1) [] 1 =
      some (t.map some ++ [some 0, some 0]) := by
    rw [Buffer.cat_eq hdrop (by simp) (by simp)]
    have htake : (t.map some ++ [some (0 : WChar), some 0]).take (t.length + 1) = t.map some ++ [some 0] := by
      rw [← List.length_map some, List.take_length_add_append]
      rfl
    rw [htake, List.drop_eq_nil_of_le (by simp)]
    simp
  have hstore : Buffer.store (t.map some ++ [some (0 : WChar), some 0]) (t.length + 1) 0 =
      some (t.map some ++ [some 0, some 0]) := by
    rw [Buffer.store, if_pos (by simp), List.set_append_right _ _ (by simp)]
    simp
  simp only [pappend, hlen, if_neg Nat.one_ne_zero, Option.getD_some, Pstring.printed,
    Nat.add_sub_cancel, hbuf, hs, hcat, hstore, access, bind, Except.bind, pure, Except.pure]

theorem printed_concat (h : call.isFormat = false) :
    origin.Printed (before ++ [call]) ↔ origin.Printed before := by
  simp [Origin.Printed, h]

/-- A call that appends nothing. -/
theorem terminated_same (h : TerminatedState origin before dest) (htext : call.text = [])
    (hcall : call.isFormat = false ∨ dest ≠ none) : TerminatedState origin (before ++ [call]) dest := by
  have happ : appended (before ++ [call]) = appended before := by
    rw [appended_concat, htext, List.append_nil]
  rw [TerminatedState, happ]
  have hprinted : origin.Printed (before ++ [call]) ↔ origin.Printed before := by
    refine ⟨fun hp => ?_, fun hp => ⟨hp.1, ?_⟩⟩
    · rcases hcall with hcall | hcall
      · exact (printed_concat hcall).1 hp
      · rcases h with h | h
        · exact h.1
        · exact absurd (h.2.1.trans hp.1) hcall
    · obtain ⟨c, hc, hf⟩ := hp.2
      exact ⟨c, List.mem_append_left _ hc, hf⟩
  rw [hprinted]
  exact h

/-- A call that the count of the terminator asks for. -/
theorem terminated_admits (h : TerminatedState origin before dest)
    (hadmits : Convention.terminated.Admits origin before call) :
    ∃ dest', call.Returns dest dest' ∧ TerminatedState origin (before ++ [call]) dest' := by
  simp only [returns_iff]
  cases call with
  | wappend src hz =>
    obtain rfl : src = [] := hadmits
    exact ⟨dest, wappend_nil dest, terminated_same h rfl (Or.inl rfl)⟩
  | wappendf v text he =>
    by_cases hdest : dest = none
    · -- nothing was there: the string is made now
      obtain ⟨hnot, hmake, hnil⟩ : ¬ origin.Printed before ∧ dest = origin.make ∧ appended before = [] := by
        rcases h with h | h
        · rw [hdest] at h
          cases h.2
        · exact h
      simp only [if_pos hdest]
      refine ⟨_, rfl, Or.inl ⟨⟨hmake.symm.trans hdest, _,
        List.mem_append_right _ (List.mem_singleton_self _), rfl⟩, ?_⟩⟩
      rw [appended_concat, hnil]
      rfl
    · have htext : text = [] := by
        refine hadmits.resolve_right fun hunmade => hdest ?_
        rcases h with h | h
        · exact absurd h.1 hunmade.2
        · exact h.2.1.trans hunmade.1
      subst htext
      simp only [if_neg hdest]
      exact ⟨dest, wappend_nil dest, terminated_same h rfl (Or.inr hdest)⟩
  | wmappend src text hd hz => exact absurd hadmits id
  | pappend src text hc hn =>
    obtain ⟨rfl, hlen⟩ : text = [] ∧ (src.len = 0 ∨ src.len = 1 ∧ origin.Printed before) := hadmits
    refine ⟨dest, ?_, terminated_same h rfl (Or.inl rfl)⟩
    rcases hlen with hlen | ⟨hlen, hprinted⟩
    · simp only [pappend, if_pos hlen]
      rfl
    · obtain ⟨-, rfl⟩ : origin.Printed before ∧ dest = some (.printed (appended before)) :=
        h.resolve_right fun hnot => hnot.1 hprinted
      have hbuf : src.buf ≠ [] := by
        intro hb
        have hzero := hn hb
        omega
      rw [Pstring.content, if_neg hbuf] at hc
      exact pappend_printed_nil hc hlen

/-- Another call. -/
theorem terminated_refuses (h : TerminatedState origin before dest)
    (hadmits : ¬ Convention.terminated.Admits origin before call) (hret : call.Returns dest dest') :
    ¬ Convention.terminated.Fits dest' (origin.initial ++ appended (before ++ [call])) := by
  rw [appended_concat, ← List.append_assoc]
  rw [returns_iff] at hret
  cases call with
  | wappend src hz => exact terminated_wappend h hadmits hret
  | wappendf v text he =>
    simp only [Convention.Admits, not_or, not_and, not_not] at hadmits
    have hdest : dest ≠ none := by
      rintro rfl
      rcases h with h | h
      · cases h.2
      · exact h.1 (hadmits.2 h.2.1.symm)
    simp only [if_neg hdest] at hret
    exact terminated_wappend h hadmits.1 hret
  | wmappend src text hd hz => exact terminated_wappend h hret.1 hret.2
  | pappend src text hc hn =>
    intro hfits
    by_cases hlen : src.len = 0
    · simp only [pappend, if_pos hlen] at hret
      have hdest : dest = dest' := Except.ok.inj hret
      have hcontent := (terminated_fits h).content
      rw [hdest, hfits.content] at hcontent
      exact hadmits ⟨by simpa [AppendCall.text] using hcontent, Or.inl hlen⟩
    · have hbuf : src.buf ≠ [] := fun hb => hlen (hn hb)
      have hs : src.buf.string 0 = some text := by
        rwa [Pstring.content, if_neg hbuf] at hc
      rcases terminated_cases h with ⟨hstart, -⟩ | ⟨⟨rfl, -⟩ | ⟨rfl, hprinted⟩, hz⟩
      · exact pappend_start hstart hs hlen hret
      · cases (pappend_create hs hlen).symm.trans hret
      · -- the string stays what it was
        obtain ⟨d', rfl, hlen', hstr⟩ := pappend_printed hz hlen hret
        have hb : d'.buf ≠ [] := by
          intro hb
          rw [hb] at hstr
          cases hstr
        have hcontent := hfits.content
        have hcount := (hfits.counts d' rfl).1
        rw [wideContent, Pstring.content, if_neg hb, hstr] at hcontent
        have htext : text = [] := by simpa [AppendCall.text] using Option.some.inj hcontent
        simp only [Convention.len, if_neg hb, AppendCall.text, htext, List.append_nil] at hcount
        exact hadmits ⟨htext, Or.inr ⟨by omega, hprinted⟩⟩

/-! ## Whole histories -/

theorem Convention.Stays.fits {conv : Convention} {calls : List (AppendCall loc)} (h : conv.Stays dest t calls) :
    conv.Fits dest t := by
  cases calls with
  | nil => exact h
  | cons call calls => exact h.1

/-- **A run of calls**, by an invariant that every admitted call keeps and no other call fits. -/
theorem stays_iff {conv : Convention} {origin : Origin loc} {Inv : List (AppendCall loc) → Option Pstring → Prop}
    (hfits : ∀ {before dest}, Inv before dest → conv.Fits dest (origin.initial ++ appended before))
    (hadmits : ∀ {before dest call}, Inv before dest → conv.Admits origin before call →
      ∃ dest', call.Returns dest dest' ∧ Inv (before ++ [call]) dest')
    (hrefuses : ∀ {before dest call dest'}, Inv before dest → ¬ conv.Admits origin before call →
      call.Returns dest dest' → ¬ conv.Fits dest' (origin.initial ++ appended (before ++ [call])))
    (calls before : List (AppendCall loc)) (h : Inv before dest) :
    conv.Stays dest (origin.initial ++ appended before) calls ↔
      ∀ first call rest, calls = first ++ call :: rest → conv.Admits origin (before ++ first) call := by
  induction calls generalizing before dest with
  | nil =>
    refine ⟨fun _ first call rest hsplit => ?_, fun _ => hfits h⟩
    cases first <;> cases hsplit
  | cons call calls ih =>
    have htext : origin.initial ++ appended before ++ call.text =
      origin.initial ++ appended (before ++ [call]) := by
      rw [appended_concat, List.append_assoc]
    constructor
    · rintro ⟨-, dest', hret, hstays⟩
      rw [htext] at hstays
      have hcall : conv.Admits origin before call := by
        by_contra hnot
        exact hrefuses h hnot hret hstays.fits
      obtain ⟨dest'', hret', hinv⟩ := hadmits h hcall
      obtain rfl := returns_unique hret hret'
      intro first c rest hsplit
      rcases first with _ | ⟨x, first⟩
      · obtain ⟨rfl, -⟩ := List.cons.inj hsplit
        rwa [List.append_nil]
      · obtain ⟨rfl, hrest⟩ := List.cons.inj hsplit
        have hmore := (ih (before ++ [call]) hinv).1 hstays first c rest hrest
        rwa [List.append_assoc] at hmore
    · intro hall
      have hcall := hall [] call calls rfl
      rw [List.append_nil] at hcall
      obtain ⟨dest', hret, hinv⟩ := hadmits h hcall
      refine ⟨hfits h, dest', hret, ?_⟩
      rw [htext]
      refine (ih (before ++ [call]) hinv).2 fun first c rest hsplit => ?_
      have hmore := hall (call :: first) c rest (by rw [hsplit]; rfl)
      rwa [List.append_assoc]

/-- **When a history concatenates**: the string is what was appended, with its length and size, after
every call if and only if every call is one that the convention asks for. -/
theorem concatenates_iff (conv : Convention) (origin : Origin loc) (calls : List (AppendCall loc)) :
    conv.Concatenates origin calls ↔ conv.Starts origin ∧
      ∀ before call after, calls = before ++ call :: after → conv.Admits origin before call := by
  have hempty : origin.initial ++ appended ([] : List (AppendCall loc)) = origin.initial := List.append_nil _
  cases conv with
  | characters =>
    by_cases hstart : Convention.characters.Starts origin
    · have hinitial : origin.initial = [] := by
        rcases make_cases origin with ⟨-, hnil⟩ | ⟨hmake, -⟩
        · exact hnil
        · exfalso
          rw [Convention.Starts, hmake] at hstart
          rcases hstart with hstart | hstart
          · cases hstart
          · exact absurd (congrArg Pstring.buf (Option.some.inj hstart)) (by simp [pstringCreate, pstringNew])
      have hrun := @stays_iff loc origin.make .characters origin
        (fun before dest => dest = charactersState origin.make (appended before))
        (by
          rintro before _ rfl
          rw [hinitial, List.nil_append]
          exact characters_fits hstart (noZero_appended before))
        (by
          rintro before _ call rfl hcall
          exact ⟨_, characters_admits hstart hcall, rfl⟩)
        (by
          rintro before _ call dest' rfl hcall hret
          rw [hinitial, List.nil_append]
          exact characters_refuses hstart hcall hret)
        calls [] rfl
      rw [hempty] at hrun
      rw [and_iff_right hstart]
      exact hrun
    · refine iff_of_false (fun h => ?_) fun h => hstart h.1
      rcases make_cases origin with ⟨hmake, -⟩ | ⟨hmake, -⟩
      · exact hstart hmake
      · have hlen := (h.fits.counts _ hmake).1
        simp only [Convention.len, pstringCreate] at hlen
        omega
  | terminated =>
    have hrun := @stays_iff loc origin.make .terminated origin (TerminatedState origin) terminated_fits
      terminated_admits terminated_refuses calls [] (Or.inr ⟨by simp [Origin.Printed], rfl, rfl⟩)
    rw [hempty] at hrun
    rw [and_iff_right (show Convention.terminated.Starts origin from trivial)]
    exact hrun

/-- What is appended to a string that `wappendf` made is not seen, whatever `len` is taken to count. -/
theorem concatenates_printed :
    let v := Vswprintf.ofExpansion (some (lit "ab")) (by simp [lit, CodePoint.ofChar])
    ¬ ∃ conv : Convention, conv.Concatenates (Origin.null : Origin posixLocale)
      [.wappendf v (lit "ab") rfl, .wappend (lit "c") (by decide)] := by
  rintro v ⟨conv, -, dest₁, hmade, -, dest₂, happended, hfits⟩
  rw [returns_iff] at hmade happended
  obtain rfl : dest₁ = some (.printed (lit "ab")) := hmade
  exact wappend_behind (content_printed (by decide)) (by decide) (by decide) happended hfits.content

end Procenv
