import Procenv.Text.Basic

/-!
# JSON texts (RFC 8259)

`Derives` is the grammar of RFC 8259 over code points, with the white space where
the structural characters of the RFC allow it, each blank at one place: before and
after a value, and around a member's name. A string token is kept as it is written,
between its quotes (`Str`), and so is a number.

* `derives_unique`: the grammar is unambiguous.
* `JsonText.unique`: a text has at most one parse tree.
-/

namespace Procenv.Text.Json

/-- `ws`: space, horizontal tab, line feed, carriage return. -/
def isWs (c : CodePoint) : Bool := c = 0x20 || c = 0x09 || c = 0x0A || c = 0x0D

def Ws (s : List CodePoint) : Prop := ∀ c ∈ s, isWs c = true

/-- `HEXDIG`. -/
def isHex (c : CodePoint) : Bool :=
  (0x30 ≤ c.val && c.val ≤ 0x39) || (0x41 ≤ c.val && c.val ≤ 0x46) || (0x61 ≤ c.val && c.val ≤ 0x66)

/-- The characters after a backslash in the two-character escapes. -/
def isEscape (c : CodePoint) : Bool :=
  c = 0x22 || c = 0x5C || c = 0x2F || c = 0x62 || c = 0x66 || c = 0x6E || c = 0x72 || c = 0x74

/-- `*char`: what stands between the quotes of a string. -/
inductive Str : List CodePoint → Prop
  | nil : Str []
  | unescaped {c : CodePoint} {s} : 0x20 ≤ c.val → c ≠ 0x22 → c ≠ 0x5C → Str s → Str (c :: s)
  | escape {c : CodePoint} {s} : isEscape c → Str s → Str (0x5C :: c :: s)
  | unicode {a b c d : CodePoint} {s} : isHex a → isHex b → isHex c → isHex d → Str s →
      Str (0x5C :: 0x75 :: a :: b :: c :: d :: s)

def isDigit (c : CodePoint) : Bool := 0x30 ≤ c.val && c.val ≤ 0x39

/-- `int`: a zero, or digits that do not start with one. -/
def Int (s : List CodePoint) : Prop :=
  s = [0x30] ∨ (s ≠ [] ∧ s.head? ≠ some 0x30 ∧ ∀ c ∈ s, isDigit c = true)

/-- `1*DIGIT`. -/
def Digits (s : List CodePoint) : Prop := s ≠ [] ∧ ∀ c ∈ s, isDigit c = true

/-- `number = [ minus ] int [ frac ] [ exp ]`. -/
def Number (s : List CodePoint) : Prop :=
  ∃ minus int frac exp, s = minus ++ int ++ frac ++ exp ∧ (minus = [] ∨ minus = [0x2D]) ∧ Int int ∧
    (frac = [] ∨ ∃ ds, frac = 0x2E :: ds ∧ Digits ds) ∧
    (exp = [] ∨ ∃ e sign ds, exp = e :: (sign ++ ds) ∧ (e = 0x65 ∨ e = 0x45) ∧
      (sign = [] ∨ sign = [0x2D] ∨ sign = [0x2B]) ∧ Digits ds)

/-- Parse trees. -/
inductive Value
  | null
  | bool (b : Bool)
  | num (token : List CodePoint)
  | str (token : List CodePoint)
  | arr (elements : List Value)
  | obj (members : List (List CodePoint × Value))

/-- The symbols of the grammar, with their parse trees. -/
inductive Sym
  | value (v : Value)
  | element (v : Value)
  | members (ms : List (List CodePoint × Value))
  | elements (vs : List Value)

/-- **The grammar.** `element` is a value with the white space around it. -/
inductive Derives : Sym → List CodePoint → Prop
  | null : Derives (.value .null) (lit "null")
  | tru : Derives (.value (.bool true)) (lit "true")
  | fls : Derives (.value (.bool false)) (lit "false")
  | num {t} : Number t → Derives (.value (.num t)) t
  | str {t} : Str t → Derives (.value (.str t)) (0x22 :: (t ++ [0x22]))
  | objNil {w} : Ws w → Derives (.value (.obj [])) (0x7B :: (w ++ [0x7D]))
  | obj {ms s} : Derives (.members ms) s → Derives (.value (.obj ms)) (0x7B :: (s ++ [0x7D]))
  | arrNil {w} : Ws w → Derives (.value (.arr [])) (0x5B :: (w ++ [0x5D]))
  | arr {vs s} : Derives (.elements vs) s → Derives (.value (.arr vs)) (0x5B :: (s ++ [0x5D]))
  | element {a b v s} : Ws a → Derives (.value v) s → Ws b → Derives (.element v) (a ++ (s ++ b))
  | memberOne {a k b v e} : Ws a → Str k → Ws b → Derives (.element v) e →
      Derives (.members [(k, v)]) (a ++ 0x22 :: (k ++ 0x22 :: (b ++ 0x3A :: e)))
  | memberCons {a k b v e ms s} : Ws a → Str k → Ws b → Derives (.element v) e →
      Derives (.members ms) s →
      Derives (.members ((k, v) :: ms)) (a ++ 0x22 :: (k ++ 0x22 :: (b ++ 0x3A :: (e ++ 0x2C :: s))))
  | elementOne {v e} : Derives (.element v) e → Derives (.elements [v]) e
  | elementCons {v e vs s} : Derives (.element v) e → Derives (.elements vs) s →
      Derives (.elements (v :: vs)) (e ++ 0x2C :: s)

/-- `JSON-text = ws value ws`. -/
def JsonText (s : List CodePoint) (v : Value) : Prop := Derives (.element v) s

theorem Str.append {s t : List CodePoint} (hs : Str s) (ht : Str t) : Str (s ++ t) := by
  induction hs with
  | nil => exact ht
  | unescaped h1 h2 h3 _ ih => exact .unescaped h1 h2 h3 ih
  | escape h1 _ ih => exact .escape h1 ih
  | unicode h1 h2 h3 h4 _ ih => exact .unicode h1 h2 h3 h4 ih

theorem Str.flatMap {α : Type*} {f : α → List CodePoint} {l : List α} (h : ∀ x ∈ l, Str (f x)) :
    Str (l.flatMap f) := by
  induction l with
  | nil => exact .nil
  | cons x l ih =>
    rw [List.flatMap_cons]
    exact (h x List.mem_cons_self).append (ih fun y hy => h y (List.mem_cons_of_mem _ hy))

theorem Ws.append {s t : List CodePoint} (hs : Ws s) (ht : Ws t) : Ws (s ++ t) := fun c hc =>
  (List.mem_append.1 hc).elim (hs c) (ht c)

/-! ## Unambiguity -/

/-- The characters of numbers. -/
def isNumChar (c : CodePoint) : Bool :=
  isDigit c || c = 0x2D || c = 0x2B || c = 0x2E || c = 0x65 || c = 0x45

theorem Number.ne_nil {t : List CodePoint} (h : Number t) : t ≠ [] := by
  obtain ⟨minus, int, frac, exp, rfl, -, hi, -, -⟩ := h
  rcases hi with rfl | ⟨hi, -⟩
  · simp
  · simp [hi]

theorem Number.chars {t : List CodePoint} (h : Number t) : ∀ c ∈ t, isNumChar c = true := by
  obtain ⟨minus, int, frac, exp, rfl, hm, hi, hfr, hex⟩ := h
  have hdig : ∀ c, isDigit c = true → isNumChar c = true := fun c hc => by simp [isNumChar, hc]
  intro c hc
  simp only [List.mem_append] at hc
  rcases hc with ((hc | hc) | hc) | hc
  · rcases hm with rfl | rfl
    · simp at hc
    · simp only [List.mem_singleton] at hc; subst hc; decide
  · rcases hi with rfl | ⟨-, -, hi⟩
    · simp only [List.mem_singleton] at hc; subst hc; decide
    · exact hdig c (hi c hc)
  · rcases hfr with rfl | ⟨ds, rfl, hds⟩
    · simp at hc
    · rcases List.mem_cons.1 hc with rfl | hc
      · decide
      · exact hdig c (hds.2 c hc)
  · rcases hex with rfl | ⟨e, sign, ds, rfl, he, hs, hds⟩
    · simp at hc
    · rcases List.mem_cons.1 hc with rfl | hc
      · rcases he with rfl | rfl <;> decide
      · rcases List.mem_append.1 hc with hc | hc
        · rcases hs with rfl | rfl | rfl
          · simp at hc
          · simp only [List.mem_singleton] at hc; subst hc; decide
          · simp only [List.mem_singleton] at hc; subst hc; decide
        · exact hdig c (hds.2 c hc)

/-- A string ends at its first quote that is not escaped. -/
theorem Str.unique {k k' t t' : List CodePoint} (hk : Str k) (hk' : Str k')
    (h : k ++ 0x22 :: t = k' ++ 0x22 :: t') : k = k' ∧ t = t' := by
  induction hk generalizing k' with
  | nil =>
    cases hk' with
    | nil => simpa using h
    | unescaped _ h2 _ _ => exact absurd (List.cons.inj h).1.symm h2
    | escape _ _ => exact absurd (List.cons.inj h).1 (by decide)
    | unicode _ _ _ _ _ => exact absurd (List.cons.inj h).1 (by decide)
  | unescaped h1 h2 h3 _ ih =>
    cases hk' with
    | nil => exact absurd (List.cons.inj h).1 h2
    | unescaped _ _ _ hs =>
      obtain ⟨rfl, h'⟩ := List.cons.inj h
      obtain ⟨rfl, rfl⟩ := ih hs h'
      exact ⟨rfl, rfl⟩
    | escape _ _ => exact absurd (List.cons.inj h).1 h3
    | unicode _ _ _ _ _ => exact absurd (List.cons.inj h).1 h3
  | escape hc _ ih =>
    cases hk' with
    | nil => exact absurd (List.cons.inj h).1 (by decide)
    | unescaped _ _ h3 _ => exact absurd (List.cons.inj h).1.symm h3
    | escape _ hs =>
      simp only [List.cons_append, List.cons.injEq, true_and] at h
      obtain ⟨rfl, h⟩ := h
      obtain ⟨rfl, rfl⟩ := ih hs h
      exact ⟨rfl, rfl⟩
    | unicode _ _ _ _ _ =>
      simp only [List.cons_append, List.cons.injEq, true_and] at h
      rw [h.1] at hc
      exact absurd hc (by decide)
  | unicode ha hb hc hd _ ih =>
    cases hk' with
    | nil => exact absurd (List.cons.inj h).1 (by decide)
    | unescaped _ _ h3 _ => exact absurd (List.cons.inj h).1.symm h3
    | escape hc' _ =>
      simp only [List.cons_append, List.cons.injEq, true_and] at h
      rw [← h.1] at hc'
      exact absurd hc' (by decide)
    | unicode _ _ _ _ hs =>
      simp only [List.cons_append, List.cons.injEq, true_and] at h
      obtain ⟨rfl, rfl, rfl, rfl, h⟩ := h
      obtain ⟨rfl, rfl⟩ := ih hs h
      exact ⟨rfl, rfl⟩

/-- What may come after a symbol in a text: a number is followed by no character of a number, an
element also by no white space, members by a closing brace and elements by a closing bracket. -/
def Sym.Follow : Sym → List CodePoint → Prop
  | .value _, r => ∀ c ∈ r.head?, isNumChar c = false
  | .element _, r => ∀ c ∈ r.head?, isNumChar c = false ∧ isWs c = false
  | .members _, r => r.head? = some 0x7D
  | .elements _, r => r.head? = some 0x5D

/-- Two symbols of one kind. -/
def Sym.Same : Sym → Sym → Prop
  | .value _, .value _ => True
  | .element _, .element _ => True
  | .members _, .members _ => True
  | .elements _, .elements _ => True
  | _, _ => False

theorem follow_comma {v : Value} {r : List CodePoint} : (Sym.element v).Follow (0x2C :: r) := by
  simp only [Sym.Follow, List.head?_cons, Option.mem_some_iff, forall_eq']
  decide

theorem follow_brace {v : Value} {r : List CodePoint} (h : r.head? = some 0x7D) :
    (Sym.element v).Follow r := by
  simp only [Sym.Follow, h, Option.mem_some_iff, forall_eq']
  decide

theorem follow_bracket {v : Value} {r : List CodePoint} (h : r.head? = some 0x5D) :
    (Sym.element v).Follow r := by
  simp only [Sym.Follow, h, Option.mem_some_iff, forall_eq']
  decide

theorem isNumChar_ws {c : CodePoint} (h : isWs c = true) : isNumChar c = false := by
  simp only [isWs, Bool.or_eq_true, decide_eq_true_eq] at h
  rcases h with ((rfl | rfl) | rfl) | rfl <;> decide

/-- White space, or what follows an element, is no character of a number. -/
theorem follow_ws {v : Value} {b r : List CodePoint} (hb : Ws b) (hr : (Sym.element v).Follow r) :
    (Sym.value v).Follow (b ++ r) := by
  intro c hc
  cases b with
  | nil => exact (hr c hc).1
  | cons d ds =>
    simp only [List.cons_append, List.head?_cons, Option.mem_some_iff] at hc
    subst hc
    exact isNumChar_ws (hb _ List.mem_cons_self)

/-- The kind of a value. -/
def Value.kind : Value → Nat
  | .null => 0
  | .bool true => 1
  | .bool false => 2
  | .str _ => 3
  | .obj _ => 4
  | .arr _ => 5
  | .num _ => 6

/-- The kind of the values that a character starts. -/
def startKind (c : CodePoint) : Nat :=
  if c = 0x6E then 0 else if c = 0x74 then 1 else if c = 0x66 then 2 else if c = 0x22 then 3
  else if c = 0x7B then 4 else if c = 0x5B then 5 else if isNumChar c then 6 else 7

theorem startKind_num {c : CodePoint} (h : isNumChar c = true) : startKind c = 6 := by
  have hne : ∀ d : CodePoint, isNumChar d = false → c ≠ d := fun d hd hcd => by simp [hcd, hd] at h
  simp [startKind, h, hne 0x6E (by decide), hne 0x74 (by decide), hne 0x66 (by decide),
    hne 0x22 (by decide), hne 0x7B (by decide), hne 0x5B (by decide)]

/-- The first character of a value tells its kind. -/
theorem value_head {v : Value} {s : List CodePoint} (h : Derives (.value v) s) :
    ∃ c t, s = c :: t ∧ isWs c = false ∧ startKind c = v.kind ∧ c ≠ 0x5D := by
  cases h with
  | null => exact ⟨_, _, rfl, by decide⟩
  | tru => exact ⟨_, _, rfl, by decide⟩
  | fls => exact ⟨_, _, rfl, by decide⟩
  | num ht =>
    rcases s with _ | ⟨c, t⟩
    · exact absurd rfl ht.ne_nil
    · have hc := ht.chars c List.mem_cons_self
      refine ⟨c, t, rfl, ?_, startKind_num hc, ?_⟩
      · by_contra hw
        simp [isNumChar_ws (Bool.not_eq_false _ ▸ hw)] at hc
      · rintro rfl
        exact absurd hc (by decide)
  | str _ => exact ⟨_, _, rfl, by decide, rfl, by decide⟩
  | objNil _ => exact ⟨_, _, rfl, by decide, rfl, by decide⟩
  | obj _ => exact ⟨_, _, rfl, by decide, rfl, by decide⟩
  | arrNil _ => exact ⟨_, _, rfl, by decide, rfl, by decide⟩
  | arr _ => exact ⟨_, _, rfl, by decide, rfl, by decide⟩

theorem kind_eq {v v' : Value} {s s' r r' : List CodePoint} (h : Derives (.value v) s)
    (h' : Derives (.value v') s') (he : s ++ r = s' ++ r') : v.kind = v'.kind := by
  obtain ⟨c, t, rfl, -, hc, -⟩ := value_head h
  obtain ⟨c', t', rfl, -, hc', -⟩ := value_head h'
  rw [← hc, ← hc', (List.cons.inj he).1]

theorem members_head {ms : List (List CodePoint × Value)} {s : List CodePoint}
    (h : Derives (.members ms) s) : ∃ a t, Ws a ∧ s = a ++ 0x22 :: t := by
  cases h with
  | memberOne ha _ _ _ => exact ⟨_, _, ha, rfl⟩
  | memberCons ha _ _ _ _ => exact ⟨_, _, ha, rfl⟩

theorem element_head {v : Value} {s : List CodePoint} (h : Derives (.element v) s) :
    ∃ a c t, Ws a ∧ s = a ++ c :: t ∧ isWs c = false ∧ c ≠ 0x5D := by
  cases h with
  | element ha hv hb =>
    obtain ⟨c, t, rfl, hc, -, hc'⟩ := value_head hv
    exact ⟨_, c, _, ha, rfl, hc, hc'⟩

theorem elements_head {vs : List Value} {s : List CodePoint} (h : Derives (.elements vs) s) :
    ∃ a c t, Ws a ∧ s = a ++ c :: t ∧ isWs c = false ∧ c ≠ 0x5D := by
  cases h with
  | elementOne he => exact element_head he
  | elementCons he _ =>
    obtain ⟨a, c, t, ha, rfl, hc, hc'⟩ := element_head he
    exact ⟨a, c, _, ha, List.append_assoc _ _ _, hc, hc'⟩

/-- White space up to a character that is none is unique. -/
theorem ws_unique {a a' t t' : List CodePoint} {c c' : CodePoint} (ha : Ws a) (ha' : Ws a')
    (hc : isWs c = false) (hc' : isWs c' = false) (h : a ++ c :: t = a' ++ c' :: t') :
    c = c' ∧ t = t' := by
  have := (span_unique ha ha' (by simpa using hc) (by simpa using hc') h).2
  exact List.cons.inj this

/-- A member's name and what comes after its colon are unique. -/
theorem name_unique {a a' k k' b b' t t' : List CodePoint} (ha : Ws a) (hk : Str k) (hb : Ws b)
    (ha' : Ws a') (hk' : Str k') (hb' : Ws b')
    (h : a ++ 0x22 :: (k ++ 0x22 :: (b ++ 0x3A :: t)) = a' ++ 0x22 :: (k' ++ 0x22 :: (b' ++ 0x3A :: t'))) :
    k = k' ∧ t = t' := by
  have hname := (ws_unique ha ha' (by decide) (by decide) h).2
  obtain ⟨rfl, hcolon⟩ := hk.unique hk' hname
  exact ⟨rfl, (ws_unique hb hb' (by decide) (by decide) hcolon).2⟩

/-- Another derivation of a symbol of this kind from the same place agrees on the tree and on what comes after
it. -/
def Unambiguous (x : Sym) (s : List CodePoint) : Prop :=
  ∀ {y : Sym} {t r r' : List CodePoint}, Derives y t → x.Same y → x.Follow r → y.Follow r' → s ++ r = t ++ r' →
    x = y ∧ r = r'

section Unambiguous

variable {v : Value} {vs : List Value} {ms : List (List CodePoint × Value)} {a b k s w : List CodePoint}

/-- **Two derivations of values from one place are of one kind**: the first character tells it. -/
theorem unambiguous_value (hv : Derives (.value v) s)
    (h : ∀ {v' : Value} {t r r' : List CodePoint}, Derives (.value v') t → v.kind = v'.kind →
      (Sym.value v).Follow r → (Sym.value v').Follow r' → s ++ r = t ++ r' → v = v' ∧ r = r') :
    Unambiguous (.value v) s := by
  intro y t r r' hy hsame hf hf' heq
  cases y <;> simp only [Sym.Same] at hsame
  obtain ⟨rfl, rfl⟩ := h hy (kind_eq hv hy heq) hf hf' heq
  exact ⟨rfl, rfl⟩

/-- There is one text of its kind only. -/
theorem unambiguous_literal (hv : Derives (.value v) s)
    (h : ∀ {v' : Value} {t : List CodePoint}, Derives (.value v') t → v.kind = v'.kind → v = v' ∧ s = t) :
    Unambiguous (.value v) s := by
  refine unambiguous_value hv fun hy hk _ _ heq => ?_
  obtain ⟨rfl, rfl⟩ := h hy hk
  exact ⟨rfl, List.append_cancel_left heq⟩

theorem unambiguous_null : Unambiguous (.value .null) (lit "null") :=
  unambiguous_literal .null fun hy hk => by cases hy <;> simp [Value.kind] at hk ⊢

theorem unambiguous_true : Unambiguous (.value (.bool true)) (lit "true") :=
  unambiguous_literal .tru fun hy hk => by cases hy <;> simp [Value.kind] at hk ⊢

theorem unambiguous_false : Unambiguous (.value (.bool false)) (lit "false") :=
  unambiguous_literal .fls fun hy hk => by cases hy <;> simp [Value.kind] at hk ⊢

theorem unambiguous_num (ht : Number s) : Unambiguous (.value (.num s)) s := by
  refine unambiguous_value (.num ht) fun hy hk hf hf' h => ?_
  cases hy <;> simp [Value.kind] at hk
  rename_i ht'
  obtain ⟨rfl, rfl⟩ := span_unique ht.chars ht'.chars hf hf' h
  exact ⟨rfl, rfl⟩

theorem unambiguous_str (ht : Str s) : Unambiguous (.value (.str s)) (0x22 :: (s ++ [0x22])) := by
  refine unambiguous_value (.str ht) fun hy hk hf hf' h => ?_
  cases hy <;> simp [Value.kind] at hk
  rename_i ht'
  simp only [List.cons_append, List.append_assoc, List.nil_append, List.cons.injEq, true_and] at h
  obtain ⟨rfl, rfl⟩ := ht.unique ht' h
  exact ⟨rfl, rfl⟩

/-- A brace after white space, where a member begins with a quote. -/
theorem unambiguous_objNil (hw : Ws w) : Unambiguous (.value (.obj [])) (0x7B :: (w ++ [0x7D])) := by
  refine unambiguous_value (.objNil hw) fun hy hk hf hf' h => ?_
  cases hy <;> simp [Value.kind] at hk
  · rename_i hw'
    simp only [List.cons_append, List.append_assoc, List.nil_append, List.cons.injEq, true_and] at h
    exact ⟨rfl, (ws_unique hw hw' (by decide) (by decide) h).2⟩
  · rename_i hm
    obtain ⟨a, t, ha, rfl⟩ := members_head hm
    simp only [List.cons_append, List.append_assoc, List.nil_append, List.cons.injEq, true_and] at h
    exact absurd (ws_unique hw ha (by decide) (by decide) h).1 (by decide)

theorem unambiguous_obj (hm : Derives (.members ms) s) (ih : Unambiguous (.members ms) s) :
    Unambiguous (.value (.obj ms)) (0x7B :: (s ++ [0x7D])) := by
  refine unambiguous_value (.obj hm) fun hy hk hf hf' h => ?_
  cases hy <;> simp [Value.kind] at hk
  · rename_i hw
    obtain ⟨a, t, ha, rfl⟩ := members_head hm
    simp only [List.cons_append, List.append_assoc, List.nil_append, List.cons.injEq, true_and] at h
    exact absurd (ws_unique ha hw (by decide) (by decide) h).1 (by decide)
  · rename_i hm'
    simp only [List.cons_append, List.append_assoc, List.nil_append, List.cons.injEq, true_and] at h
    obtain ⟨hms, hr⟩ := ih hm' trivial (by simp [Sym.Follow]) (by simp [Sym.Follow]) h
    simp only [Sym.members.injEq] at hms
    exact ⟨by rw [hms], (List.cons.inj hr).2⟩

/-- A bracket after white space, where no element begins with one. -/
theorem unambiguous_arrNil (hw : Ws w) : Unambiguous (.value (.arr [])) (0x5B :: (w ++ [0x5D])) := by
  refine unambiguous_value (.arrNil hw) fun hy hk hf hf' h => ?_
  cases hy <;> simp [Value.kind] at hk
  · rename_i hw'
    simp only [List.cons_append, List.append_assoc, List.nil_append, List.cons.injEq, true_and] at h
    exact ⟨rfl, (ws_unique hw hw' (by decide) (by decide) h).2⟩
  · rename_i hm
    obtain ⟨a, c, t, ha, rfl, hc, hc'⟩ := elements_head hm
    simp only [List.cons_append, List.append_assoc, List.nil_append, List.cons.injEq, true_and] at h
    exact absurd (ws_unique hw ha (by decide) hc h).1.symm hc'

theorem unambiguous_arr (hm : Derives (.elements vs) s) (ih : Unambiguous (.elements vs) s) :
    Unambiguous (.value (.arr vs)) (0x5B :: (s ++ [0x5D])) := by
  refine unambiguous_value (.arr hm) fun hy hk hf hf' h => ?_
  cases hy <;> simp [Value.kind] at hk
  · rename_i hw
    obtain ⟨a, c, t, ha, rfl, hc, hc'⟩ := elements_head hm
    simp only [List.cons_append, List.append_assoc, List.nil_append, List.cons.injEq, true_and] at h
    exact absurd (ws_unique ha hw hc (by decide) h).1 hc'
  · rename_i hm'
    simp only [List.cons_append, List.append_assoc, List.nil_append, List.cons.injEq, true_and] at h
    obtain ⟨hms, hr⟩ := ih hm' trivial (by simp [Sym.Follow]) (by simp [Sym.Follow]) h
    simp only [Sym.elements.injEq] at hms
    exact ⟨by rw [hms], (List.cons.inj hr).2⟩

theorem unambiguous_element (ha : Ws a) (hv : Derives (.value v) s) (hb : Ws b) (ih : Unambiguous (.value v) s) :
    Unambiguous (.element v) (a ++ (s ++ b)) := by
  intro y t r r' hy hsame hf hf' h
  cases y <;> simp only [Sym.Same] at hsame
  cases hy with
  | element ha' hv' hb' =>
    obtain ⟨c, u, rfl, hc, -, -⟩ := value_head hv
    obtain ⟨c', u', rfl, hc', -, -⟩ := value_head hv'
    simp only [List.cons_append, List.append_assoc] at h
    obtain ⟨rfl, hu⟩ := ws_unique ha ha' hc hc' h
    obtain ⟨hvv, hr⟩ := ih hv' trivial (follow_ws hb hf) (follow_ws hb' hf') (by simp [hu])
    simp only [Sym.value.injEq] at hvv
    have := (span_unique hb hb' (fun c hc => (hf c hc).2) (fun c hc => (hf' c hc).2) hr).2
    exact ⟨by rw [hvv], this⟩

/-- Where a brace follows there is no comma after the element. -/
theorem unambiguous_memberOne {e : List CodePoint} (ha : Ws a) (hk : Str k) (hb : Ws b)
    (ih : Unambiguous (.element v) e) :
    Unambiguous (.members [(k, v)]) (a ++ 0x22 :: (k ++ 0x22 :: (b ++ 0x3A :: e))) := by
  intro y t r r' hy hsame hf hf' h
  cases y <;> simp only [Sym.Same] at hsame
  cases hy with
  | memberOne ha' hk' hb' he' =>
    simp only [List.cons_append, List.append_assoc] at h
    obtain ⟨rfl, he⟩ := name_unique ha hk hb ha' hk' hb' h
    obtain ⟨hv, hr⟩ := ih he' trivial (follow_brace hf) (follow_brace hf') he
    simp only [Sym.element.injEq] at hv
    exact ⟨by rw [hv], hr⟩
  | memberCons ha' hk' hb' he' hm' =>
    simp only [List.cons_append, List.append_assoc] at h
    obtain ⟨rfl, he⟩ := name_unique ha hk hb ha' hk' hb' h
    have hr := (ih he' trivial (follow_brace hf) follow_comma he).2
    rw [hr] at hf
    exact absurd hf (by simp [Sym.Follow])

theorem unambiguous_memberCons {e : List CodePoint} (ha : Ws a) (hk : Str k) (hb : Ws b)
    (ih : Unambiguous (.element v) e) (ihm : Unambiguous (.members ms) s) :
    Unambiguous (.members ((k, v) :: ms)) (a ++ 0x22 :: (k ++ 0x22 :: (b ++ 0x3A :: (e ++ 0x2C :: s)))) := by
  intro y t r r' hy hsame hf hf' h
  cases y <;> simp only [Sym.Same] at hsame
  cases hy with
  | memberOne ha' hk' hb' he' =>
    simp only [List.cons_append, List.append_assoc] at h
    obtain ⟨rfl, he⟩ := name_unique ha hk hb ha' hk' hb' h
    have hr := (ih he' trivial follow_comma (follow_brace hf') he).2
    rw [← hr] at hf'
    exact absurd hf' (by simp [Sym.Follow])
  | memberCons ha' hk' hb' he' hm' =>
    simp only [List.cons_append, List.append_assoc] at h
    obtain ⟨rfl, he⟩ := name_unique ha hk hb ha' hk' hb' h
    obtain ⟨hv, hr⟩ := ih he' trivial follow_comma follow_comma he
    obtain ⟨hms, hr⟩ := ihm hm' trivial hf hf' (List.cons.inj hr).2
    simp only [Sym.element.injEq, Sym.members.injEq] at hv hms
    exact ⟨by rw [hv, hms], hr⟩

theorem unambiguous_elementOne (ih : Unambiguous (.element v) s) : Unambiguous (.elements [v]) s := by
  intro y t r r' hy hsame hf hf' h
  cases y <;> simp only [Sym.Same] at hsame
  cases hy with
  | elementOne he' =>
    obtain ⟨hv, hr⟩ := ih he' trivial (follow_bracket hf) (follow_bracket hf') h
    simp only [Sym.element.injEq] at hv
    exact ⟨by rw [hv], hr⟩
  | elementCons he' hm' =>
    simp only [List.cons_append, List.append_assoc] at h
    have hr := (ih he' trivial (follow_bracket hf) follow_comma h).2
    rw [hr] at hf
    exact absurd hf (by simp [Sym.Follow])

theorem unambiguous_elementCons {e : List CodePoint} (ih : Unambiguous (.element v) e)
    (ihm : Unambiguous (.elements vs) s) : Unambiguous (.elements (v :: vs)) (e ++ 0x2C :: s) := by
  intro y t r r' hy hsame hf hf' h
  cases y <;> simp only [Sym.Same] at hsame
  cases hy with
  | elementOne he' =>
    simp only [List.cons_append, List.append_assoc] at h
    have hr := (ih he' trivial follow_comma (follow_bracket hf') h).2
    rw [← hr] at hf'
    exact absurd hf' (by simp [Sym.Follow])
  | elementCons he' hm' =>
    simp only [List.cons_append, List.append_assoc] at h
    obtain ⟨hv, hr⟩ := ih he' trivial follow_comma follow_comma h
    obtain ⟨hms, hr⟩ := ihm hm' trivial hf hf' (List.cons.inj hr).2
    simp only [Sym.element.injEq, Sym.elements.injEq] at hv hms
    exact ⟨by rw [hv, hms], hr⟩

end Unambiguous

/-- **The grammar is unambiguous**: two derivations of one symbol kind from one place agree on the
tree and on what comes after it. -/
theorem derives_unique {x : Sym} {s : List CodePoint} (hx : Derives x s) : Unambiguous x s := by
  induction hx with
  | null => exact unambiguous_null
  | tru => exact unambiguous_true
  | fls => exact unambiguous_false
  | num ht => exact unambiguous_num ht
  | str ht => exact unambiguous_str ht
  | objNil hw => exact unambiguous_objNil hw
  | obj hm ih => exact unambiguous_obj hm ih
  | arrNil hw => exact unambiguous_arrNil hw
  | arr hm ih => exact unambiguous_arr hm ih
  | element ha hv hb ih => exact unambiguous_element ha hv hb ih
  | memberOne ha hk hb _ ih => exact unambiguous_memberOne ha hk hb ih
  | memberCons ha hk hb _ _ ih ihm => exact unambiguous_memberCons ha hk hb ih ihm
  | elementOne _ ih => exact unambiguous_elementOne ih
  | elementCons _ _ ih ihm => exact unambiguous_elementCons ih ihm

/-- **A text has at most one parse tree.** -/
theorem JsonText.unique {s : List CodePoint} {v v' : Value} (h : JsonText s v) (h' : JsonText s v') :
    v = v' := by
  have := (derives_unique h (y := .element v') h' trivial (r := []) (by simp [Sym.Follow])
    (by simp [Sym.Follow]) rfl).1
  simpa using this

end Procenv.Text.Json
