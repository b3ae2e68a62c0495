import Procenv.Text.Basic

/-!
# XML elements

The part of XML 1.0 that documents of elements, attributes and character data need:
start tags with attributes in double quotes, one blank before each, character data,
references, and end tags. There are no empty-element tags, comments, processing
instructions or `CDATA` sections, and names are ASCII.

An element keeps its character data: `lead` comes before its first child, and each
child comes with the data after it.

* `derives_unique`: the grammar is unambiguous.
* `Element.unique`: a text is at most one element.
-/

namespace Procenv.Text.Xml

/-- `NameStartChar`, in ASCII. -/
def isNameStart (c : CodePoint) : Bool :=
  (0x41 ≤ c.val && c.val ≤ 0x5A) || (0x61 ≤ c.val && c.val ≤ 0x7A) || c = 0x5F || c = 0x3A

/-- `NameChar`, in ASCII. -/
def isNameChar (c : CodePoint) : Bool :=
  isNameStart c || (0x30 ≤ c.val && c.val ≤ 0x39) || c = 0x2D || c = 0x2E

/-- `Name`. -/
def isName : List CodePoint → Bool
  | [] => false
  | c :: cs => isNameStart c && cs.all isNameChar

def isDigit (c : CodePoint) : Bool := 0x30 ≤ c.val && c.val ≤ 0x39

def isHex (c : CodePoint) : Bool :=
  isDigit c || (0x41 ≤ c.val && c.val ≤ 0x46) || (0x61 ≤ c.val && c.val ≤ 0x66)

/-- `Reference`: an entity, a decimal or a hexadecimal character reference. -/
inductive Ref : List CodePoint → Prop
  | entity {n} : isName n → Ref (0x26 :: (n ++ [0x3B]))
  | dec {d} : d ≠ [] → (∀ c ∈ d, isDigit c = true) → Ref (0x26 :: 0x23 :: (d ++ [0x3B]))
  | hex {h} : h ≠ [] → (∀ c ∈ h, isHex c = true) → Ref (0x26 :: 0x23 :: 0x78 :: (h ++ [0x3B]))

/-- Character data with references: no raw `<`, no `&` that starts no reference, and inside an
attribute value no raw double quote. -/
inductive Data (attr : Bool) : List CodePoint → Prop
  | nil : Data attr []
  | char {c : CodePoint} {s} : c ≠ 0x3C → c ≠ 0x26 → (attr = true → c ≠ 0x22) → Data attr s →
      Data attr (c :: s)
  | ref {r s} : Ref r → Data attr s → Data attr (r ++ s)

/-- An element: its tag, its attributes, the data before its first child, and its children, each
with the data after it. -/
inductive Elem
  | mk (tag : List CodePoint) (attrs : List (List CodePoint × List CodePoint)) (lead : List CodePoint)
      (kids : List (Elem × List CodePoint))

/-- The attributes of a start tag. -/
inductive Attrs : List (List CodePoint × List CodePoint) → List CodePoint → Prop
  | nil : Attrs [] []
  | cons {n v as s} : isName n → Data true v → Attrs as s →
      Attrs ((n, v) :: as) (0x20 :: (n ++ 0x3D :: 0x22 :: (v ++ 0x22 :: s)))

/-- The symbols of the grammar, with their trees. -/
inductive Sym
  | elem (e : Elem)
  | content (lead : List CodePoint) (kids : List (Elem × List CodePoint))

/-- **The grammar**: an element, and the content of one. -/
inductive Derives : Sym → List CodePoint → Prop
  | elem {tag as a lead kids s} : isName tag → Attrs as a → Derives (.content lead kids) s →
      Derives (.elem (.mk tag as lead kids))
        (0x3C :: (tag ++ (a ++ 0x3E :: (s ++ 0x3C :: 0x2F :: (tag ++ [0x3E])))))
  | contentNil {lead} : Data false lead → Derives (.content lead []) lead
  | contentCons {lead e s t kids r} : Data false lead → Derives (.elem e) s →
      Derives (.content t kids) r → Derives (.content lead ((e, t) :: kids)) (lead ++ (s ++ r))

/-- A text is the element `e`. -/
def Element (s : List CodePoint) (e : Elem) : Prop := Derives (.elem e) s

/-! ## Data -/

theorem Data.append {attr : Bool} {s t : List CodePoint} (hs : Data attr s) (ht : Data attr t) :
    Data attr (s ++ t) := by
  induction hs with
  | nil => exact ht
  | char h1 h2 h3 _ ih => exact .char h1 h2 h3 ih
  | ref hr _ ih =>
    rw [List.append_assoc]
    exact .ref hr ih

theorem Data.flatMap {α : Type*} {attr : Bool} {f : α → List CodePoint} {l : List α}
    (h : ∀ x ∈ l, Data attr (f x)) : Data attr (l.flatMap f) := by
  induction l with
  | nil => exact .nil
  | cons x l ih =>
    rw [List.flatMap_cons]
    exact (h x List.mem_cons_self).append (ih fun y hy => h y (List.mem_cons_of_mem _ hy))

theorem Data.of_ref {attr : Bool} {r : List CodePoint} (h : Ref r) : Data attr r := by
  simpa using Data.ref h (.nil)

/-- Attribute values are character data too. -/
theorem Data.text {s : List CodePoint} (h : Data true s) : Data false s := by
  induction h with
  | nil => exact .nil
  | char h1 h2 _ _ ih => exact .char h1 h2 (by simp) ih
  | ref hr _ ih => exact .ref hr ih

theorem Data.plain {attr : Bool} {s : List CodePoint}
    (h : ∀ c ∈ s, c ≠ 0x3C ∧ c ≠ 0x26 ∧ (attr = true → c ≠ 0x22)) : Data attr s := by
  induction s with
  | nil => exact .nil
  | cons c s ih =>
    obtain ⟨h1, h2, h3⟩ := h c List.mem_cons_self
    exact .char h1 h2 h3 (ih fun d hd => h d (List.mem_cons_of_mem _ hd))

/-- A literal that needs no reference. -/
def isPlain (s : List CodePoint) : Bool := s.all fun c => c ≠ 0x3C && c ≠ 0x26 && c ≠ 0x22

theorem Data.of_isPlain {s : List CodePoint} (h : isPlain s = true) : Data true s := by
  refine Data.plain fun c hc => ?_
  have := List.all_eq_true.1 h c hc
  simp only [Bool.and_eq_true, decide_eq_true_eq] at this
  exact ⟨this.1.1, this.1.2, fun _ => this.2⟩

theorem isName_chars {n : List CodePoint} (h : isName n = true) : ∀ c ∈ n, isNameChar c = true := by
  rcases n with _ | ⟨c, cs⟩
  · simp [isName] at h
  · simp only [isName, Bool.and_eq_true, List.all_eq_true] at h
    intro d hd
    rcases List.mem_cons.1 hd with rfl | hd
    · simp [isNameChar, h.1]
    · exact h.2 d hd

theorem nameChar_ne {c d : CodePoint} (hc : isNameChar c = true) (hd : isNameChar d = false) : c ≠ d := by
  rintro rfl
  simp [hc] at hd

theorem isHex_ne {c d : CodePoint} (hc : isHex c = true) (hd : isHex d = false) : c ≠ d := by
  rintro rfl
  simp [hc] at hd

theorem isHex_of_isDigit {c : CodePoint} (h : isDigit c = true) : isHex c = true := by simp [isHex, h]

/-- A reference has no `<` and no double quote. -/
theorem Ref.chars {r : List CodePoint} (h : Ref r) : ∀ c ∈ r, c ≠ 0x3C ∧ c ≠ 0x22 := by
  cases h with
  | entity hn =>
    intro c hc
    simp only [List.mem_cons, List.mem_append, List.not_mem_nil, or_false] at hc
    rcases hc with rfl | hc | rfl
    · decide
    · exact ⟨nameChar_ne (isName_chars hn c hc) (by decide), nameChar_ne (isName_chars hn c hc) (by decide)⟩
    · decide
  | dec _ hd =>
    intro c hc
    simp only [List.mem_cons, List.mem_append, List.not_mem_nil, or_false] at hc
    rcases hc with rfl | rfl | hc | rfl
    · decide
    · decide
    · have := isHex_of_isDigit (hd c hc)
      exact ⟨isHex_ne this (by decide), isHex_ne this (by decide)⟩
    · decide
  | hex _ hd =>
    intro c hc
    simp only [List.mem_cons, List.mem_append, List.not_mem_nil, or_false] at hc
    rcases hc with rfl | rfl | rfl | hc | rfl
    · decide
    · decide
    · decide
    · exact ⟨isHex_ne (hd c hc) (by decide), isHex_ne (hd c hc) (by decide)⟩
    · decide

/-- Character data has no `<`, and no double quote in an attribute value. -/
theorem Data.chars {attr : Bool} {s : List CodePoint} (h : Data attr s) :
    ∀ c ∈ s, c ≠ 0x3C ∧ (attr = true → c ≠ 0x22) := by
  induction h with
  | nil => simp
  | char h1 _ h3 _ ih =>
    intro c hc
    rcases List.mem_cons.1 hc with rfl | hc
    · exact ⟨h1, h3⟩
    · exact ih c hc
  | ref hr _ ih =>
    intro c hc
    rcases List.mem_append.1 hc with hc | hc
    · exact ⟨(hr.chars c hc).1, fun _ => (hr.chars c hc).2⟩
    · exact ih c hc

/-! ## Unambiguity -/

/-- A name up to a character of no name is unique. -/
theorem name_unique {n n' t t' : List CodePoint} {c c' : CodePoint} (hn : isName n = true)
    (hn' : isName n' = true) (hc : isNameChar c = false) (hc' : isNameChar c' = false)
    (h : n ++ c :: t = n' ++ c' :: t') : n = n' ∧ c = c' ∧ t = t' := by
  obtain ⟨h1, h2⟩ := span_unique (isName_chars hn) (isName_chars hn') (by simpa using hc)
    (by simpa using hc') h
  exact ⟨h1, (List.cons.inj h2).1, (List.cons.inj h2).2⟩

theorem attrs_unique {as as' : List (List CodePoint × List CodePoint)} {a a' t t' : List CodePoint}
    (ha : Attrs as a) (ha' : Attrs as' a') (h : a ++ 0x3E :: t = a' ++ 0x3E :: t') :
    as = as' ∧ t = t' := by
  induction ha generalizing as' a' with
  | nil =>
    cases ha' with
    | nil => exact ⟨rfl, (List.cons.inj h).2⟩
    | cons _ _ _ => exact absurd (List.cons.inj h).1 (by decide)
  | cons hn hv _ ih =>
    cases ha' with
    | nil => exact absurd (List.cons.inj h).1 (by decide)
    | cons hn' hv' has' =>
      simp only [List.cons_append, List.append_assoc, List.cons.injEq, true_and] at h
      obtain ⟨rfl, -, h1⟩ := name_unique hn hn' (by decide) (by decide) h
      obtain ⟨rfl, h2⟩ := upto_unique (fun c hc => (hv.chars c hc).2 rfl)
        (fun c hc => (hv'.chars c hc).2 rfl) (List.cons.inj h1).2
      obtain ⟨rfl, h3⟩ := ih has' h2
      exact ⟨rfl, h3⟩

/-- An attribute list up to the end of its tag starts with no character of a name. -/
theorem attrs_head {as : List (List CodePoint × List CodePoint)} {a t : List CodePoint} (ha : Attrs as a) :
    ∃ c u, a ++ 0x3E :: t = c :: u ∧ isNameChar c = false := by
  cases ha with
  | nil => exact ⟨_, _, rfl, by decide⟩
  | cons _ _ _ => exact ⟨_, _, rfl, by decide⟩

/-- A tag's name and attributes are unique. -/
theorem tag_unique {tag tag' a a' t t' : List CodePoint} {as as' : List (List CodePoint × List CodePoint)}
    (hn : isName tag = true) (hn' : isName tag' = true) (ha : Attrs as a) (ha' : Attrs as' a')
    (h : tag ++ (a ++ 0x3E :: t) = tag' ++ (a' ++ 0x3E :: t')) : tag = tag' ∧ as = as' ∧ t = t' := by
  obtain ⟨c, u, hu, hc⟩ := attrs_head (t := t) ha
  obtain ⟨c', u', hu', hc'⟩ := attrs_head (t := t') ha'
  have hn₂ := name_unique hn hn' hc hc' (hu ▸ hu' ▸ h)
  have hcu : a ++ 0x3E :: t = a' ++ 0x3E :: t' := by rw [hu, hu', hn₂.2.1, hn₂.2.2]
  exact ⟨hn₂.1, attrs_unique ha ha' hcu⟩

theorem elem_head {e : Elem} {s : List CodePoint} (h : Derives (.elem e) s) :
    ∃ c t, s = 0x3C :: c :: t ∧ c ≠ 0x2F := by
  cases h with
  | elem hn _ _ =>
    rename_i tag _ _ _ _ _ _ _
    rcases tag with _ | ⟨c, cs⟩
    · simp [isName] at hn
    · refine ⟨c, _, rfl, ?_⟩
      simp only [isName, Bool.and_eq_true] at hn
      rintro rfl
      exact absurd hn.1 (by decide)

/-- What may come after a symbol: the end tag after content. -/
def Sym.Follow : Sym → List CodePoint → Prop
  | .elem _, _ => True
  | .content _ _, r => ∃ t, r = 0x3C :: 0x2F :: t

/-- Two symbols of one kind. -/
def Sym.Same : Sym → Sym → Prop
  | .elem _, .elem _ => True
  | .content _ _, .content _ _ => True
  | _, _ => False

/-- **The grammar is unambiguous**: two derivations of one symbol kind from one place agree on the
tree and on what comes after it. -/
theorem derives_unique {x : Sym} {s : List CodePoint} (hx : Derives x s) :
    ∀ {y : Sym} {t r r' : List CodePoint}, Derives y t → x.Same y → x.Follow r → y.Follow r' →
      s ++ r = t ++ r' → x = y ∧ r = r' := by
  induction hx with
  | elem hn ha _ ih =>
    intro y t r r' hy hsame _ _ h
    cases y <;> simp only [Sym.Same] at hsame
    cases hy with
    | elem hn' ha' hc' =>
      simp only [List.cons_append, List.append_assoc, List.cons.injEq, true_and, List.nil_append] at h
      obtain ⟨rfl, rfl, h1⟩ := tag_unique hn hn' ha ha' h
      obtain ⟨hc, h2⟩ := ih hc' trivial ⟨_, rfl⟩ ⟨_, rfl⟩ h1
      simp only [List.cons.injEq, true_and, List.append_cancel_left_eq] at h2
      simp only [Sym.content.injEq] at hc
      exact ⟨by rw [hc.1, hc.2], h2⟩
  | contentNil hl =>
    intro y t r r' hy hsame hf hf' h
    cases y <;> simp only [Sym.Same] at hsame
    obtain ⟨u, rfl⟩ := hf
    obtain ⟨u', rfl⟩ := hf'
    cases hy with
    | contentNil hl' =>
      obtain ⟨rfl, h1⟩ := upto_unique (fun c hc => (hl.chars c hc).1) (fun c hc => (hl'.chars c hc).1) h
      exact ⟨rfl, by rw [(List.cons.inj h1).2]⟩
    | contentCons hl' he' _ =>
      obtain ⟨c, v, rfl, hc⟩ := elem_head he'
      simp only [List.cons_append, List.append_assoc] at h
      have h1 := (upto_unique (fun c hc => (hl.chars c hc).1) (fun c hc => (hl'.chars c hc).1) h).2
      exact absurd (List.cons.inj h1).1.symm hc
  | contentCons hl he _ ihe ihc =>
    intro y t r r' hy hsame hf hf' h
    cases y <;> simp only [Sym.Same] at hsame
    cases hy with
    | contentNil hl' =>
      obtain ⟨u', rfl⟩ := hf'
      obtain ⟨c, v, rfl, hc⟩ := elem_head he
      simp only [List.cons_append, List.append_assoc] at h
      have h1 := (upto_unique (fun c hc => (hl.chars c hc).1) (fun c hc => (hl'.chars c hc).1) h).2
      exact absurd (List.cons.inj h1).1 hc
    | contentCons hl' he' hc' =>
      obtain ⟨c, v, rfl, -⟩ := elem_head he
      obtain ⟨c', v', rfl, -⟩ := elem_head he'
      simp only [List.cons_append, List.append_assoc] at h
      obtain ⟨rfl, h1⟩ := upto_unique (fun c hc => (hl.chars c hc).1) (fun c hc => (hl'.chars c hc).1) h
      obtain ⟨hee, h2⟩ := ihe he' trivial trivial trivial (congrArg (List.cons 0x3C) h1)
      obtain ⟨hcc, h3⟩ := ihc hc' trivial hf hf' h2
      simp only [Sym.elem.injEq, Sym.content.injEq] at hee hcc
      exact ⟨by rw [hee, hcc.1, hcc.2], h3⟩

/-- **A text is at most one element.** -/
theorem Element.unique {s : List CodePoint} {e e' : Elem} (h : Element s e) (h' : Element s e') : e = e' := by
  have := (derives_unique h (y := .elem e') h' trivial (r := []) trivial trivial rfl).1
  simpa using this

end Procenv.Text.Xml
