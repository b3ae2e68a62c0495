import Procenv.Text.Json
import Procenv.Text.Xml

/-!
# Nesting depth of texts

Two scanners that read a text character by character and count how deep its end is
nested: `json` counts brackets outside strings, `xml` counts start and end tags, and
takes no account of declarations. What the grammars derive is nested as deep at its
end as at its start; a text with an opening too many is not derived.

* `json_derives`, `xml_derives`: **derived texts add nothing to the depth**.
-/

namespace Procenv.Text.Depth

/-- Where a scanner stands: between tokens, in a string, after a backslash in a string, after a `<`. -/
inductive Mode
  | text | str | escape | tag
deriving DecidableEq

/-- The scanner of JSON texts. -/
def json : Mode × Int → CodePoint → Mode × Int
  | (.text, d), c =>
    if c = 0x22 then (.str, d)
    else if c = 0x7B ∨ c = 0x5B then (.text, d + 1)
    else if c = 0x7D ∨ c = 0x5D then (.text, d - 1)
    else (.text, d)
  | (.str, d), c => if c = 0x5C then (.escape, d) else if c = 0x22 then (.text, d) else (.str, d)
  | (.escape, d), _ => (.str, d)
  | (.tag, d), _ => (.text, d)

/-- The scanner of XML texts. -/
def xml : Mode × Int → CodePoint → Mode × Int
  | (.tag, d), c => if c = 0x2F then (.text, d - 1) else if c = 0x3F then (.text, d) else (.text, d + 1)
  | (_, d), c => if c = 0x3C then (.tag, d) else (.text, d)

variable {f : Mode × Int → CodePoint → Mode × Int} {m n : Int} {s t : List CodePoint}

/-- Read between tokens, the text adds `n` to the depth and ends between tokens. -/
def Nets (f : Mode × Int → CodePoint → Mode × Int) (n : Int) (s : List CodePoint) : Prop :=
  ∀ d, s.foldl f (.text, d) = (.text, d + n)

theorem Nets.nil : Nets f 0 [] := fun d => by simp

theorem Nets.append (hs : Nets f m s) (ht : Nets f n t) : Nets f (m + n) (s ++ t) := fun d => by
  rw [List.foldl_append, hs, ht, Int.add_assoc]

theorem Nets.unique (h : Nets f m s) (h' : Nets f n s) : m = n := by
  have := (h 0).symm.trans (h' 0)
  simpa using this

/-! ## JSON -/

/-- A text without quotes and brackets. -/
theorem json_flat (h : ∀ c ∈ s, c ≠ 0x22 ∧ c ≠ 0x7B ∧ c ≠ 0x5B ∧ c ≠ 0x7D ∧ c ≠ 0x5D) : Nets json 0 s := by
  induction s with
  | nil => exact .nil
  | cons c s ih =>
    intro d
    obtain ⟨h1, h2, h3, h4, h5⟩ := h c List.mem_cons_self
    rw [List.foldl_cons]
    simp only [json, h1, h2, h3, h4, h5, if_false, or_self]
    exact ih (fun x hx => h x (List.mem_cons_of_mem _ hx)) d

theorem json_lit (h : s.all (fun c => c ≠ 0x22 && c ≠ 0x7B && c ≠ 0x5B && c ≠ 0x7D && c ≠ 0x5D) = true) :
    Nets json 0 s := by
  refine json_flat fun c hc => ?_
  have := List.all_eq_true.1 h c hc
  simpa [and_assoc] using this

theorem json_ws (h : Json.Ws s) : Nets json 0 s := by
  refine json_flat fun c hc => ?_
  have := h c hc
  simp only [Json.isWs, Bool.or_eq_true, decide_eq_true_eq] at this
  rcases this with ((rfl | rfl) | rfl) | rfl <;> decide

theorem json_num (h : Json.Number s) : Nets json 0 s := by
  refine json_flat fun c hc => ?_
  have := h.chars c hc
  refine ⟨?_, ?_, ?_, ?_, ?_⟩ <;> rintro rfl <;> exact absurd this (by decide)

theorem json_isHex {c : CodePoint} (h : Json.isHex c = true) (d : Int) : json (.str, d) c = (.str, d) := by
  have h1 : c ≠ 0x5C := by rintro rfl; exact absurd h (by decide)
  have h2 : c ≠ 0x22 := by rintro rfl; exact absurd h (by decide)
  simp [json, h1, h2]

/-- The content of a string stays in the string. -/
theorem json_str (h : Json.Str s) (d : Int) : s.foldl json (.str, d) = (.str, d) := by
  induction h with
  | nil => rfl
  | unescaped _ h2 h3 _ ih =>
    rw [List.foldl_cons]
    simpa [json, h2, h3] using ih
  | escape _ _ ih => exact ih
  | unicode ha hb hc hd _ ih =>
    simp only [List.foldl_cons, show json (.str, d) 0x5C = (.escape, d) from rfl,
      show json (.escape, d) 0x75 = (.str, d) from rfl, json_isHex ha, json_isHex hb,
        json_isHex hc, json_isHex hd]
    exact ih

theorem json_quoted (h : Json.Str s) : Nets json 0 (0x22 :: (s ++ [0x22])) := fun d => by
  rw [List.foldl_cons, List.foldl_append, show json (.text, d) 0x22 = (.str, d) from rfl, json_str h]
  simp [json]

theorem json_bracketed {o c : CodePoint} (ho : o = 0x7B ∨ o = 0x5B) (hc : c = 0x7D ∨ c = 0x5D)
    (h : Nets json 0 s) : Nets json 0 (o :: (s ++ [c])) := fun d => by
  have h1 : json (.text, d) o = (.text, d + 1) := by rcases ho with rfl | rfl <;> rfl
  have h2 : json (.text, d + 1) c = (.text, d + 1 - 1) := by rcases hc with rfl | rfl <;> rfl
  rw [List.foldl_cons, List.foldl_append, h1, h, Int.add_zero]
  simp [h2]

/-- **A derived text adds nothing to the depth.** -/
theorem json_derives {x : Json.Sym} (h : Json.Derives x s) : Nets json 0 s := by
  have hflat : ∀ c : CodePoint, c = 0x3A ∨ c = 0x2C → Nets json 0 [c] := by
    rintro c (rfl | rfl) <;> exact json_lit (by decide)
  induction h with
  | null => exact json_lit (by decide)
  | tru => exact json_lit (by decide)
  | fls => exact json_lit (by decide)
  | num h => exact json_num h
  | str h => exact json_quoted h
  | objNil h => exact json_bracketed (.inl rfl) (.inl rfl) (json_ws h)
  | obj _ ih => exact json_bracketed (.inl rfl) (.inl rfl) ih
  | arrNil h => exact json_bracketed (.inr rfl) (.inr rfl) (json_ws h)
  | arr _ ih => exact json_bracketed (.inr rfl) (.inr rfl) ih
  | element ha _ hb ih => exact (json_ws ha).append (ih.append (json_ws hb))
  | memberOne ha hk hb _ ih =>
    have h := (json_ws ha).append
      ((json_quoted hk).append ((json_ws hb).append ((hflat 0x3A (.inl rfl)).append ih)))
    simpa using h
  | memberCons ha hk hb _ _ ihe ihs =>
    have h := (json_ws ha).append ((json_quoted hk).append ((json_ws hb).append
      ((hflat 0x3A (.inl rfl)).append (ihe.append ((hflat 0x2C (.inr rfl)).append ihs)))))
    simpa using h
  | elementOne _ ih => exact ih
  | elementCons _ _ ihe ihs =>
    have h := ihe.append ((hflat 0x2C (.inr rfl)).append ihs)
    simpa using h

/-! ## XML -/

/-- A text without `<`. -/
theorem xml_flat (h : ∀ c ∈ s, c ≠ 0x3C) : Nets xml 0 s := by
  induction s with
  | nil => exact .nil
  | cons c s ih =>
    intro d
    rw [List.foldl_cons]
    simp only [xml, h c List.mem_cons_self, if_false]
    exact ih (fun x hx => h x (List.mem_cons_of_mem _ hx)) d

theorem xml_lit (h : s.all (· ≠ 0x3C) = true) : Nets xml 0 s :=
  xml_flat fun c hc => by simpa using List.all_eq_true.1 h c hc

theorem xml_data {attr : Bool} (h : Xml.Data attr s) : Nets xml 0 s := xml_flat fun c hc => (h.chars c hc).1

/-- A declaration. -/
theorem xml_declaration (h : Nets xml n s) : Nets xml n (0x3C :: 0x3F :: s) := fun d => by
  rw [List.foldl_cons, List.foldl_cons, show xml (xml (.text, d) 0x3C) 0x3F = (.text, d) from rfl, h]

theorem xml_name (h : Xml.isName s = true) : Nets xml 0 s :=
  xml_flat fun c hc => Xml.nameChar_ne (Xml.isName_chars h c hc) (by decide)

theorem xml_attrs {as : List (List CodePoint × List CodePoint)} (h : Xml.Attrs as s) : Nets xml 0 s := by
  induction h with
  | nil => exact .nil
  | cons hn hv _ ih =>
    have h := (xml_lit (s := [0x20]) (by decide)).append ((xml_name hn).append
      ((xml_lit (s := [0x3D, 0x22]) (by decide)).append
        ((xml_data hv).append ((xml_lit (s := [0x22]) (by decide)).append ih))))
    simpa using h

/-- The name of a start tag is no `/` and no `?`. -/
theorem xml_start {tag : List CodePoint} (h : Xml.isName tag = true) : Nets xml 1 (0x3C :: tag) := fun d => by
  rcases tag with _ | ⟨c, cs⟩
  · simp [Xml.isName] at h
  have hname := h
  simp only [Xml.isName, Bool.and_eq_true] at h
  have h1 : c ≠ 0x2F := by rintro rfl; exact absurd h.1 (by decide)
  have h2 : c ≠ 0x3F := by rintro rfl; exact absurd h.1 (by decide)
  have hc : xml (.tag, d) c = (.text, d + 1) := by simp [xml, h1, h2]
  have hcs := xml_flat (s := cs) (fun x hx =>
    Xml.nameChar_ne (Xml.isName_chars hname x (List.mem_cons_of_mem _ hx)) (by decide)) (d + 1)
  rw [Int.add_zero] at hcs
  rw [List.foldl_cons, show xml (.text, d) 0x3C = (.tag, d) from rfl, List.foldl_cons, hc, hcs]

/-- **A derived text adds nothing to the depth.** -/
theorem xml_derives {x : Xml.Sym} (h : Xml.Derives x s) : Nets xml 0 s := by
  have hgt : Nets xml 0 [0x3E] := fun d => by simp [xml]
  have hend : Nets xml (-1) [0x3C, 0x2F] := fun d => by simp [xml, Int.sub_eq_add_neg]
  induction h with
  | elem htag has _ ih =>
    have h := (xml_start htag).append ((xml_attrs has).append (hgt.append (ih.append
      (hend.append ((xml_name htag).append hgt)))))
    simpa using h
  | contentNil h => exact xml_data h
  | contentCons h _ _ ihe ihc => exact (xml_data h).append (ihe.append ihc)

end Procenv.Text.Depth
