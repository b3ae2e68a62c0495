import Procenv.Text.Basic

/-!
# Wide strings, the locale and the ways a run stops

`wchar_t` is a code point, a wide string the list of its characters before the
terminator, a `char *` the list of its bytes. The locale is the part of the C
library that the program asks: how a multibyte string decodes (`mbsrtowcs`) and
which wide characters print (`iswprint`).
-/

namespace Procenv

open Text

/-- `wchar_t`. -/
abbrev WChar := CodePoint

/-- A wide string, without its terminator. -/
abbrev WStr := List WChar

/-- A multibyte string (`char *`), without its terminator. -/
abbrev MbStr := List UInt8

/-- The bytes of an ASCII literal. -/
def bytes (s : String) : MbStr := s.toList.map fun c => UInt8.ofNat c.toNat

/-- What the program asks of the locale. -/
structure Locale where
  /-- `mbsrtowcs`: the decoding, `none` for `(size_t)-1`. -/
  mbsrtowcs : MbStr → Option WStr
  /-- `iswprint`. -/
  iswprint : WChar → Bool

/-- The POSIX locale: ASCII, with the printable characters `0x20` to `0x7e`. -/
def posixLocale : Locale where
  mbsrtowcs s := if s.all (· < 0x80) then some (s.map fun b => Fin.ofNat _ b.toNat) else none
  iswprint c := 0x20 ≤ c.val && c.val ≤ 0x7e

/-- The POSIX locale decodes different texts differently. -/
theorem posixLocale_injective {s t : MbStr} {w : WStr} (hs : posixLocale.mbsrtowcs s = some w)
    (ht : posixLocale.mbsrtowcs t = some w) : s = t := by
  have hchar : Function.Injective fun b : UInt8 => (Fin.ofNat 0x110000 b.toNat : WChar) := by
    intro b c h
    have hb := b.toNat_lt
    have hc := c.toNat_lt
    have hval : b.toNat % 0x110000 = c.toNat % 0x110000 := congrArg Fin.val h
    exact UInt8.toNat_inj.1 (by omega)
  simp only [posixLocale, Option.ite_none_right_eq_some, Option.some.injEq] at hs ht
  exact List.map_injective_iff.2 hchar (hs.2.trans ht.2.symm)

/-- `char_to_wchar`: a string that does not decode, and the empty string, give `NULL`. -/
def charToWchar (loc : Locale) (str : MbStr) : Option WStr :=
  match loc.mbsrtowcs str with
  | none => none
  | some [] => none
  | some w => some w

/-- How a run stops before its end. -/
inductive Halt
  /-- `die`: the format and its string arguments. -/
  | die (fmt : String) (args : List MbStr)
  /-- `assert_not_reached` in the named function. -/
  | notReached (fn : String)
  /-- A failing `assert` in the named function. -/
  | assertFailed (fn : String)
  /-- `wappendva` asking forever for a larger buffer: an argument does not convert. -/
  | hang
  /-- An access outside a buffer. -/
  | outOfBounds (fn : String)
deriving DecidableEq, Repr

/-- The expansion of a `%s` argument by `vswprintf`, as `wappendva` gets it. -/
def expandStr (loc : Locale) (str : MbStr) : Except Halt WStr :=
  match loc.mbsrtowcs str with
  | none => .error .hang
  | some w => .ok w

end Procenv
