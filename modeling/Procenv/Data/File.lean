import Mathlib.Data.List.Basic
import Mathlib.Tactic.Common

/-!
# Files and descriptors

The content of a file is its bytes, `none` if there is no file. A descriptor has the offset
of its next write, or writes at the end of the file.

* `write_over`: a write inside the file or at its end.
* `writeAll_over`, `writeAll_append`: what a sequence of writes leaves.
-/

namespace Procenv.Data

/-- What `open` is asked to do beside opening. -/
structure OpenFlags where
  create : Bool
  append : Bool
  truncate : Bool

/-- An open file. -/
structure Descriptor where
  append : Bool
  offset : Nat
deriving DecidableEq, Repr

/-- `open` for writing: the content afterwards, and the descriptor. -/
def openFile (flags : OpenFlags) : Option (List UInt8) → Option (List UInt8 × Descriptor)
  | none => if flags.create then some ([], ⟨flags.append, 0⟩) else none
  | some content => some (if flags.truncate then [] else content, ⟨flags.append, 0⟩)

/-- `write` of all bytes: over what there is from the offset on, a gap before it being zeros. -/
def writeFile (d : Descriptor) (content bytes : List UInt8) : List UInt8 × Descriptor :=
  let offset := if d.append then content.length else d.offset
  (content.take offset ++ List.replicate (offset - content.length) 0 ++ bytes ++
    content.drop (offset + bytes.length),
    { d with offset := offset + bytes.length })

/-- Successive writes. -/
def writeAll (d : Descriptor) (content : List UInt8) (strs : List (List UInt8)) : List UInt8 × Descriptor :=
  strs.foldl (fun s bytes => writeFile s.2 s.1 bytes) (content, d)

variable {d : Descriptor} {done rest bytes content : List UInt8}

/-- A write behind what was written before. -/
theorem write_over (hd : d.append = false) (hoffset : d.offset = done.length) :
    writeFile d (done ++ rest) bytes =
      (done ++ bytes ++ rest.drop bytes.length, ⟨false, (done ++ bytes).length⟩) := by
  obtain ⟨append, offset⟩ := d
  obtain rfl : append = false := hd
  obtain rfl : offset = done.length := hoffset
  simp [writeFile, List.drop_append]

/-- Writes at the offset go over the old content. -/
theorem writeAll_over (hd : d.append = false) (hoffset : d.offset = done.length) (strs : List (List UInt8)) :
    (writeAll d (done ++ rest) strs).1 = done ++ strs.flatten ++ rest.drop strs.flatten.length := by
  induction strs generalizing d done rest with
  | nil => simp [writeAll]
  | cons bytes strs ih =>
    rw [writeAll, List.foldl_cons, write_over hd hoffset]
    have hrest : (writeAll ⟨false, (done ++ bytes).length⟩ (done ++ bytes ++ rest.drop bytes.length) strs).1 =
        done ++ bytes ++ strs.flatten ++ (rest.drop bytes.length).drop strs.flatten.length := ih rfl rfl
    rw [writeAll] at hrest
    rw [hrest, List.flatten_cons, List.length_append, List.drop_drop, List.append_assoc done bytes]

/-- Writes at the end keep the old content. -/
theorem writeAll_append (hd : d.append = true) (strs : List (List UInt8)) :
    (writeAll d content strs).1 = content ++ strs.flatten := by
  induction strs generalizing d content with
  | nil => simp [writeAll]
  | cons bytes strs ih =>
    have hstep : writeFile d content bytes = (content ++ bytes, ⟨true, content.length + bytes.length⟩) := by
      obtain ⟨append, offset⟩ := d
      obtain rfl : append = true := hd
      simp [writeFile]
    rw [writeAll, List.foldl_cons, hstep]
    have hrest : (writeAll ⟨true, content.length + bytes.length⟩ (content ++ bytes) strs).1 =
        content ++ bytes ++ strs.flatten := ih rfl
    rw [writeAll] at hrest
    rw [hrest, List.flatten_cons, List.append_assoc]

end Procenv.Data
