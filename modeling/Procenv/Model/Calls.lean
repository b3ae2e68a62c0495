import Procenv.Model.Output

/-!
# Call trees

What a display routine does to the document, as a tree: `Calls` is a sequence of
entries and groups, a group being a section, a container or an object with the
calls made between its opening and its closing. `Calls.events` is the sequence of
calls in program order.

The grammar of JSON documents is `Calls.fits .json false`: members are entries,
sections of members and containers of objects, and objects hold members. In the
other formats objects are invisible, and `Calls.fits` rules them out; object calls
in between are treated by erasing them (`Event.isObject`).
-/

namespace Procenv

/-- What opens and closes around calls. -/
inductive Group
  | sect (name : MbStr)
  | cont (name : MbStr)
  | object
deriving DecidableEq, Repr

namespace Group

/-- The call that opens a group. -/
def opening : Group → Event
  | sect name => .sectionOpen name
  | cont name => .containerOpen name
  | object => .objectOpen false

/-- The call that closes a group. -/
def closing : Group → Event
  | sect _ => .sectionClose
  | cont _ => .containerClose
  | object => .objectClose false

/-- The element of the opening. -/
def openElement : Group → ElementType
  | sect _ => .sectionOpen
  | cont _ => .containerOpen
  | object => .objectOpen

/-- The element of the closing. -/
def closeElement : Group → ElementType
  | sect _ => .sectionClose
  | cont _ => .containerClose
  | object => .objectClose

/-- The name of a group. -/
def name : Group → MbStr
  | sect name | cont name => name
  | object => []

def isObject : Group → Bool
  | object => true
  | _ => false

/-- Whether the group is a JSON array, holding objects only. -/
def isArray (fmt : OutputFormat) : Group → Bool
  | cont _ => fmt = .json
  | _ => false

end Group

/-- A sequence of call trees. -/
inductive Calls
  | nil
  | entry (name : MbStr) (value : WStr) (next : Calls)
  | group (g : Group) (kids next : Calls)
deriving DecidableEq, Repr

namespace Calls

/-- The calls in program order. -/
def events : Calls → List Event
  | nil => []
  | entry name value next => .entry name value :: next.events
  | group g kids next => g.opening :: (kids.events ++ g.closing :: next.events)

/-- One sequence after the other. -/
def append : Calls → Calls → Calls
  | nil, d => d
  | entry name value next, d => entry name value (next.append d)
  | group g kids next, d => group g kids (next.append d)

/-- The trees that a format's documents are made of; `array` says whether the sequence is
the content of a JSON array. -/
def fits (fmt : OutputFormat) : (array : Bool) → Calls → Bool
  | _, nil => true
  | array, entry _ _ next => !array && fits fmt array next
  | array, group g kids next =>
    g.isObject == array && fits fmt (g.isArray fmt) kids && fits fmt array next

/-- Whether there is an entry outside all groups. -/
def bareEntry : Calls → Bool
  | nil => false
  | entry _ _ _ => true
  | group _ _ next => next.bareEntry

end Calls

/-- An object call. -/
def Event.isObject : Event → Bool
  | .objectOpen _ | .objectClose _ => true
  | _ => false

/-- The calls without the object calls. -/
def eraseObjects (es : List Event) : List Event := es.filter fun e => !e.isObject

theorem Calls.events_append (c d : Calls) : (c.append d).events = c.events ++ d.events := by
  induction c with
  | nil => rfl
  | entry name value next ih => simp [append, events, ih]
  | group g kids next _ ih => simp [append, events, ih]

theorem Calls.fits_append {fmt : OutputFormat} {array : Bool} {c d : Calls}
    (hc : c.fits fmt array) (hd : d.fits fmt array) : (c.append d).fits fmt array := by
  induction c with
  | nil => exact hd
  | entry name value next ih =>
    simp only [fits, Bool.and_eq_true] at hc
    simp [append, fits, hc.1, ih hc.2]
  | group g kids next _ ih =>
    simp only [fits, Bool.and_eq_true] at hc
    simp [append, fits, hc.1.1, hc.1.2, ih hc.2]

end Procenv
