import DescLogic.Element.Node
import Std.Data.HashMap
/-!
# Tables of elements

A `Table c` holds elements of category `c` in order of insertion and finds them again by their
text. A `Handle c` is a place in such a table, and the operands of a stored node are handles.

Places are natural numbers here. A table that keeps them in 32 bits does the same as long as it
holds at most `2 ^ 32` elements: the place of a further one would wrap around to an earlier one.
-/

namespace DescLogic

/-- A place in the table of category `c`. -/
structure Handle (c : Category) where
  /-- The place, counted from zero. -/
  index : Nat
deriving DecidableEq, Hashable, Repr

/-- The category and the place, as in `concept#3`. -/
def Handle.text {c : Category} (h : Handle c) : String := s!"{c}#{h.index}"

instance {c : Category} : ToString (Handle c) where
  toString := Handle.text

/-- A handle of any category. -/
abbrev AnyHandle := (c : Category) × Handle c

/-- A stored element. -/
structure Entry (c : Category) where
  /-- How the element is formed. -/
  node : Node Handle c
  /-- What is known of it. -/
  summary : Summary

/-- The elements of one category, each text at most once. There are assumed to be at most `2 ^ 32`,
so that the places fit into 32 bits. -/
structure Table (c : Category) where
  /-- The elements in order of insertion. -/
  entries : Array (Entry c)
  /-- The place of each text. -/
  indices : Std.HashMap String Nat

namespace Table

variable {c : Category}

/-- The table without elements. -/
def empty : Table c := ⟨#[], ∅⟩

/-- The number of elements. -/
def size (t : Table c) : Nat := t.entries.size

/-- The element at a handle. -/
def get? (t : Table c) (h : Handle c) : Option (Entry c) := t.entries[h.index]?

/-- The element with this text. -/
def find? (t : Table c) (text : String) : Option (Handle c) := t.indices[text]?.map Handle.mk

/-- Appends an element whose text is new. -/
def push (t : Table c) (e : Entry c) : Table c :=
  let place := t.entries.size
  ⟨t.entries.push e, t.indices.insert e.summary.text place⟩

end Table

end DescLogic
