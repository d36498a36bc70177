import DescLogic.NatSet
/-!
# Sets of objects

A concept denotes a set of objects. The objects of an instance with `n` objects are the numbers
below `n`, and the set keeps `n` beside its members.

* `ObjectSet.contains_tabulate`: the objects of a tabulated set are those that satisfy the
  predicate.
-/

namespace DescLogic

/-- A set of objects among the numbers below `objectCount`. -/
structure ObjectSet where
  /-- The number of objects there are. -/
  objectCount : Nat
  /-- The members. -/
  objects : NatSet
deriving DecidableEq, Hashable, Repr

namespace ObjectSet

/-- No object. -/
def empty (n : Nat) : ObjectSet := ⟨n, ∅⟩

/-- Every object. -/
def full (n : Nat) : ObjectSet := ⟨n, NatSet.full n⟩

/-- The listed objects. -/
def ofList (n : Nat) (objects : List Nat) : ObjectSet := ⟨n, NatSet.ofList objects⟩

/-- The objects that satisfy `p`. -/
def tabulate (n : Nat) (p : Nat → Bool) : ObjectSet := ⟨n, NatSet.tabulate n p⟩

/-- Is the object a member? -/
def contains (d : ObjectSet) (a : Nat) : Bool := d.objects.contains a

/-- Adds an object. -/
def insert (d : ObjectSet) (a : Nat) : ObjectSet :=
  { d with objects := d.objects.insert a }

/-- Removes an object. -/
def erase (d : ObjectSet) (a : Nat) : ObjectSet :=
  { d with objects := d.objects.erase a }

/-- The members of either set. -/
def union (d e : ObjectSet) : ObjectSet :=
  { d with objects := d.objects.union e.objects }

/-- The members of both sets. -/
def inter (d e : ObjectSet) : ObjectSet :=
  { d with objects := d.objects.inter e.objects }

/-- The members of `d` that are not in `e`. -/
def diff (d e : ObjectSet) : ObjectSet :=
  { d with objects := d.objects.diff e.objects }

/-- The objects that are not members. -/
def complement (d : ObjectSet) : ObjectSet :=
  { d with objects := d.objects.complement d.objectCount }

/-- Has the set no member? -/
def isEmpty (d : ObjectSet) : Bool := d.objects.isEmpty

/-- Is every member of `d` in `e`? -/
def isSubset (d e : ObjectSet) : Bool := d.objects.isSubset e.objects

/-- Do the sets share a member? -/
def intersects (d e : ObjectSet) : Bool := d.objects.intersects e.objects

/-- The members in increasing order. -/
def toList (d : ObjectSet) : List Nat := d.objects.toList

/-- The number of members. -/
def size (d : ObjectSet) : Nat := d.objects.size

/-- The members in braces. -/
def text (d : ObjectSet) : String := d.objects.text

instance : ToString ObjectSet where
  toString := text

/-- The members and the number of objects, under the name of the type. -/
def longText (d : ObjectSet) : String := s!"ConceptDenotation({d.text}/{d.objectCount})"

@[simp] theorem contains_tabulate {n a : Nat} {p : Nat → Bool} :
    (tabulate n p).contains a = (decide (a < n) && p a) :=
  NatSet.contains_tabulate

end ObjectSet

end DescLogic
