import DescLogic.Text.Joined
import DescLogic.Vocabulary
/-!
# Instances

An `Instance` registers the objects and the ground atoms of one planning problem over a
vocabulary. Every constant of the vocabulary is an object from the start, in the same order. An
object's index and an atom's index are their places in the order of registration.

An atom is known by its name, the predicate applied to the names of the objects. It is static if
it was registered as static or if its predicate is.

Here names are searched for. `Registry` makes the same registrations and keeps the places of the
names.
-/

namespace DescLogic

/-- A ground atom of an instance. -/
structure Atom where
  /-- The predicate applied to the names of the objects, as in `on(a,b)`. -/
  name : String
  /-- The index of the predicate. -/
  predicate : Nat
  /-- The indices of the objects. -/
  objects : List Nat
  /-- Does the atom hold in every state? -/
  isStatic : Bool
  /-- The place in the instance. -/
  index : Nat
deriving DecidableEq, Repr

instance : ToString Atom where
  toString := Atom.name

/-- The name of the atom of a predicate over some objects: the bare predicate if there are none. -/
def atomName (predicate : String) (objects : List String) : String :=
  Text.applied predicate objects

/-- The objects and ground atoms of a planning problem. -/
structure Instance where
  /-- The vocabulary of the atoms. -/
  vocabulary : Vocabulary
  /-- The names of the objects in order of registration. -/
  objects : Array String
  /-- The atoms in order of registration. -/
  atoms : Array Atom
deriving DecidableEq, Repr

namespace Instance

/-- The instance whose objects are the constants of the vocabulary. -/
def ofVocabulary (v : Vocabulary) : Instance := ⟨v, v.constants.map Constant.name, #[]⟩

/-- The number of objects. -/
def objectCount (i : Instance) : Nat := i.objects.size

/-- The index of the object with this name. -/
def objectIndex? (i : Instance) (name : String) : Option Nat :=
  i.objects.findIdx? (· == name)

/-- The index of the atom with this name. -/
def atomIndex? (i : Instance) (name : String) : Option Nat :=
  i.atoms.findIdx? fun a => a.name == name

/-- The static atoms in increasing order of index. -/
def staticAtoms (i : Instance) : List Atom := i.atoms.toList.filter Atom.isStatic

/-- Registers an object under a name that is not taken, and returns its index. -/
def addObject (i : Instance) (name : String) : Except Error (Nat × Instance) :=
  match i.objectIndex? name with
  | some _ => .error (.duplicateObject name)
  | none => .ok (i.objects.size, { i with objects := i.objects.push name })

/-- The index of the object with this name, which is registered if it is new. -/
def resolveObject (i : Instance) (name : String) : Nat × Instance :=
  match i.objectIndex? name with
  | some index => (index, i)
  | none => (i.objects.size, { i with objects := i.objects.push name })

/-- The indices of the objects with these names; new ones are registered from left to right. -/
def resolveObjects (i : Instance) : List String → List Nat × Instance
  | [] => ([], i)
  | name :: names =>
    let (index, i) := i.resolveObject name
    let (indices, i) := i.resolveObjects names
    (index :: indices, i)

/-- Registers the atom of a predicate over the named objects. Everything is checked before
anything is registered. -/
def addAtom (i : Instance) (predicate : String) (objects : List String) (isStatic : Bool) :
    Except Error (Atom × Instance) := do
  let p ← i.vocabulary.predicate predicate
  if p.arity ≠ objects.length then
    throw (.atomArity p.text p.arity objects.length)
  let name := atomName predicate objects
  if (i.atomIndex? name).isSome then
    throw (.duplicateAtom name)
  let (indices, i) := i.resolveObjects objects
  let atom : Atom := ⟨name, p.index, indices, isStatic || p.isStatic, i.atoms.size⟩
  return (atom, { i with atoms := i.atoms.push atom })

end Instance

end DescLogic
