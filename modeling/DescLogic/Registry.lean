import DescLogic.Instance
import Std.Data.HashMap
/-!
# Registries

A `Registry` is what an instance is filled through. Beside the objects and the atoms it keeps the
places of their names and a list of the static atoms, so that neither is searched for.
`Registry.toInstance` is the instance as states and evaluations see it.

* `RegisterM.addObject`: registers an object.
* `RegisterM.addAtom`, `RegisterM.addStaticAtom`: register an atom and the objects that it names for
  the first time.
* `Registration`: one call of these.
-/

namespace DescLogic

/-- An object of an instance. -/
structure Object where
  /-- The name. -/
  name : String
  /-- The place in the instance. -/
  index : Nat
deriving DecidableEq, Repr

/-- The objects and ground atoms registered so far. -/
structure Registry where
  /-- The vocabulary of the atoms. -/
  vocabulary : Vocabulary
  /-- The objects in order of registration. -/
  objects : Array Object
  /-- The place of each object's name. -/
  objectIndices : Std.HashMap String Nat
  /-- The atoms in order of registration. -/
  atoms : Array Atom
  /-- The place of each atom's name. -/
  atomIndices : Std.HashMap String Nat
  /-- The indices of the static atoms. -/
  staticIndices : Array Nat

namespace Registry

/-- The number of objects. -/
def objectCount (r : Registry) : Nat := r.objects.size

/-- The index of the object with this name. -/
def objectIndex? (r : Registry) (name : String) : Option Nat := r.objectIndices[name]?

/-- The index of the atom with this name. -/
def atomIndex? (r : Registry) (name : String) : Option Nat := r.atomIndices[name]?

/-- Appends an object whose name is new. -/
def insertObject (r : Registry) (name : String) : Object × Registry :=
  let o : Object := ⟨name, r.objects.size⟩
  (o, { r with
    objects := r.objects.push o
    objectIndices := r.objectIndices.insert name o.index })

/-- The index of the object with this name, which is appended if it is new. -/
def resolveObject (r : Registry) (name : String) : Nat × Registry :=
  match r.objectIndex? name with
  | some index => (index, r)
  | none => ((r.insertObject name).1.index, (r.insertObject name).2)

/-- Appends an atom whose name is new. -/
def insertAtom (r : Registry) (name : String) (predicate : Nat) (objects : List Nat)
    (isStatic : Bool) : Atom × Registry :=
  let a : Atom := ⟨name, predicate, objects, isStatic, r.atoms.size⟩
  (a, { r with
    atoms := r.atoms.push a
    atomIndices := r.atomIndices.insert name a.index
    staticIndices := if isStatic then r.staticIndices.push a.index else r.staticIndices })

/-- The predicate of an atom that may be registered: it has as many arguments as there are objects,
and the atom's name is not taken. -/
def checkAtom (r : Registry) (predicate : String) (objects : List String) :
    Except Error Predicate := do
  let p ← r.vocabulary.predicate predicate
  if p.arity ≠ objects.length then
    throw (.atomArity p.text p.arity objects.length)
  let name := atomName predicate objects
  if (r.atomIndex? name).isSome then
    throw (.duplicateAtom name)
  return p

/-- The registry without objects or atoms. -/
def empty (v : Vocabulary) : Registry := ⟨v, #[], ∅, #[], ∅, #[]⟩

/-- The registry whose objects are the constants of the vocabulary. -/
def ofVocabulary (v : Vocabulary) : Registry :=
  v.constants.foldl (fun r k => (r.insertObject k.name).2) (empty v)

/-- The instance with these objects and atoms. -/
def toInstance (r : Registry) : Instance := ⟨r.vocabulary, r.objects.map Object.name, r.atoms⟩

end Registry

/-- Computations that may fail and that register; what they registered before failing stays. -/
abbrev RegisterM := ExceptT Error (StateM Registry)

namespace RegisterM

/-- Registers an object under a name that is not taken. -/
def addObject (name : String) : RegisterM Object := do
  if ((← get).objectIndex? name).isSome then
    throw (.duplicateObject name)
  modifyGet fun r => r.insertObject name

/-- The indices of the objects with these names; new ones are registered from left to right. -/
def resolveObjects (names : List String) : RegisterM (List Nat) :=
  names.mapM fun name => modifyGet fun r => r.resolveObject name

/-- Registers the atom of a predicate over the named objects, as a static one if `isStatic` says so
or the predicate is static. Everything is checked before anything is registered. -/
def addAtomAs (isStatic : Bool) (predicate : String) (objects : List String) :
    RegisterM Atom := do
  let p ← ((← get).checkAtom predicate objects : Except Error Predicate)
  let indices ← resolveObjects objects
  modifyGet fun r =>
    r.insertAtom (atomName predicate objects) p.index indices (isStatic || p.isStatic)

/-- Registers an atom, which is static if its predicate is. -/
def addAtom (predicate : String) (objects : List String) : RegisterM Atom :=
  addAtomAs false predicate objects

/-- Registers an atom that holds in every state. -/
def addStaticAtom (predicate : String) (objects : List String) : RegisterM Atom :=
  addAtomAs true predicate objects

end RegisterM

/-- A call that registers something. -/
inductive Registration where
  /-- Of an object. -/
  | object (name : String)
  /-- Of an atom. -/
  | atom (predicate : String) (objects : List String)
  /-- Of an atom that holds in every state. -/
  | staticAtom (predicate : String) (objects : List String)
deriving DecidableEq, Repr

/-- Makes the call. It returns the object or the atom that it registered. -/
def Registration.perform : Registration → RegisterM (Object ⊕ Atom)
  | .object name => return .inl (← RegisterM.addObject name)
  | .atom predicate objects => return .inr (← RegisterM.addAtom predicate objects)
  | .staticAtom predicate objects => return .inr (← RegisterM.addStaticAtom predicate objects)

end DescLogic
