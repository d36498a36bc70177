import DescLogic.Instance
import DescLogic.NatSet
/-!
# States

A `State` says which atoms of an instance hold. The static atoms hold in every state of the
instance, so a state stores only the others, once each and in increasing order.

A state has an identity, by which what was computed for it is found again. `FreshM` hands out
identities in order, and a construction that fails takes none.
-/

namespace DescLogic

/-- The atoms of an instance that hold. -/
structure State where
  /-- The identity. States with one identity hold the same atoms of the same instance. -/
  id : Nat
  /-- The instance whose atoms hold or do not. -/
  problem : Instance
  /-- The indices of the atoms that hold and are not static, in increasing order. -/
  atoms : List Nat
deriving DecidableEq, Repr

/-- Computations that may fail and that draw identities from a counter. -/
abbrev FreshM := StateT Nat (Except Error)

namespace State

/-- The indices among `indices` whose atoms are not static; an index without an atom is an
error. -/
def dynamicAtoms (i : Instance) : List Nat → Except Error (List Nat)
  | [] => .ok []
  | index :: indices =>
    match i.atoms[index]? with
    | none => .error (.unknownAtomIndex index i.atoms.size)
    | some atom => do
      let rest ← dynamicAtoms i indices
      return if atom.isStatic then rest else index :: rest

/-- The state in which the atoms with these indices hold, and the static ones. -/
def ofIndices (i : Instance) (indices : List Nat) : FreshM State := do
  let atoms ← dynamicAtoms i indices
  let id ← modifyGet fun next => (next, next + 1)
  return ⟨id, i, (NatSet.ofList atoms).toList⟩

/-- The index of the atom with this name; an unknown name is an error. -/
def atomNamed (i : Instance) (name : String) : Except Error Nat :=
  match i.atomIndex? name with
  | some index => .ok index
  | none => .error (.unknownAtom name)

/-- The state in which the atoms with these names hold, and the static ones. -/
def ofNames (i : Instance) (names : List String) : FreshM State := do
  let indices : List Nat ← (names.mapM (atomNamed i) : Except Error (List Nat))
  ofIndices i indices

/-- The number of objects of the instance. -/
def objectCount (s : State) : Nat := s.problem.objectCount

/-- The vocabulary of the instance. -/
def vocabulary (s : State) : Vocabulary := s.problem.vocabulary

/-- Every atom that holds: the stored ones, then the static ones. -/
def trueAtoms (s : State) : List Atom :=
  s.atoms.filterMap (s.problem.atoms[·]?) ++ s.problem.staticAtoms

/-- The names of the stored atoms in braces. -/
def text (s : State) : String :=
  let names := (s.atoms.filterMap (s.problem.atoms[·]?)).map Atom.name
  "\x7b" ++ Text.joined ", " names ++ "\x7d"

instance : ToString State where
  toString := text

end State

end DescLogic
