import DescLogic.Error
/-!
# Vocabularies

A `Vocabulary` names the predicates and constants that elements speak of. Names are unique among
the predicates and among the constants, and an entry's index is its place in the order of
registration.

A vocabulary has an identity besides its content: two vocabularies with equal content and
different identities do not stand for each other.
-/

namespace DescLogic

/-- A predicate of a vocabulary. -/
structure Predicate where
  /-- The name. -/
  name : String
  /-- The number of arguments. -/
  arity : Nat
  /-- Do the atoms of the predicate hold in every state or in none? -/
  isStatic : Bool
  /-- The place in the vocabulary. -/
  index : Nat
deriving DecidableEq, Repr

/-- The predicate's name and arity, as in `on/2`. -/
def Predicate.text (p : Predicate) : String := s!"{p.name}/{p.arity}"

instance : ToString Predicate where
  toString := Predicate.text

/-- A constant of a vocabulary, which names an object in every instance. -/
structure Constant where
  /-- The name. -/
  name : String
  /-- The place in the vocabulary. -/
  index : Nat
deriving DecidableEq, Repr

instance : ToString Constant where
  toString := Constant.name

/-- The predicates and constants that elements speak of. -/
structure Vocabulary where
  /-- The identity. Vocabularies are the same only if their identities are. -/
  id : Nat
  /-- The predicates in order of registration. -/
  predicates : Array Predicate
  /-- The constants in order of registration. -/
  constants : Array Constant
deriving DecidableEq, Repr

namespace Vocabulary

/-- The vocabulary without entries. -/
def empty (id : Nat) : Vocabulary := ⟨id, #[], #[]⟩

/-- The predicate with this name. -/
def predicate? (v : Vocabulary) (name : String) : Option Predicate :=
  v.predicates.find? fun p => p.name == name

/-- The constant with this name. -/
def constant? (v : Vocabulary) (name : String) : Option Constant :=
  v.constants.find? fun k => k.name == name

/-- The predicate with this name; an unknown name is an error. -/
def predicate (v : Vocabulary) (name : String) : Except Error Predicate :=
  match v.predicate? name with
  | some p => .ok p
  | none => .error (.unknownPredicate name)

/-- The constant with this name; an unknown name is an error. -/
def constant (v : Vocabulary) (name : String) : Except Error Constant :=
  match v.constant? name with
  | some k => .ok k
  | none => .error (.unknownConstant name)

/-- Registers a predicate under a name that is not taken. -/
def addPredicate (v : Vocabulary) (name : String) (arity : Nat) (isStatic : Bool) :
    Except Error (Predicate × Vocabulary) :=
  match v.predicate? name with
  | some _ => .error (.duplicatePredicate name)
  | none =>
    let p : Predicate := ⟨name, arity, isStatic, v.predicates.size⟩
    .ok (p, { v with predicates := v.predicates.push p })

/-- Registers a constant under a name that is not taken. -/
def addConstant (v : Vocabulary) (name : String) : Except Error (Constant × Vocabulary) :=
  match v.constant? name with
  | some _ => .error (.duplicateConstant name)
  | none =>
    let k : Constant := ⟨name, v.constants.size⟩
    .ok (k, { v with constants := v.constants.push k })

/-- Is `p`, in all its fields, the entry at its index? -/
def ownsPredicate (v : Vocabulary) (p : Predicate) : Bool := v.predicates[p.index]? == some p

/-- Is `k`, in all its fields, the entry at its index? -/
def ownsConstant (v : Vocabulary) (k : Constant) : Bool := v.constants[k.index]? == some k

end Vocabulary

end DescLogic
