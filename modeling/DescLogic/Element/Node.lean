import DescLogic.Element.Operator
import DescLogic.Text.Joined
import DescLogic.Vocabulary
/-!
# Nodes

A `Node χ c` is an operator of category `c` with arguments that fit its signature. Predicates,
constants and positions stand in it as they are, and `χ d` is what stands in the place of an
element of category `d`: a handle in a store of elements, a denotation, a summary, and so on.

`Node.summary` computes what is known of an element from what is known of its operands: its text,
complexity, staticness and score.
-/

namespace DescLogic

/-- Arguments that fit a signature, with `χ d` in the place of an element of category `d`. -/
inductive Args (χ : Category → Type) : List Parameter → Type where
  /-- No argument. -/
  | nil : Args χ []
  /-- A predicate, then the rest. -/
  | predicate {ps : List Parameter} (p : Predicate) (rest : Args χ ps) : Args χ (.predicate :: ps)
  /-- A constant, then the rest. -/
  | constant {ps : List Parameter} (k : Constant) (rest : Args χ ps) : Args χ (.constant :: ps)
  /-- A position, then the rest. -/
  | position {ps : List Parameter} (i : Nat) (rest : Args χ ps) : Args χ (.position :: ps)
  /-- An element, then the rest. -/
  | element {ps : List Parameter} {c : Category} (x : χ c) (rest : Args χ ps) :
      Args χ (.element c :: ps)

/-- An operator with arguments. -/
structure Node (χ : Category → Type) (c : Category) where
  /-- The operator. -/
  operator : Operator c
  /-- The arguments it is applied to. -/
  args : Args χ operator.signature

/-- What is known of an element from its construction alone. -/
structure Summary where
  /-- The description, in its canonical form. -/
  text : String
  /-- The number of nodes. -/
  complexity : Nat
  /-- Does the element denote the same in all states of an instance? -/
  isStatic : Bool
  /-- The sum of the operators' costs. -/
  score : Nat
deriving DecidableEq, Repr

namespace Args

variable {χ ψ : Category → Type} {ps : List Parameter}

/-- Replaces the elements, from left to right. -/
def mapM {m : Type → Type} [Monad m] (f : {c : Category} → χ c → m (ψ c)) :
    {ps : List Parameter} → Args χ ps → m (Args ψ ps)
  | _, nil => pure nil
  | _, predicate p rest => do return predicate p (← rest.mapM f)
  | _, constant k rest => do return constant k (← rest.mapM f)
  | _, position i rest => do return position i (← rest.mapM f)
  | _, element x rest => do
    let y ← f x
    return element y (← rest.mapM f)

/-- Replaces the elements. -/
def map (f : {c : Category} → χ c → ψ c) : {ps : List Parameter} → Args χ ps → Args ψ ps
  | _, nil => nil
  | _, predicate p rest => predicate p (rest.map f)
  | _, constant k rest => constant k (rest.map f)
  | _, position i rest => position i (rest.map f)
  | _, element x rest => element (f x) (rest.map f)

/-- The values of the elements, from left to right. -/
def elements {α : Type} (f : {c : Category} → χ c → α) : {ps : List Parameter} → Args χ ps → List α
  | _, nil => []
  | _, predicate _ rest | _, constant _ rest | _, position _ rest => rest.elements f
  | _, element x rest => f x :: rest.elements f

/-- The written forms of the arguments, with `text x` for an element. -/
def texts (text : {c : Category} → χ c → String) : {ps : List Parameter} → Args χ ps → List String
  | _, nil => []
  | _, predicate p rest => p.name :: rest.texts text
  | _, constant k rest => k.name :: rest.texts text
  | _, position i rest => toString i :: rest.texts text
  | _, element x rest => text x :: rest.texts text

/-- Are all predicates among the arguments static? -/
def predicatesStatic : {ps : List Parameter} → Args χ ps → Bool
  | _, nil => true
  | _, predicate p rest => p.isStatic && rest.predicatesStatic
  | _, constant _ rest | _, position _ rest | _, element _ rest => rest.predicatesStatic

/-- Refuses the first predicate or constant that is no entry of the vocabulary. -/
def checkNames (v : Vocabulary) : {ps : List Parameter} → Args χ ps → Except Error Unit
  | _, nil => .ok ()
  | _, predicate p rest =>
    if v.ownsPredicate p then rest.checkNames v else .error (.foreignPredicate p.text)
  | _, constant k rest =>
    if v.ownsConstant k then rest.checkNames v else .error (.foreignConstant k.name)
  | _, position _ rest | _, element _ rest => rest.checkNames v

end Args

namespace Node

variable {χ : Category → Type} {c : Category}

/-- Refuses a position that is not below the arity of the predicate. -/
def checkPosition (p : Predicate) (i : Nat) : Except Error Unit :=
  if i < p.arity then .ok () else .error (.positionOutOfRange i p.text)

/-- Refuses positions outside the predicate or the pair that they point into, and predicates with
arguments where there is no place for them. -/
def checkPositions : {c : Category} → Node χ c → Except Error Unit
  | _, ⟨.primitiveConcept, .predicate p (.position i .nil)⟩ => checkPosition p i
  | _, ⟨.primitiveRole, .predicate p (.position i (.position j .nil))⟩ => do
    checkPosition p i
    checkPosition p j
  | _, ⟨.nullary, .predicate p .nil⟩ =>
    if p.arity = 0 then .ok () else .error (.notNullary p.text)
  | _, ⟨.projection, .element _ (.position i .nil)⟩ =>
    if i ≤ 1 then .ok () else .error (.projectionPosition i)
  | _, _ => .ok ()

/-- Two operands, the lesser one first. -/
def inOrder (le : χ c → χ c → Bool) (x y : χ c) : Args χ [.element c, .element c] :=
  if le x y then .element x (.element y .nil) else .element y (.element x .nil)

/-- The node with its two operands in order if the operator is commutative. -/
def sorted (le : {d : Category} → χ d → χ d → Bool) : {c : Category} → Node χ c → Node χ c
  | _, ⟨.andConcept, .element x (.element y .nil)⟩ => ⟨.andConcept, inOrder le x y⟩
  | _, ⟨.orConcept, .element x (.element y .nil)⟩ => ⟨.orConcept, inOrder le x y⟩
  | _, ⟨.equalConcept, .element x (.element y .nil)⟩ => ⟨.equalConcept, inOrder le x y⟩
  | _, ⟨.andRole, .element x (.element y .nil)⟩ => ⟨.andRole, inOrder le x y⟩
  | _, ⟨.orRole, .element x (.element y .nil)⟩ => ⟨.orRole, inOrder le x y⟩
  | _, n => n

/-- The written form: the keyword applied to the written forms of the arguments. -/
def text (textOf : {d : Category} → χ d → String) (n : Node χ c) : String :=
  Text.applied n.operator.keyword (n.args.texts textOf)

/-- What is known of an element whose operands are known as `infoOf` says. Complexity and score add
up over the operands; an element is static if all its operands and predicates are. -/
def summary (infoOf : {d : Category} → χ d → Summary) (n : Node χ c) : Summary :=
  let infos := n.args.elements infoOf
  { text := n.text fun x => (infoOf x).text
    complexity := infos.foldr (fun s n => s.complexity + n) 1
    isStatic := n.args.predicatesStatic && infos.all Summary.isStatic
    score := infos.foldr (fun s n => s.score + n) n.operator.cost }

end Node

end DescLogic
