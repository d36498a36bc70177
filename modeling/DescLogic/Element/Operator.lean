import DescLogic.Element.Rule
/-!
# Operators

An `Operator c` forms an element of category `c` from the arguments that its signature lists. Most
rules have one operator. Counting, emptiness and inclusion have two, one for concepts and one for
roles, that share their keyword.
-/

namespace DescLogic

/-- What an argument place takes. -/
inductive Parameter where
  /-- A predicate of the vocabulary. -/
  | predicate
  /-- A constant of the vocabulary. -/
  | constant
  /-- A place in an atom or in a pair. -/
  | position
  /-- An element of the category `c`. -/
  | element (c : Category)
deriving DecidableEq, Repr

/-- An operator that forms elements of a category. -/
inductive Operator : Category → Type where
  /-- The objects at a position of the true atoms of a predicate. -/
  | primitiveConcept : Operator .concept
  /-- No object. -/
  | bot : Operator .concept
  /-- Every object. -/
  | top : Operator .concept
  /-- The object that a constant names. -/
  | oneOf : Operator .concept
  /-- The objects outside a concept. -/
  | notConcept : Operator .concept
  /-- The objects of two concepts. -/
  | andConcept : Operator .concept
  /-- The objects of one of two concepts. -/
  | orConcept : Operator .concept
  /-- The objects of the first concept outside the second. -/
  | diffConcept : Operator .concept
  /-- The objects with a successor in a concept. -/
  | someConcept : Operator .concept
  /-- The objects without a successor outside a concept. -/
  | allConcept : Operator .concept
  /-- The objects whose successors in the first role are successors in the second. -/
  | subsetConcept : Operator .concept
  /-- The objects with the same successors in both roles. -/
  | equalConcept : Operator .concept
  /-- The first or the second coordinates of a role. -/
  | projection : Operator .concept
  /-- The pairs at two positions of the true atoms of a predicate. -/
  | primitiveRole : Operator .role
  /-- Every pair. -/
  | topRole : Operator .role
  /-- The pairs outside a role. -/
  | notRole : Operator .role
  /-- The pairs of two roles. -/
  | andRole : Operator .role
  /-- The pairs of one of two roles. -/
  | orRole : Operator .role
  /-- The pairs of the first role outside the second. -/
  | diffRole : Operator .role
  /-- The pairs of a role with their coordinates exchanged. -/
  | inverse : Operator .role
  /-- The pairs joined by a step of the first role and then one of the second. -/
  | compose : Operator .role
  /-- The pairs of a role whose second coordinate is in a concept. -/
  | restrict : Operator .role
  /-- The pairs `(a, a)` for the objects of a concept. -/
  | identity : Operator .role
  /-- The pairs joined by a nonempty path. -/
  | transitiveClosure : Operator .role
  /-- The pairs joined by a path. -/
  | transitiveReflexiveClosure : Operator .role
  /-- The number of objects of a concept. -/
  | conceptCount : Operator .numerical
  /-- The number of pairs of a role. -/
  | roleCount : Operator .numerical
  /-- The least distance along a role from one concept to another. -/
  | conceptDistance : Operator .numerical
  /-- The sum over a concept of the least distances along a role to another. -/
  | sumConceptDistance : Operator .numerical
  /-- The least distance along a role between successors of one object in two roles. -/
  | roleDistance : Operator .numerical
  /-- The sum over the objects of such least distances. -/
  | sumRoleDistance : Operator .numerical
  /-- Whether the atom of a predicate without arguments is true. -/
  | nullary : Operator .boolean
  /-- Whether a concept has no object. -/
  | conceptEmpty : Operator .boolean
  /-- Whether a role has no pair. -/
  | roleEmpty : Operator .boolean
  /-- Whether every object of the first concept is in the second. -/
  | conceptInclusion : Operator .boolean
  /-- Whether every pair of the first role is in the second. -/
  | roleInclusion : Operator .boolean
deriving DecidableEq, Repr

namespace Operator

variable {c : Category}

/-- All operators of a category. -/
def all : (c : Category) → List (Operator c)
  | .concept =>
    [primitiveConcept, bot, top, oneOf, notConcept, andConcept, orConcept, diffConcept,
     someConcept, allConcept, subsetConcept, equalConcept, projection]
  | .role =>
    [primitiveRole, topRole, notRole, andRole, orRole, diffRole, inverse, compose, restrict,
     identity, transitiveClosure, transitiveReflexiveClosure]
  | .numerical =>
    [conceptCount, roleCount, conceptDistance, sumConceptDistance, roleDistance, sumRoleDistance]
  | .boolean => [nullary, conceptEmpty, roleEmpty, conceptInclusion, roleInclusion]

/-- The rule that the operator carries out. -/
def rule : Operator c → Rule
  | primitiveConcept => .primitiveConcept
  | bot => .botConcept
  | top => .topConcept
  | oneOf => .oneOfConcept
  | notConcept => .notConcept
  | andConcept => .andConcept
  | orConcept => .orConcept
  | diffConcept => .diffConcept
  | someConcept => .someConcept
  | allConcept => .allConcept
  | subsetConcept => .subsetConcept
  | equalConcept => .equalConcept
  | projection => .projectionConcept
  | primitiveRole => .primitiveRole
  | topRole => .topRole
  | notRole => .notRole
  | andRole => .andRole
  | orRole => .orRole
  | diffRole => .diffRole
  | inverse => .inverseRole
  | compose => .composeRole
  | restrict => .restrictRole
  | identity => .identityRole
  | transitiveClosure => .transitiveClosureRole
  | transitiveReflexiveClosure => .transitiveReflexiveClosureRole
  | conceptCount | roleCount => .countNumerical
  | conceptDistance => .conceptDistanceNumerical
  | sumConceptDistance => .sumConceptDistanceNumerical
  | roleDistance => .roleDistanceNumerical
  | sumRoleDistance => .sumRoleDistanceNumerical
  | nullary => .nullaryBoolean
  | conceptEmpty | roleEmpty => .emptyBoolean
  | conceptInclusion | roleInclusion => .inclusionBoolean

/-- The head of the elements that the operator forms. -/
def keyword (o : Operator c) : String := o.rule.keyword

/-- What the operator takes, argument by argument. -/
def signature : Operator c → List Parameter
  | bot | top | topRole => []
  | primitiveConcept => [.predicate, .position]
  | primitiveRole => [.predicate, .position, .position]
  | nullary => [.predicate]
  | oneOf => [.constant]
  | projection => [.element .role, .position]
  | notConcept | identity | conceptCount | conceptEmpty => [.element .concept]
  | notRole | inverse | transitiveClosure | transitiveReflexiveClosure | roleCount
  | roleEmpty => [.element .role]
  | andConcept | orConcept | diffConcept | conceptInclusion =>
    [.element .concept, .element .concept]
  | someConcept | allConcept | restrict => [.element .role, .element .concept]
  | subsetConcept | equalConcept | andRole | orRole | diffRole | compose | roleInclusion =>
    [.element .role, .element .role]
  | conceptDistance | sumConceptDistance =>
    [.element .concept, .element .role, .element .concept]
  | roleDistance | sumRoleDistance => [.element .role, .element .role, .element .role]

/-- The degree, in the number of objects, of the effort to evaluate the operator: `1` is constant,
`2` linear, `3` quadratic and `4` cubic. -/
def cost : Operator c → Nat
  | bot | top | oneOf | topRole | nullary => 1
  | primitiveConcept | notConcept | andConcept | orConcept | diffConcept | primitiveRole
  | identity | conceptCount | conceptEmpty | conceptInclusion => 2
  | someConcept | allConcept | subsetConcept | equalConcept | projection | notRole | andRole
  | orRole | diffRole | inverse | restrict | roleCount | roleEmpty | roleInclusion => 3
  | compose | transitiveClosure | transitiveReflexiveClosure | conceptDistance
  | sumConceptDistance | roleDistance | sumRoleDistance => 4

theorem mem_all (o : Operator c) : o ∈ all c := by
  cases o <;> simp [all]

theorem category_rule (o : Operator c) : o.rule.category = c := by
  cases o <;> rfl

/-- The operators of a category with this keyword: none, one, or the two that share it. -/
def withKeyword (c : Category) (keyword : String) : List (Operator c) :=
  (all c).filter fun o => o.keyword == keyword

/-- The category of the first argument, if that is an element. -/
def firstCategory? (o : Operator c) : Option Category :=
  match o.signature with
  | .element d :: _ => some d
  | _ => none

end Operator

end DescLogic
