import DescLogic.Element.Category
/-!
# Construction rules

A `Rule` is a way of forming elements, and every rule has a keyword of its own in descriptions.
Seed rules form elements from the vocabulary alone, the others from smaller elements.
-/

namespace DescLogic

/-- A way of forming elements. -/
inductive Rule where
  | primitiveConcept
  | botConcept
  | topConcept
  | oneOfConcept
  | notConcept
  | andConcept
  | orConcept
  | diffConcept
  | someConcept
  | allConcept
  | subsetConcept
  | equalConcept
  | projectionConcept
  | primitiveRole
  | topRole
  | notRole
  | andRole
  | orRole
  | diffRole
  | inverseRole
  | composeRole
  | restrictRole
  | identityRole
  | transitiveClosureRole
  | transitiveReflexiveClosureRole
  | countNumerical
  | conceptDistanceNumerical
  | sumConceptDistanceNumerical
  | roleDistanceNumerical
  | sumRoleDistanceNumerical
  | nullaryBoolean
  | emptyBoolean
  | inclusionBoolean
deriving DecidableEq, Hashable, Repr

namespace Rule

/-- All rules in their order. -/
def all : List Rule :=
  [primitiveConcept, botConcept, topConcept, oneOfConcept, notConcept, andConcept, orConcept,
   diffConcept, someConcept, allConcept, subsetConcept, equalConcept, projectionConcept,
   primitiveRole, topRole, notRole, andRole, orRole, diffRole, inverseRole, composeRole,
   restrictRole, identityRole, transitiveClosureRole, transitiveReflexiveClosureRole,
   countNumerical, conceptDistanceNumerical, sumConceptDistanceNumerical, roleDistanceNumerical,
   sumRoleDistanceNumerical, nullaryBoolean, emptyBoolean, inclusionBoolean]

/-- No rule is missing from the list. -/
theorem mem_all (r : Rule) : r ∈ all := by
  cases r <;> decide

/-- The name in configurations and reports. -/
def name : Rule → String
  | primitiveConcept => "PrimitiveConcept"
  | botConcept => "BotConcept"
  | topConcept => "TopConcept"
  | oneOfConcept => "OneOfConcept"
  | notConcept => "NotConcept"
  | andConcept => "AndConcept"
  | orConcept => "OrConcept"
  | diffConcept => "DiffConcept"
  | someConcept => "SomeConcept"
  | allConcept => "AllConcept"
  | subsetConcept => "SubsetConcept"
  | equalConcept => "EqualConcept"
  | projectionConcept => "ProjectionConcept"
  | primitiveRole => "PrimitiveRole"
  | topRole => "TopRole"
  | notRole => "NotRole"
  | andRole => "AndRole"
  | orRole => "OrRole"
  | diffRole => "DiffRole"
  | inverseRole => "InverseRole"
  | composeRole => "ComposeRole"
  | restrictRole => "RestrictRole"
  | identityRole => "IdentityRole"
  | transitiveClosureRole => "TransitiveClosureRole"
  | transitiveReflexiveClosureRole => "TransitiveReflexiveClosureRole"
  | countNumerical => "CountNumerical"
  | conceptDistanceNumerical => "ConceptDistanceNumerical"
  | sumConceptDistanceNumerical => "SumConceptDistanceNumerical"
  | roleDistanceNumerical => "RoleDistanceNumerical"
  | sumRoleDistanceNumerical => "SumRoleDistanceNumerical"
  | nullaryBoolean => "NullaryBoolean"
  | emptyBoolean => "EmptyBoolean"
  | inclusionBoolean => "InclusionBoolean"

instance : ToString Rule where
  toString := name

/-- The rule with this name. -/
def ofName? (name : String) : Option Rule := all.find? fun r => r.name == name

/-- The head of the elements that the rule forms. -/
def keyword : Rule → String
  | primitiveConcept => "c_primitive"
  | botConcept => "c_bot"
  | topConcept => "c_top"
  | oneOfConcept => "c_one_of"
  | notConcept => "c_not"
  | andConcept => "c_and"
  | orConcept => "c_or"
  | diffConcept => "c_diff"
  | someConcept => "c_some"
  | allConcept => "c_all"
  | subsetConcept => "c_subset"
  | equalConcept => "c_equal"
  | projectionConcept => "c_projection"
  | primitiveRole => "r_primitive"
  | topRole => "r_top"
  | notRole => "r_not"
  | andRole => "r_and"
  | orRole => "r_or"
  | diffRole => "r_diff"
  | inverseRole => "r_inverse"
  | composeRole => "r_compose"
  | restrictRole => "r_restrict"
  | identityRole => "r_identity"
  | transitiveClosureRole => "r_transitive_closure"
  | transitiveReflexiveClosureRole => "r_transitive_reflexive_closure"
  | countNumerical => "n_count"
  | conceptDistanceNumerical => "n_concept_distance"
  | sumConceptDistanceNumerical => "n_sum_concept_distance"
  | roleDistanceNumerical => "n_role_distance"
  | sumRoleDistanceNumerical => "n_sum_role_distance"
  | nullaryBoolean => "b_nullary"
  | emptyBoolean => "b_empty"
  | inclusionBoolean => "b_inclusion"

/-- The category of the elements that the rule forms. -/
def category : Rule → Category
  | primitiveConcept | botConcept | topConcept | oneOfConcept | notConcept | andConcept
  | orConcept | diffConcept | someConcept | allConcept | subsetConcept | equalConcept
  | projectionConcept => .concept
  | primitiveRole | topRole | notRole | andRole | orRole | diffRole | inverseRole | composeRole
  | restrictRole | identityRole | transitiveClosureRole | transitiveReflexiveClosureRole => .role
  | countNumerical | conceptDistanceNumerical | sumConceptDistanceNumerical
  | roleDistanceNumerical | sumRoleDistanceNumerical => .numerical
  | nullaryBoolean | emptyBoolean | inclusionBoolean => .boolean

/-- Does the rule form elements from the vocabulary alone? -/
def isSeed : Rule → Bool
  | primitiveConcept | botConcept | topConcept | oneOfConcept | primitiveRole | topRole
  | nullaryBoolean => true
  | _ => false

end Rule

end DescLogic
