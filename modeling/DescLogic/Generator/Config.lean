import DescLogic.Element.Rule
/-!
# Configuration of the generator

Every category has a limit on the complexity of its elements. A run may be cut short by a limit on
the number of elements or on its time. A run may leave out rules, and it may keep elements that
denote the same on all sample states.
-/

namespace DescLogic.Generator

/-- What a run of the generator forms and keeps. -/
structure Config where
  /-- The greatest complexity of a concept. -/
  conceptLimit : Nat := 5
  /-- The greatest complexity of a role. -/
  roleLimit : Nat := 5
  /-- The greatest complexity of a numerical. -/
  numericalLimit : Nat := 5
  /-- The greatest complexity of a boolean. -/
  booleanLimit : Nat := 5
  /-- The number of elements at which a run stops. -/
  maxElements : Option Nat := none
  /-- The time since its start at which a run stops, in the unit in which its clock counts. In
  nanoseconds all durations are whole numbers, so neither the limit nor a reading is rounded. -/
  timeLimit : Option Nat := none
  /-- The enabled rules, in their order and once each. -/
  rules : List Rule := Rule.all
  /-- Are elements left out that denote the same as an earlier one on all sample states? -/
  deduplicates : Bool := true
deriving DecidableEq, Repr

instance : Inhabited Config where
  default := {}

namespace Config

/-- The greatest complexity of an element of category `c`. -/
def limit (k : Config) : Category → Nat
  | .concept => k.conceptLimit
  | .role => k.roleLimit
  | .numerical => k.numericalLimit
  | .boolean => k.booleanLimit

/-- The greatest of the complexity limits. -/
def maxLimit (k : Config) : Nat := (Category.all.map k.limit).foldl max 0

/-- The same limit for every category. -/
def withLimit (k : Config) (n : Nat) : Config :=
  { k with conceptLimit := n, roleLimit := n, numericalLimit := n, booleanLimit := n }

/-- Exactly the listed rules. -/
def withRules (k : Config) (rules : List Rule) : Config :=
  { k with rules := Rule.all.filter (rules.contains ·) }

/-- Is the rule enabled? -/
def isEnabled (k : Config) (r : Rule) : Bool := k.rules.contains r

/-- Enables or disables a rule. -/
def setRule (k : Config) (r : Rule) (enabled : Bool) : Config :=
  { k with rules := Rule.all.filter fun q => if q = r then enabled else k.isEnabled q }

end Config

end DescLogic.Generator
