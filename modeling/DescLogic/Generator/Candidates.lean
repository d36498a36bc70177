import DescLogic.Factory.Table
import DescLogic.Generator.Operands
/-!
# Candidates

The nodes that a rule proposes, formed one at a time as they are asked for. Seed rules read them
off the vocabulary. The other rules combine elements kept earlier: a binary rule over one category
takes different operands, a commutative one takes each two operands in one order only, and a
distance leads to other end points than it comes from.
-/

namespace DescLogic.Generator

/-- A node over stored elements, of any category. -/
abbrev AnyNode := (c : Category) × Node Handle c

/-- The elements kept so far, by category and complexity. -/
abbrev Pool := PerCategory fun c => Buckets (Handle c)

/-- The node of an operator with arguments. -/
def AnyNode.of {c : Category} (o : Operator c) (args : Args Handle o.signature) : AnyNode :=
  ⟨c, o, args⟩

/-- The nodes of an operator over one element. -/
def unary {c d : Category} (o : Operator c) (h : o.signature = [.element d])
    (xs : List (Handle d)) : LazyList AnyNode :=
  (LazyList.ofList xs).map fun x => .of o (h ▸ .element x .nil)

/-- The nodes of an operator over two elements. -/
def binary {c d e : Category} (o : Operator c)
    (h : o.signature = [.element d, .element e]) (xs : LazyList (Handle d × Handle e)) :
    LazyList AnyNode :=
  xs.map fun (x, y) => .of o (h ▸ .element x (.element y .nil))

/-- The nodes of a distance operator whose end points differ. -/
def distances {c d e : Category} (o : Operator c)
    (h : o.signature = [.element d, .element e, .element d])
    (xs : LazyList (Handle d × Handle e × Handle d)) : LazyList AnyNode :=
  (xs.filter fun (x, _, z) => x ≠ z).map fun (x, y, z) =>
    .of o (h ▸ .element x (.element y (.element z .nil)))

end DescLogic.Generator

namespace DescLogic.Rule

open Generator

/-- The nodes that a seed rule reads off the vocabulary; none for the other rules. An arity may be
any number, so the nodes for a predicate are not listed ahead of their use. -/
def seeds (v : Vocabulary) : Rule → LazyList AnyNode
  | primitiveConcept =>
    (LazyList.ofList v.predicates.toList).flatMap fun p =>
      (LazyList.range' 0 p.arity).map fun i =>
        .of .primitiveConcept (.predicate p (.position i .nil))
  | botConcept => .ofList [.of .bot .nil]
  | topConcept => .ofList [.of .top .nil]
  | oneOfConcept =>
    (LazyList.ofList v.constants.toList).map fun k => .of .oneOf (.constant k .nil)
  | primitiveRole =>
    (LazyList.ofList v.predicates.toList).flatMap fun p =>
      (LazyList.range' 0 p.arity).flatMap fun i =>
        (LazyList.range' (i + 1) (p.arity - (i + 1))).map fun j =>
          .of .primitiveRole (.predicate p (.position i (.position j .nil)))
  | topRole => .ofList [.of .topRole .nil]
  | nullaryBoolean =>
    (LazyList.ofList (v.predicates.toList.filter fun p => p.arity = 0)).map fun p =>
      .of .nullary (.predicate p .nil)
  | _ => .nil

/-- The nodes that a rule forms from operands whose complexities add up to `n`; none for the seed
rules. -/
def composites (pool : Pool) (n : Nat) : Rule → LazyList AnyNode
  | notConcept => unary .notConcept rfl (pool.concepts.level n)
  | andConcept => binary .andConcept rfl (commutativePairs pool.concepts n)
  | orConcept => binary .orConcept rfl (commutativePairs pool.concepts n)
  | diffConcept => binary .diffConcept rfl (distinctPairs pool.concepts n)
  | someConcept => binary .someConcept rfl (pairs pool.roles pool.concepts n)
  | allConcept => binary .allConcept rfl (pairs pool.roles pool.concepts n)
  | subsetConcept => binary .subsetConcept rfl (distinctPairs pool.roles n)
  | equalConcept => binary .equalConcept rfl (commutativePairs pool.roles n)
  | projectionConcept =>
    (LazyList.ofList (pool.roles.level n)).flatMap fun r =>
      .ofList
        [.of .projection (.element r (.position 0 .nil)),
         .of .projection (.element r (.position 1 .nil))]
  | notRole => unary .notRole rfl (pool.roles.level n)
  | andRole => binary .andRole rfl (commutativePairs pool.roles n)
  | orRole => binary .orRole rfl (commutativePairs pool.roles n)
  | diffRole => binary .diffRole rfl (distinctPairs pool.roles n)
  | inverseRole => unary .inverse rfl (pool.roles.level n)
  | composeRole => binary .compose rfl (distinctPairs pool.roles n)
  | restrictRole => binary .restrict rfl (pairs pool.roles pool.concepts n)
  | identityRole => unary .identity rfl (pool.concepts.level n)
  | transitiveClosureRole => unary .transitiveClosure rfl (pool.roles.level n)
  | transitiveReflexiveClosureRole =>
    unary .transitiveReflexiveClosure rfl (pool.roles.level n)
  | countNumerical =>
    (unary .conceptCount rfl (pool.concepts.level n)).append fun _ =>
      unary .roleCount rfl (pool.roles.level n)
  | conceptDistanceNumerical =>
    distances .conceptDistance rfl (triples pool.concepts pool.roles pool.concepts n)
  | sumConceptDistanceNumerical =>
    distances .sumConceptDistance rfl (triples pool.concepts pool.roles pool.concepts n)
  | roleDistanceNumerical =>
    distances .roleDistance rfl (triples pool.roles pool.roles pool.roles n)
  | sumRoleDistanceNumerical =>
    distances .sumRoleDistance rfl (triples pool.roles pool.roles pool.roles n)
  | emptyBoolean =>
    (unary .conceptEmpty rfl (pool.concepts.level n)).append fun _ =>
      unary .roleEmpty rfl (pool.roles.level n)
  | inclusionBoolean =>
    (binary .conceptInclusion rfl (distinctPairs pool.concepts n)).append fun _ =>
      binary .roleInclusion rfl (distinctPairs pool.roles n)
  | _ => .nil

end DescLogic.Rule
