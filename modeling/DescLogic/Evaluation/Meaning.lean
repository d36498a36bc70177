import DescLogic.Element.Node
import DescLogic.Relation.Closure
import DescLogic.Relation.Distance
import DescLogic.State
/-!
# What nodes denote

A concept denotes a set of objects, a role a relation, a numerical a number of at most
`unreachable`, and a boolean a truth value. `Node.denote` gives the denotation of a node in a
state from the denotations of its operands.

The distance operators look at their end points first. If those settle the value, the role
between them does not matter.
-/

namespace DescLogic

/-- What an element of a category denotes. -/
abbrev Meaning : Category → Type
  | .concept => ObjectSet
  | .role => ObjectRelation
  | .numerical => Nat
  | .boolean => Bool

instance : {c : Category} → DecidableEq (Meaning c)
  | .concept => inferInstanceAs (DecidableEq ObjectSet)
  | .role => inferInstanceAs (DecidableEq ObjectRelation)
  | .numerical => inferInstanceAs (DecidableEq Nat)
  | .boolean => inferInstanceAs (DecidableEq Bool)

instance : {c : Category} → Hashable (Meaning c)
  | .concept => inferInstanceAs (Hashable ObjectSet)
  | .role => inferInstanceAs (Hashable ObjectRelation)
  | .numerical => inferInstanceAs (Hashable Nat)
  | .boolean => inferInstanceAs (Hashable Bool)

/-- The true atoms of the predicate with this index. -/
def State.trueAtomsOf (s : State) (predicate : Nat) : List Atom :=
  s.trueAtoms.filter fun a => a.predicate == predicate

/-- A number of members as a numerical value. -/
def cardinality (size : Nat) : Nat := min size unreachable

namespace ObjectSet

/-- The objects whose successors satisfy `p`. -/
def withRow (r : ObjectRelation) (p : NatSet → Bool) : ObjectSet :=
  let rows := r.rows
  tabulate r.objectCount fun a => p (rows.getD a ∅)

/-- The objects whose successors in `r` and in `t` satisfy `p`. -/
def withRows (r t : ObjectRelation) (p : NatSet → NatSet → Bool) : ObjectSet :=
  let rows := r.rows
  let others := t.rows
  tabulate r.objectCount fun a => p (rows.getD a ∅) (others.getD a ∅)

/-- The objects with a successor in `d`. -/
def existsIn (r : ObjectRelation) (d : ObjectSet) : ObjectSet :=
  withRow r fun row => row.intersects d.objects

/-- The objects without a successor outside `d`. -/
def forallIn (r : ObjectRelation) (d : ObjectSet) : ObjectSet :=
  withRow r fun row => row.isSubset d.objects

/-- The objects whose successors in `r` are successors in `t`. -/
def rowSubset (r t : ObjectRelation) : ObjectSet :=
  withRows r t NatSet.isSubset

/-- The objects with the same successors in `r` and in `t`. -/
def rowEqual (r t : ObjectRelation) : ObjectSet :=
  withRows r t fun row other => row == other

/-- The first coordinates of `r` for position `0`, the second ones for any other. -/
def projection (r : ObjectRelation) (position : Nat) : ObjectSet :=
  if position = 0 then withRow r fun row => !row.isEmpty
  else r.image (full r.objectCount)

end ObjectSet

namespace ObjectRelation

/-- The pairs joined by a step of `r` and then one of `t`. -/
def compose (r t : ObjectRelation) : ObjectRelation :=
  let rows := t.rows
  r.mapRows fun row => row.bind fun b => rows.getD b ∅

/-- The pairs of `r` whose second coordinate is in `d`. -/
def restrict (r : ObjectRelation) (d : ObjectSet) : ObjectRelation :=
  r.mapRows fun row => row.inter d.objects

end ObjectRelation

/-! ## Distances between denotations -/

/-- The distance between two sets as far as the sets settle it: there is none from or to an empty
set, and it is zero between sets that share an object. -/
def settledDistance? (source target : ObjectSet) : Option Nat :=
  if source.isEmpty || target.isEmpty then some unreachable
  else if source.intersects target then some 0
  else none

/-- The least distance along `r` from a member of `source` to one of `target`. -/
def setDistance (source : ObjectSet) (r : ObjectRelation) (target : ObjectSet) :
    Nat :=
  let distances := r.distancesFrom source
  least (target.toList.map fun b => distances.getD b unreachable)

/-- The sum over `source` of the distances along `r` to the nearest member of `target`. The search
runs backwards from `target`. -/
def sumSetDistance (source : ObjectSet) (r : ObjectRelation)
    (target : ObjectSet) : Nat :=
  let distances := r.inverse.distancesFrom target
  saturatingSum (source.toList.map fun a => distances.getD a unreachable)

/-- The least distance from a successor of `a` in `source` to a successor of `a` in `target`. -/
def rowDistance (source target : ObjectRelation) (distances : DistanceTable) (a : Nat) : Nat :=
  let ends := target.successors a
  least ((source.successors a).map fun b => distances.leastFrom b ends)

/-- The least row distance along `r` over all objects. -/
def roleDistance (source r target : ObjectRelation) : Nat :=
  let distances := r.pairwiseDistances
  least ((List.range r.objectCount).map (rowDistance source target distances))

/-- The sum of the row distances along `r` over the objects with a successor in `source`. -/
def sumRoleDistance (source r target : ObjectRelation) : Nat :=
  let distances := r.pairwiseDistances
  let rows := (List.range r.objectCount).filter fun a => !(source.successors a).isEmpty
  saturatingSum (rows.map (rowDistance source target distances))

/-! ## Denotations of nodes -/

/-- The denotation of a node in a state, from those of its operands. -/
def Node.denote (s : State) : {c : Category} → Node Meaning c → Meaning c
  | _, ⟨.primitiveConcept, .predicate p (.position i .nil)⟩ =>
    .ofList s.objectCount ((s.trueAtomsOf p.index).filterMap fun a => a.objects[i]?)
  | _, ⟨.bot, .nil⟩ => .empty s.objectCount
  | _, ⟨.top, .nil⟩ => .full s.objectCount
  | _, ⟨.oneOf, .constant k .nil⟩ =>
    .ofList s.objectCount (s.problem.objectIndex? k.name).toList
  | _, ⟨.notConcept, .element d .nil⟩ => d.complement
  | _, ⟨.andConcept, .element d (.element e .nil)⟩ => d.inter e
  | _, ⟨.orConcept, .element d (.element e .nil)⟩ => d.union e
  | _, ⟨.diffConcept, .element d (.element e .nil)⟩ => d.diff e
  | _, ⟨.someConcept, .element r (.element d .nil)⟩ => .existsIn r d
  | _, ⟨.allConcept, .element r (.element d .nil)⟩ => .forallIn r d
  | _, ⟨.subsetConcept, .element r (.element t .nil)⟩ => .rowSubset r t
  | _, ⟨.equalConcept, .element r (.element t .nil)⟩ => .rowEqual r t
  | _, ⟨.projection, .element r (.position i .nil)⟩ => .projection r i
  | _, ⟨.primitiveRole, .predicate p (.position i (.position j .nil))⟩ =>
    .ofList s.objectCount ((s.trueAtomsOf p.index).filterMap fun a => do
      return (← a.objects[i]?, ← a.objects[j]?))
  | _, ⟨.topRole, .nil⟩ => .full s.objectCount
  | _, ⟨.notRole, .element r .nil⟩ => r.complement
  | _, ⟨.andRole, .element r (.element t .nil)⟩ => r.inter t
  | _, ⟨.orRole, .element r (.element t .nil)⟩ => r.union t
  | _, ⟨.diffRole, .element r (.element t .nil)⟩ => r.diff t
  | _, ⟨.inverse, .element r .nil⟩ => r.inverse
  | _, ⟨.compose, .element r (.element t .nil)⟩ => r.compose t
  | _, ⟨.restrict, .element r (.element d .nil)⟩ => r.restrict d
  | _, ⟨.identity, .element d .nil⟩ => .identity d
  | _, ⟨.transitiveClosure, .element r .nil⟩ => r.transitiveClosure
  | _, ⟨.transitiveReflexiveClosure, .element r .nil⟩ => r.reflexiveTransitiveClosure
  | _, ⟨.conceptCount, .element d .nil⟩ => cardinality d.size
  | _, ⟨.roleCount, .element r .nil⟩ => cardinality r.size
  | _, ⟨.conceptDistance, .element d (.element r (.element e .nil))⟩ =>
    (settledDistance? d e).getD (setDistance d r e)
  | _, ⟨.sumConceptDistance, .element d (.element r (.element e .nil))⟩ =>
    if d.isEmpty || e.isEmpty then unreachable else sumSetDistance d r e
  | _, ⟨.roleDistance, .element q (.element r (.element t .nil))⟩ =>
    if q.isEmpty || t.isEmpty then unreachable else roleDistance q r t
  | _, ⟨.sumRoleDistance, .element q (.element r (.element t .nil))⟩ =>
    if q.isEmpty || t.isEmpty then unreachable else sumRoleDistance q r t
  | _, ⟨.nullary, .predicate p .nil⟩ => !(s.trueAtomsOf p.index).isEmpty
  | _, ⟨.conceptEmpty, .element d .nil⟩ => d.isEmpty
  | _, ⟨.roleEmpty, .element r .nil⟩ => r.isEmpty
  | _, ⟨.conceptInclusion, .element d (.element e .nil)⟩ => d.isSubset e
  | _, ⟨.roleInclusion, .element r (.element t .nil)⟩ => r.isSubset t

end DescLogic
