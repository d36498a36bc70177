import DescLogic.Relation.Basic
/-!
# Transitive closure

`ObjectRelation.transitiveClosure` relates two objects when a nonempty path leads from the one to
the other. It works on the rows of the relation and admits the objects as way stations one after
the other: after the round for `k` the rows hold the ends of the paths whose inner stations are at
most `k`.
-/

namespace DescLogic.ObjectRelation

/-- Adds the ends of the paths through the station `k`: whoever reaches `k` reaches what `k`
reaches. -/
def closeThrough (rows : Array NatSet) (k : Nat) : Array NatSet :=
  let onward := rows.getD k ∅
  rows.map fun row => if row.contains k then row.union onward else row

/-- The pairs that a nonempty path joins. -/
def transitiveClosure (r : ObjectRelation) : ObjectRelation :=
  let rows := (List.range r.objectCount).foldl closeThrough r.rows
  ofRows r.objectCount fun a => rows.getD a ∅

/-- The pairs `(a, a)` for the members of `d`. -/
def identity (d : ObjectSet) : ObjectRelation :=
  ofRows d.objectCount fun a => if d.contains a then NatSet.empty.insert a else ∅

/-- The pairs that a path joins, the empty one included. -/
def reflexiveTransitiveClosure (r : ObjectRelation) : ObjectRelation :=
  r.transitiveClosure.union (identity (ObjectSet.full r.objectCount))

end DescLogic.ObjectRelation
