import DescLogic.Relation.Basic
/-!
# Distances

The distance from `a` to `b` in a relation is the number of steps of a shortest path, `0` from an
object to itself. `unreachable` stands for the distance where there is no path, and for every sum
that reaches it.

Two algorithms compute distances. `ObjectRelation.layers` searches in breadth from a set of
sources. `ObjectRelation.pairwiseDistances` admits the objects as way stations one after the other.
-/

namespace DescLogic

/-- The value of a numerical without a finite one, and the greatest value there is. -/
def unreachable : Nat := 2147483647

/-- The sum, or `unreachable` if it is not below that. -/
def saturatingAdd (x y : Nat) : Nat := min (x + y) unreachable

/-- The sum of the terms, or `unreachable` if it is not below that. -/
def saturatingSum (terms : List Nat) : Nat := terms.foldl saturatingAdd 0

/-- The least of the terms, or `unreachable` if there is none below that. -/
def least (terms : List Nat) : Nat := terms.foldl min unreachable

/-- A table of distances, row by row. -/
abbrev DistanceTable := Array (Array Nat)

/-- The entry for `a` and `b`, `unreachable` outside the table. -/
def DistanceTable.get (t : DistanceTable) (a b : Nat) : Nat := (t.getD a #[]).getD b unreachable

/-- The least entry for `a` and one of `ends`. -/
def DistanceTable.leastFrom (t : DistanceTable) (a : Nat) (ends : List Nat) : Nat :=
  let row := t.getD a #[]
  ends.foldl (fun d b => min d (row.getD b unreachable)) unreachable

theorem DistanceTable.leastFrom_eq {t : DistanceTable} {a : Nat} {ends : List Nat} :
    t.leastFrom a ends = least (ends.map (t.get a)) := by
  rw [least, List.foldl_map]
  rfl

namespace ObjectRelation

/-- The objects that a step from a member of `d` reaches. -/
def image (r : ObjectRelation) (d : ObjectSet) : ObjectSet :=
  let rows := r.rows
  ⟨r.objectCount, d.objects.bind fun a => rows.getD a ∅⟩

/-- The layers of a search in breadth along a relation with these rows, at most `fuel` of them: the
`frontier`, then the objects not yet `seen` that a step from it reaches, and so on until a layer is
empty. -/
def layersFrom (rows : Array NatSet) : (fuel : Nat) → (seen frontier : NatSet) → List NatSet
  | 0, _, _ => []
  | fuel + 1, seen, frontier =>
    if frontier.isEmpty then []
    else
      let next := (frontier.bind fun a => rows.getD a ∅).diff seen
      frontier :: layersFrom rows fuel (seen.union next) next

/-- Layer `k` holds the objects whose nearest source is at distance `k`. Layers are disjoint, so
there are no more of them than objects. -/
def layers (r : ObjectRelation) (sources : ObjectSet) : List NatSet :=
  layersFrom r.rows r.objectCount sources.objects sources.objects

/-- The distances from the nearest source, object by object. -/
def distancesFrom (r : ObjectRelation) (sources : ObjectSet) : Array Nat :=
  let layers := r.layers sources
  Array.ofFn fun b : Fin r.objectCount =>
    (layers.findIdx? fun layer => layer.contains b).getD unreachable

/-- The distances from `a` over paths without inner stations, where `row` holds the objects that
`a` is related to. -/
def stepDistances (n a : Nat) (row : NatSet) : Array Nat :=
  Array.ofFn fun b : Fin n => if a = b then 0 else if row.contains b then 1 else unreachable

/-- Shortens distances by paths through the station `k`. A row from which `k` is out of reach stays
as it is. -/
def relaxThrough (t : DistanceTable) (k : Nat) : DistanceTable :=
  let onward := t.getD k #[]
  t.map fun row =>
    let toStation := row.getD k unreachable
    if toStation = unreachable then row
    else Array.zipWith (fun direct rest => min direct (saturatingAdd toStation rest)) row onward

/-- The distances between all pairs of objects. -/
def pairwiseDistances (r : ObjectRelation) : DistanceTable :=
  (List.range r.objectCount).foldl relaxThrough (r.rows.mapIdx (stepDistances r.objectCount))

end ObjectRelation

end DescLogic
