import DescLogic.Proofs.Semantics.Numericals
/-!
# Evaluation with checks

Denotations are computed from lists and tables that are read with a default for what they do not
hold. The checked computations read the same lists and tables without a default. They give nothing
as soon as a place is read that is not there, or an object or a pair that is not one of the instance
is put into a denotation, or operands are over different objects.

* `Node.denote?`, `Term.denote?`: the checked denotations.
* `Node.denote?_eq_some`: if the denotations of the operands are within the objects of the state
  (`Meaning.Within`), and the node was let into a factory, then no check fails and the checked
  denotation is the denotation.
* `Term.denote?_eq_some`, `within_denote`: the same for whole terms.
-/

namespace DescLogic

variable {n : Nat}

/-! ## Sets of objects -/

/-- The union of the sets `f i` over the members `i` of `s`, if all of them are there. -/
def NatSet.bind? (s : NatSet) (f : Nat → Option NatSet) : Option NatSet := do
  let sets ← s.toList.mapM f
  return sets.foldl (fun u t => if t.isEmpty then u else u.union t) empty

namespace ObjectSet

/-- The listed objects, if they are objects. -/
def ofList? (n : Nat) (objects : List Nat) : Option ObjectSet :=
  if ∀ a ∈ objects, a < n then some (ofList n objects) else none

/-- The objects that satisfy `p`, if that can be asked of all objects. -/
def tabulate? (n : Nat) (p : Nat → Option Bool) : Option ObjectSet := do
  let answers ← (List.range n).mapM p
  return tabulate n fun a => answers.getD a false

/-- The objects whose successors satisfy `p`. -/
def withRow? (r : ObjectRelation) (p : NatSet → Bool) : Option ObjectSet :=
  tabulate? r.objectCount fun a => r.rows[a]?.map p

/-- The objects whose successors in `r` and in `t` satisfy `p`. -/
def withRows? (r t : ObjectRelation) (p : NatSet → NatSet → Bool) : Option ObjectSet :=
  tabulate? r.objectCount fun a => do
    return p (← r.rows[a]?) (← t.rows[a]?)

end ObjectSet

namespace ObjectRelation

/-- The listed pairs, if they are pairs of objects. -/
def ofList? (n : Nat) (pairs : List (Nat × Nat)) : Option ObjectRelation :=
  if ∀ p ∈ pairs, p.1 < n ∧ p.2 < n then some (ofList n pairs) else none

/-- The relation with the given rows, if there is one for each object and objects are in it. -/
def ofRows? (n : Nat) (row : Nat → Option NatSet) : Option ObjectRelation := do
  let rows ← (List.range n).mapM row
  if ∀ row ∈ rows, ∀ b ∈ row.toList, b < n then return ofRows n fun a => rows.getD a ∅ else none

/-- The relation with `f row` in the place of each row. -/
def mapRows? (r : ObjectRelation) (f : NatSet → Option NatSet) : Option ObjectRelation :=
  ofRows? r.objectCount fun a => do f (← r.rows[a]?)

/-- The pairs with their coordinates exchanged. -/
def inverse? (r : ObjectRelation) : Option ObjectRelation :=
  ofList? r.objectCount (r.toList.map Prod.swap)

/-- The pairs joined by a step of `r` and then one of `t`. -/
def compose? (r t : ObjectRelation) : Option ObjectRelation :=
  r.mapRows? fun row => row.bind? fun b => t.rows[b]?

/-- The pairs of `r` whose second coordinate is in `d`. -/
def restrict? (r : ObjectRelation) (d : ObjectSet) : Option ObjectRelation :=
  r.mapRows? fun row => some (row.inter d.objects)

/-- The pairs `(a, a)` for the members of `d`. -/
def identity? (d : ObjectSet) : Option ObjectRelation :=
  if ∀ a ∈ d.toList, a < d.objectCount then some (identity d) else none

/-- Adds the ends of the paths through the station `k`. -/
def closeThrough? (rows : Array NatSet) (k : Nat) : Option (Array NatSet) := do
  let onward ← rows[k]?
  return rows.map fun row => if row.contains k then row.union onward else row

/-- The pairs that a nonempty path joins. -/
def transitiveClosure? (r : ObjectRelation) : Option ObjectRelation := do
  let rows ← (List.range r.objectCount).foldlM closeThrough? r.rows
  ofRows? r.objectCount fun a => rows[a]?

/-- The pairs that a path joins, the empty one included. -/
def reflexiveTransitiveClosure? (r : ObjectRelation) : Option ObjectRelation := do
  return (← r.transitiveClosure?).union (← identity? (.full r.objectCount))

/-- The objects that a step from a member of `d` reaches. -/
def image? (r : ObjectRelation) (d : ObjectSet) : Option ObjectSet := do
  let objects ← d.objects.bind? fun a => r.rows[a]?
  if ∀ b ∈ objects.toList, b < r.objectCount then return ⟨r.objectCount, objects⟩ else none

end ObjectRelation

/-- The first or the second coordinates of a relation. -/
def ObjectSet.projection? (r : ObjectRelation) (position : Nat) : Option ObjectSet :=
  if position = 0 then withRow? r fun row => !row.isEmpty
  else r.image? (full r.objectCount)

/-! ## Distances -/

/-- The entry for `a` and `b`. -/
def DistanceTable.get? (t : DistanceTable) (a b : Nat) : Option Nat := do
  (← t[a]?)[b]?

/-- The least entry for `a` and one of `ends`. -/
def DistanceTable.leastFrom? (t : DistanceTable) (a : Nat) (ends : List Nat) : Option Nat := do
  return least (← ends.mapM (t.get? a))

namespace ObjectRelation

/-- The layers of a search in breadth. -/
def layersFrom? (rows : Array NatSet) :
    (fuel : Nat) → (seen frontier : NatSet) → Option (List NatSet)
  | 0, _, _ => some []
  | fuel + 1, seen, frontier =>
    if frontier.isEmpty then some []
    else do
      let reached ← frontier.bind? fun a => rows[a]?
      let next := reached.diff seen
      return frontier :: (← layersFrom? rows fuel (seen.union next) next)

/-- The distances from the nearest source, object by object. -/
def distancesFrom? (r : ObjectRelation) (sources : ObjectSet) : Option (Array Nat) :=
  if ∀ a ∈ sources.toList, a < r.objectCount then do
    let layers ← layersFrom? r.rows r.objectCount sources.objects sources.objects
    return Array.ofFn fun b : Fin r.objectCount =>
      (layers.findIdx? fun layer => layer.contains b).getD unreachable
  else none

/-- Shortens the distances of a row by paths through the station `k`, whose own distances are
`onward`. -/
def relaxRow? (onward : Array Nat) (k : Nat) (row : Array Nat) : Option (Array Nat) := do
  let toStation ← row[k]?
  if toStation = unreachable then return row
  else if row.size = onward.size then
    return Array.zipWith (fun direct rest => min direct (saturatingAdd toStation rest)) row onward
  else none

/-- Shortens distances by paths through the station `k`. -/
def relaxThrough? (t : DistanceTable) (k : Nat) : Option DistanceTable := do
  let onward ← t[k]?
  return (← t.toList.mapM (relaxRow? onward k)).toArray

/-- The distances between all pairs of objects. -/
def pairwiseDistances? (r : ObjectRelation) : Option DistanceTable :=
  if ∀ p ∈ r.toList, p.1 < r.objectCount ∧ p.2 < r.objectCount then
    (List.range r.objectCount).foldlM relaxThrough? (r.rows.mapIdx (stepDistances r.objectCount))
  else none

/-- The objects that the object `a` is related to. -/
def successors? (r : ObjectRelation) (a : Nat) : Option (List Nat) :=
  if a < r.objectCount then some (r.successors a) else none

end ObjectRelation

/-- The least distance along `r` from a member of `source` to one of `target`. -/
def setDistance? (source : ObjectSet) (r : ObjectRelation) (target : ObjectSet) : Option Nat := do
  let distances ← r.distancesFrom? source
  return least (← target.toList.mapM fun b => distances[b]?)

/-- The sum over `source` of the distances along `r` to the nearest member of `target`. -/
def sumSetDistance? (source : ObjectSet) (r : ObjectRelation) (target : ObjectSet) :
    Option Nat := do
  let distances ← (← r.inverse?).distancesFrom? target
  return saturatingSum (← source.toList.mapM fun a => distances[a]?)

/-- The least distance from a successor of `a` in `source` to a successor of `a` in `target`. -/
def rowDistance? (source target : ObjectRelation) (distances : DistanceTable) (a : Nat) :
    Option Nat := do
  let ends ← target.successors? a
  return least (← (← source.successors? a).mapM fun b => distances.leastFrom? b ends)

/-- The least row distance along `r` over all objects. -/
def roleDistance? (source r target : ObjectRelation) : Option Nat := do
  let distances ← r.pairwiseDistances?
  return least (← (List.range r.objectCount).mapM (rowDistance? source target distances))

/-- The sum of the row distances along `r` over the objects with a successor in `source`. -/
def sumRoleDistance? (source r target : ObjectRelation) : Option Nat := do
  let distances ← r.pairwiseDistances?
  let rows ← (List.range r.objectCount).mapM fun a => do return (a, ← source.successors? a)
  let starts := (rows.filter fun row => !row.2.isEmpty).map Prod.fst
  return saturatingSum (← starts.mapM (rowDistance? source target distances))

/-! ## Nodes and terms -/

/-- Is the denotation over `n` objects? -/
def Meaning.isOver (n : Nat) : {c : Category} → Meaning c → Bool
  | .concept, (d : ObjectSet) => d.objectCount == n
  | .role, (r : ObjectRelation) => r.objectCount == n
  | .numerical, _ | .boolean, _ => true

/-- The checked denotation of a node, apart from the check that its operands are over the objects of
the state. The operators that are not listed neither read a table nor collect objects. -/
def Node.compute? (s : State) : {c : Category} → Node Meaning c → Option (Meaning c)
  | _, ⟨.primitiveConcept, .predicate p (.position i .nil)⟩ => do
    ObjectSet.ofList? s.objectCount (← (s.trueAtomsOf p.index).mapM fun a => a.objects[i]?)
  | _, ⟨.oneOf, .constant k .nil⟩ =>
    ObjectSet.ofList? s.objectCount (s.problem.objectIndex? k.name).toList
  | _, ⟨.someConcept, .element r (.element d .nil)⟩ =>
    ObjectSet.withRow? r fun row => row.intersects d.objects
  | _, ⟨.allConcept, .element r (.element d .nil)⟩ =>
    ObjectSet.withRow? r fun row => row.isSubset d.objects
  | _, ⟨.subsetConcept, .element r (.element t .nil)⟩ => ObjectSet.withRows? r t NatSet.isSubset
  | _, ⟨.equalConcept, .element r (.element t .nil)⟩ =>
    ObjectSet.withRows? r t fun row other => row == other
  | _, ⟨.projection, .element r (.position i .nil)⟩ => ObjectSet.projection? r i
  | _, ⟨.primitiveRole, .predicate p (.position i (.position j .nil))⟩ => do
    ObjectRelation.ofList? s.objectCount (← (s.trueAtomsOf p.index).mapM fun a => do
      return (← a.objects[i]?, ← a.objects[j]?))
  | _, ⟨.inverse, .element r .nil⟩ => r.inverse?
  | _, ⟨.compose, .element r (.element t .nil)⟩ => r.compose? t
  | _, ⟨.restrict, .element r (.element d .nil)⟩ => r.restrict? d
  | _, ⟨.identity, .element d .nil⟩ => ObjectRelation.identity? d
  | _, ⟨.transitiveClosure, .element r .nil⟩ => r.transitiveClosure?
  | _, ⟨.transitiveReflexiveClosure, .element r .nil⟩ => r.reflexiveTransitiveClosure?
  | _, ⟨.conceptDistance, .element d (.element r (.element e .nil))⟩ =>
    match settledDistance? d e with
    | some value => some value
    | none => setDistance? d r e
  | _, ⟨.sumConceptDistance, .element d (.element r (.element e .nil))⟩ =>
    if d.isEmpty || e.isEmpty then some unreachable else sumSetDistance? d r e
  | _, ⟨.roleDistance, .element q (.element r (.element t .nil))⟩ =>
    if q.isEmpty || t.isEmpty then some unreachable else roleDistance? q r t
  | _, ⟨.sumRoleDistance, .element q (.element r (.element t .nil))⟩ =>
    if q.isEmpty || t.isEmpty then some unreachable else sumRoleDistance? q r t
  | _, n => some (n.denote s)

/-- The checked denotation of a node in a state, from those of its operands. -/
def Node.denote? (s : State) {c : Category} (n : Node Meaning c) : Option (Meaning c) :=
  if (n.args.elements fun d => Meaning.isOver s.objectCount d).all id then n.compute? s else none

/-- The checked denotation of a term in a state. -/
def Term.denote? (s : State) {c : Category} (t : Term c) : Option (Meaning c) :=
  fold (χ := fun c => Option (Meaning c))
    (fun n => do Node.denote? s ⟨n.operator, ← n.args.mapM id⟩) t

/-! ## Reading what is there -/

section Reading

variable {α β : Type} {l : List α}

/-- Reading a list of places that are all there. -/
theorem mapM_eq_some_map {f : α → Option β} {g : α → β} (h : ∀ a ∈ l, f a = some (g a)) :
    l.mapM f = some (l.map g) := by
  induction l with
  | nil => rfl
  | cons a l ih =>
    rw [List.forall_mem_cons] at h
    rw [List.mapM_cons, h.1, ih h.2]
    rfl

/-- Collecting what may be missing, if nothing is. -/
theorem mapM_eq_some_filterMap {f : α → Option β} (h : ∀ a ∈ l, ∃ b, f a = some b) :
    l.mapM f = some (l.filterMap f) := by
  induction l with
  | nil => rfl
  | cons a l ih =>
    rw [List.forall_mem_cons] at h
    obtain ⟨⟨b, hb⟩, h⟩ := h
    rw [List.mapM_cons, hb, ih h, List.filterMap_cons_some hb]
    rfl

/-- Rounds that all succeed, where `I` holds before the first round and each round keeps it. -/
theorem foldlM_eq_some_foldl {I : β → Prop} {f : β → α → Option β} {g : β → α → β}
    (h : ∀ x, I x → ∀ a ∈ l, f x a = some (g x a) ∧ I (g x a)) {x : β} (hx : I x) :
    l.foldlM f x = some (l.foldl g x) ∧ I (l.foldl g x) := by
  induction l generalizing x with
  | nil => exact ⟨rfl, hx⟩
  | cons a l ih =>
    obtain ⟨step, kept⟩ := h x hx a List.mem_cons_self
    obtain ⟨rest, last⟩ := ih (fun y hy b hb => h y hy b (List.mem_cons_of_mem a hb)) kept
    refine ⟨?_, last⟩
    rw [List.foldlM_cons, step]
    exact rest

/-- Rounds that all succeed, where `P front` is what the rounds for `front` have led to. -/
theorem exists_foldlM {P : List α → β → Prop} {f : β → α → Option β} {x : β} (start : P [] x)
    (step : ∀ front a y, a ∈ l → P front y → ∃ z, f y a = some z ∧ P (front ++ [a]) z) :
    ∃ y, l.foldlM f x = some y ∧ P l y := by
  induction l using List.reverseRecOn with
  | nil => exact ⟨x, rfl, start⟩
  | append_singleton l a ih =>
    obtain ⟨y, rounds, hy⟩ := ih fun front b y hb => step front b y (List.mem_append_left [a] hb)
    obtain ⟨z, last, hz⟩ := step l a y (List.mem_append_right l (List.mem_singleton_self a)) hy
    refine ⟨z, ?_, hz⟩
    rw [List.foldlM_append, rounds]
    simpa using last

/-- A place below the size of an array is read as it is with a default. -/
theorem getElem?_eq_some_getD {xs : Array α} {i : Nat} (d : α) (h : i < xs.size) :
    xs[i]? = some (xs.getD i d) := by
  rw [Array.getD_eq_getD_getElem?, Array.getElem?_eq_getElem h, Option.getD_some]

end Reading

theorem NatSet.bind?_eq_some {s : NatSet} {f : Nat → NatSet} {f? : Nat → Option NatSet}
    (h : ∀ i ∈ s, f? i = some (f i)) : s.bind? f? = some (s.bind f) := by
  rw [bind?, mapM_eq_some_map fun i hi => h i (mem_toList.mp hi)]
  exact congrArg some List.foldl_map

/-! ## Checks that do not fail -/

/-- There is a row for each object. -/
theorem ObjectRelation.getElem?_rows {r : ObjectRelation} {a : Nat} (ha : a < r.objectCount) :
    r.rows[a]? = some (r.rows.getD a ∅) :=
  getElem?_eq_some_getD ∅ (by simpa [rows_eq] using ha)

namespace ObjectSet

variable {d : ObjectSet} {r t : ObjectRelation}

theorem ofList?_eq_some {l : List Nat} (h : ∀ a ∈ l, a < n) :
    ofList? n l = some (ofList n l) := if_pos h

/-- What is collected is in the listed order. -/
theorem mapM_ofList?_eq_some {α : Type} {l : List α} {f : α → Option Nat}
    (h : ∀ x ∈ l, ∃ a, f x = some a ∧ a < n) :
    (l.mapM f >>= ofList? n) = some (ofList n (l.filterMap f)) := by
  rw [mapM_eq_some_filterMap fun x hx => (h x hx).imp fun _ => And.left]
  refine ofList?_eq_some fun a ha => ?_
  obtain ⟨x, hx, hxa⟩ := List.mem_filterMap.mp ha
  obtain ⟨b, hxb, lt⟩ := h x hx
  rw [hxa] at hxb
  cases hxb
  exact lt

theorem tabulate?_eq_some {p? : Nat → Option Bool} {p : Nat → Bool}
    (h : ∀ a < n, p? a = some (p a)) : tabulate? n p? = some (tabulate n p) := by
  rw [tabulate?, mapM_eq_some_map fun a ha => h a (List.mem_range.mp ha)]
  refine congrArg some (congrArg (mk n) (NatSet.ext_contains fun a => ?_))
  rw [NatSet.contains_tabulate, NatSet.contains_tabulate]
  by_cases ha : a < n <;> simp [ha]

theorem withRow?_eq_some {p : NatSet → Bool} : withRow? r p = some (withRow r p) := by
  refine tabulate?_eq_some fun a ha => ?_
  rw [ObjectRelation.getElem?_rows ha]
  rfl

theorem withRows?_eq_some (same : t.objectCount = r.objectCount) {p : NatSet → NatSet → Bool} :
    withRows? r t p = some (withRows r t p) := by
  refine tabulate?_eq_some fun a ha => ?_
  rw [ObjectRelation.getElem?_rows ha, ObjectRelation.getElem?_rows (same ▸ ha)]
  rfl

end ObjectSet

namespace ObjectRelation

variable {d : ObjectSet} {r t q : ObjectRelation}

theorem ofList?_eq_some {l : List (Nat × Nat)} (h : ∀ p ∈ l, p.1 < n ∧ p.2 < n) :
    ofList? n l = some (ofList n l) := if_pos h

theorem mapM_ofList?_eq_some {α : Type} {l : List α} {f : α → Option (Nat × Nat)}
    (h : ∀ x ∈ l, ∃ p, f x = some p ∧ p.1 < n ∧ p.2 < n) :
    (l.mapM f >>= ofList? n) = some (ofList n (l.filterMap f)) := by
  rw [mapM_eq_some_filterMap fun x hx => (h x hx).imp fun _ => And.left]
  refine ofList?_eq_some fun p hp => ?_
  obtain ⟨x, hx, hxp⟩ := List.mem_filterMap.mp hp
  obtain ⟨q, hxq, lt⟩ := h x hx
  rw [hxp] at hxq
  cases hxq
  exact lt

theorem ofRows?_eq_some {row? : Nat → Option NatSet} {row : Nat → NatSet}
    (h : ∀ a < n, row? a = some (row a)) (bounded : ∀ a b, (row a).contains b = true → b < n) :
    ofRows? n row? = some (ofRows n row) := by
  have within : ∀ s ∈ (List.range n).map row, ∀ b ∈ s.toList, b < n := by
    simp only [List.forall_mem_map, NatSet.mem_toList]
    exact fun a _ b => bounded a b
  have rows : (fun a => if a < n then ((List.range n).map row).getD a ∅ else ∅) =
      fun a => if a < n then row a else ∅ := by
    funext a
    by_cases ha : a < n <;> simp [ha]
  rw [ofRows?, mapM_eq_some_map fun a ha => h a (List.mem_range.mp ha)]
  simp only [Option.bind_eq_bind, Option.bind_some, if_pos within, Option.pure_def, ofRows, rows]

theorem mapRows?_eq_some {f? : NatSet → Option NatSet} {f : NatSet → NatSet}
    (h : ∀ a < r.objectCount, f? (r.rows.getD a ∅) = some (f (r.rows.getD a ∅)))
    (bounded : ∀ a b, (f (r.rows.getD a ∅)).contains b = true → b < r.objectCount) :
    r.mapRows? f? = some (r.mapRows f) := by
  refine ofRows?_eq_some (fun a ha => ?_) bounded
  rw [getElem?_rows ha]
  exact h a ha

/-- The pairs that are listed are pairs of objects. -/
theorem Valid.lt_of_mem_toList (hr : r.Valid) :
    ∀ p ∈ r.toList, p.1 < r.objectCount ∧ p.2 < r.objectCount := by
  rintro ⟨a, b⟩ hp
  obtain ⟨ha, hb, -⟩ := (mem_toList hr).mp hp
  exact ⟨ha, hb⟩

theorem inverse?_eq_some (hr : r.Valid) : r.inverse? = some r.inverse := by
  refine ofList?_eq_some (List.forall_mem_map.mpr fun p hp => ?_)
  exact (hr.lt_of_mem_toList p hp).symm

theorem compose?_eq_some (same : t.objectCount = r.objectCount) :
    r.compose? t = some (r.compose t) := by
  refine mapRows?_eq_some (f := fun row => row.bind fun b => t.rows.getD b ∅)
    (fun a _ => NatSet.bind?_eq_some fun b hb => getElem?_rows ?_) (compose_bounded same)
  exact same.symm ▸ lt_of_contains_getD_rows hb

theorem restrict?_eq_some : r.restrict? d = some (r.restrict d) :=
  mapRows?_eq_some (fun _ _ => rfl) restrict_bounded

theorem identity?_eq_some (hd : ∀ a ∈ d.members, a < d.objectCount) :
    identity? d = some (identity d) := by
  have within : ∀ a ∈ d.toList, a < d.objectCount := fun a ha => hd a (ObjectSet.mem_toList.mp ha)
  rw [identity?, if_pos within]

theorem closeThrough?_eq_some {rows : Array NatSet} {k : Nat} (hk : k < rows.size) :
    closeThrough? rows k = some (closeThrough rows k) := by
  rw [closeThrough?, getElem?_eq_some_getD ∅ hk]
  rfl

theorem transitiveClosure?_eq_some : r.transitiveClosure? = some r.transitiveClosure := by
  -- The rounds keep the number of rows, so the station of each round has a row.
  have rounds := foldlM_eq_some_foldl (l := List.range r.objectCount) (f := closeThrough?)
    (g := closeThrough) (I := fun rows => rows.size = r.objectCount)
    (fun rows size k hk => ⟨closeThrough?_eq_some (size ▸ List.mem_range.mp hk),
      by rw [closeThrough, Array.size_map, size]⟩)
    (x := r.rows) (by simp [rows_eq])
  obtain ⟨succeed, size⟩ := rounds
  rw [transitiveClosure?, succeed]
  exact ofRows?_eq_some (fun a ha => getElem?_eq_some_getD ∅ (size.symm ▸ ha)) closed_bounded

theorem reflexiveTransitiveClosure?_eq_some :
    r.reflexiveTransitiveClosure? = some r.reflexiveTransitiveClosure := by
  have loops : identity? (.full r.objectCount) = some (identity (.full r.objectCount)) :=
    identity?_eq_some fun a ha => ObjectSet.contains_full.mp ha
  rw [reflexiveTransitiveClosure?, transitiveClosure?_eq_some, loops]
  rfl

theorem image?_eq_some (hd : ∀ a ∈ d.members, a < r.objectCount) :
    r.image? d = some (r.image d) := by
  have within : ∀ b ∈ (d.objects.bind fun a => r.rows.getD a ∅).toList, b < r.objectCount := by
    intro b hb
    rw [NatSet.mem_toList, NatSet.mem_iff, NatSet.contains_bind] at hb
    obtain ⟨a, -, hab⟩ := hb
    exact lt_of_contains_getD_rows hab
  rw [image?, NatSet.bind?_eq_some fun a ha => getElem?_rows (hd a ha)]
  exact if_pos within

end ObjectRelation

theorem ObjectSet.projection?_eq_some {r : ObjectRelation} {i : Nat} :
    projection? r i = some (projection r i) := by
  unfold projection? projection
  split
  · exact withRow?_eq_some
  · exact ObjectRelation.image?_eq_some fun a ha => contains_full.mp ha

/-! ## Distances -/

theorem DistanceTable.leastFrom?_eq_some {t : DistanceTable} {a : Nat} {ends : List Nat}
    (ht : ObjectRelation.Square n t) (ha : a < n) (hends : ∀ b ∈ ends, b < n) :
    t.leastFrom? a ends = some (t.leastFrom a ends) := by
  have entries : ∀ b ∈ ends, t.get? a b = some (t.get a b) := by
    intro b hb
    have row : b < (t.getD a #[]).size := (ht.row ha).symm ▸ hends b hb
    rw [get?, getElem?_eq_some_getD #[] (ht.size.symm ▸ ha)]
    exact getElem?_eq_some_getD unreachable row
  rw [leastFrom?, mapM_eq_some_map entries, leastFrom_eq]
  rfl

namespace ObjectRelation

variable {d e : ObjectSet} {r t q : ObjectRelation}

theorem layersFrom?_eq_some {rows : Array NatSet} {fuel : Nat} {seen frontier : NatSet}
    (bounded : ∀ a b, (rows.getD a ∅).contains b = true → b < rows.size)
    (hfrontier : ∀ a ∈ frontier, a < rows.size) :
    layersFrom? rows fuel seen frontier = some (layersFrom rows fuel seen frontier) := by
  induction fuel generalizing seen frontier with
  | zero => rfl
  | succ fuel ih =>
    rw [layersFrom?, layersFrom]
    split
    · rfl
    · rw [NatSet.bind?_eq_some fun a ha => getElem?_eq_some_getD ∅ (hfrontier a ha)]
      -- What a step reaches is in a row, and only objects are.
      have next : ∀ b ∈ (frontier.bind fun a => rows.getD a ∅).diff seen, b < rows.size := by
        intro b hb
        rw [NatSet.mem_iff, NatSet.contains_diff, Bool.and_eq_true, NatSet.contains_bind] at hb
        obtain ⟨⟨a, -, hab⟩, -⟩ := hb
        exact bounded a b hab
      simp only [Option.bind_eq_bind, Option.bind_some, ih next, Option.pure_def]

theorem distancesFrom?_eq_some (hd : ∀ a ∈ d.members, a < r.objectCount) :
    r.distancesFrom? d = some (r.distancesFrom d) := by
  have size : r.rows.size = r.objectCount := by simp [rows_eq]
  have sources : ∀ a ∈ d.toList, a < r.objectCount := fun a ha => hd a (ObjectSet.mem_toList.mp ha)
  have layers : layersFrom? r.rows r.objectCount d.objects d.objects =
      some (layersFrom r.rows r.objectCount d.objects d.objects) :=
    layersFrom?_eq_some (fun a b hab => size.symm ▸ lt_of_contains_getD_rows hab)
      fun a ha => size.symm ▸ hd a ha
  rw [distancesFrom?, if_pos sources, layers]
  rfl

theorem size_distancesFrom : (r.distancesFrom d).size = r.objectCount := Array.size_ofFn

theorem relaxRow?_eq_some (onward row : Array Nat) (k : Nat) (hk : k < row.size)
    (size : row.size = onward.size) :
    relaxRow? onward k row =
      some (if row.getD k unreachable = unreachable then row
        else Array.zipWith
          (fun direct rest => min direct (saturatingAdd (row.getD k unreachable) rest))
          row onward) := by
  rw [relaxRow?, getElem?_eq_some_getD unreachable hk]
  simp only [Option.bind_eq_bind, Option.bind_some, if_pos size]
  exact (apply_ite some _ _ _).symm

theorem Square.size_of_mem {t : DistanceTable} (ht : Square n t) :
    ∀ row ∈ t.toList, row.size = n := by
  intro row hrow
  obtain ⟨a, ha, rfl⟩ := Array.mem_iff_getElem.mp (Array.mem_toList_iff.mp hrow)
  have size := ht.row (ht.size ▸ ha)
  rwa [Array.getD_eq_getD_getElem?, Array.getElem?_eq_getElem ha] at size

theorem relaxThrough?_eq_some {t : DistanceTable} {k : Nat} (ht : Square n t) (hk : k < n) :
    relaxThrough? t k = some (relaxThrough t k) := by
  have rows := fun row hrow => relaxRow?_eq_some (t.getD k #[]) row k
    (ht.size_of_mem row hrow ▸ hk) ((ht.size_of_mem row hrow).trans (ht.row hk).symm)
  rw [relaxThrough?, getElem?_eq_some_getD #[] (ht.size.symm ▸ hk)]
  simp only [Option.bind_eq_bind, Option.bind_some, mapM_eq_some_map rows, Option.pure_def]
  rw [← List.map_toArray, Array.toArray_toList]
  rfl

theorem pairwiseDistances?_eq_some (hr : r.Valid) :
    r.pairwiseDistances? = some r.pairwiseDistances ∧ Square r.objectCount r.pairwiseDistances := by
  have rounds := foldlM_eq_some_foldl (l := List.range r.objectCount) (f := relaxThrough?)
    (g := relaxThrough) (I := Square r.objectCount)
    (fun t ht k hk => ⟨relaxThrough?_eq_some ht (List.mem_range.mp hk),
      square_relaxThrough ht (List.mem_range.mp hk)⟩) (square_stepDistances (r := r))
  obtain ⟨succeed, square⟩ := rounds
  refine ⟨?_, square⟩
  rw [pairwiseDistances?, if_pos hr.lt_of_mem_toList]
  exact succeed

theorem successors?_eq_some {a : Nat} (ha : a < r.objectCount) :
    r.successors? a = some (r.successors a) := if_pos ha

end ObjectRelation

section Distances

variable {d e : ObjectSet} {r t q : ObjectRelation}

open ObjectRelation

theorem setDistance?_eq_some (hd : ∀ a ∈ d.members, a < r.objectCount)
    (he : ∀ a ∈ e.members, a < r.objectCount) :
    setDistance? d r e = some (setDistance d r e) := by
  have read : ∀ b ∈ e.toList, (r.distancesFrom d)[b]? =
      some ((r.distancesFrom d).getD b unreachable) := by
    intro b hb
    refine getElem?_eq_some_getD unreachable ?_
    rw [size_distancesFrom]
    exact he b (ObjectSet.mem_toList.mp hb)
  rw [setDistance?, distancesFrom?_eq_some hd]
  simp only [Option.bind_eq_bind, Option.bind_some, mapM_eq_some_map read, Option.pure_def]
  rfl

theorem sumSetDistance?_eq_some (hr : r.Valid) (hd : ∀ a ∈ d.members, a < r.objectCount)
    (he : ∀ a ∈ e.members, a < r.objectCount) :
    sumSetDistance? d r e = some (sumSetDistance d r e) := by
  have read : ∀ a ∈ d.toList, (r.inverse.distancesFrom e)[a]? =
      some ((r.inverse.distancesFrom e).getD a unreachable) := by
    intro a ha
    refine getElem?_eq_some_getD unreachable ?_
    rw [size_distancesFrom]
    exact hd a (ObjectSet.mem_toList.mp ha)
  rw [sumSetDistance?, inverse?_eq_some hr]
  simp only [Option.bind_eq_bind, Option.bind_some]
  rw [distancesFrom?_eq_some (r := r.inverse) he]
  simp only [Option.bind_some, mapM_eq_some_map read, Option.pure_def]
  rfl

theorem rowDistance?_eq_some {distances : DistanceTable} {a : Nat} (hq : q.objectCount = n)
    (ht : t.objectCount = n) (square : Square n distances) (ha : a < n) :
    rowDistance? q t distances a = some (rowDistance q t distances a) := by
  have ends : ∀ c ∈ t.successors a, c < n := fun c hc =>
    ht ▸ ((mem_successors (ht.symm ▸ ha)).mp hc).2.1
  have read : ∀ b ∈ q.successors a, distances.leastFrom? b (t.successors a) =
      some (distances.leastFrom b (t.successors a)) := by
    intro b hb
    have hb : b < n := hq ▸ ((mem_successors (hq.symm ▸ ha)).mp hb).2.1
    exact DistanceTable.leastFrom?_eq_some square hb ends
  rw [rowDistance?, successors?_eq_some (ht.symm ▸ ha), successors?_eq_some (hq.symm ▸ ha)]
  simp only [Option.bind_eq_bind, Option.bind_some, mapM_eq_some_map read, Option.pure_def]
  rfl

theorem roleDistance?_eq_some (hr : r.Valid) (hq : q.objectCount = r.objectCount)
    (ht : t.objectCount = r.objectCount) : roleDistance? q r t = some (roleDistance q r t) := by
  obtain ⟨table, square⟩ := pairwiseDistances?_eq_some hr
  have rows : ∀ a ∈ List.range r.objectCount, rowDistance? q t r.pairwiseDistances a =
      some (rowDistance q t r.pairwiseDistances a) :=
    fun a ha => rowDistance?_eq_some hq ht square (List.mem_range.mp ha)
  rw [roleDistance?, table]
  simp only [Option.bind_eq_bind, Option.bind_some, mapM_eq_some_map rows, Option.pure_def]
  rfl

theorem sumRoleDistance?_eq_some (hr : r.Valid) (hq : q.objectCount = r.objectCount)
    (ht : t.objectCount = r.objectCount) :
    sumRoleDistance? q r t = some (sumRoleDistance q r t) := by
  obtain ⟨table, square⟩ := pairwiseDistances?_eq_some hr
  have rows : ∀ a ∈ List.range r.objectCount, (do return (a, ← q.successors? a) : Option _) =
      some (a, q.successors a) := by
    intro a ha
    rw [successors?_eq_some (hq.symm ▸ List.mem_range.mp ha)]
    rfl
  have starts : (((List.range r.objectCount).map fun a => (a, q.successors a)).filter
        fun row => !row.2.isEmpty).map Prod.fst =
      (List.range r.objectCount).filter fun a => !(q.successors a).isEmpty := by
    rw [List.filter_map, List.map_map]
    exact List.map_id _
  have read : ∀ a ∈ (List.range r.objectCount).filter (fun a => !(q.successors a).isEmpty),
      rowDistance? q t r.pairwiseDistances a = some (rowDistance q t r.pairwiseDistances a) :=
    fun a ha => rowDistance?_eq_some hq ht square (List.mem_range.mp (List.mem_filter.mp ha).1)
  rw [sumRoleDistance?, table]
  simp only [Option.bind_eq_bind, Option.bind_some, Option.pure_def] at rows ⊢
  rw [mapM_eq_some_map rows]
  simp only [Option.bind_some, starts, mapM_eq_some_map read]
  rfl

end Distances

/-! ## Nodes and terms within the objects -/

/-- The denotation is within `n` objects: its members and pairs are of objects, and a number is at
most the greatest value. -/
def Meaning.Within (n : Nat) : {c : Category} → Meaning c → Prop
  | .concept, (d : ObjectSet) => d.objectCount = n ∧ ∀ a ∈ d.members, a < n
  | .role, (r : ObjectRelation) => r.objectCount = n ∧ r.Valid
  | .numerical, (x : Nat) => x ≤ unreachable
  | .boolean, _ => True

section Nodes

variable {v : Vocabulary} {s : State} {c : Category}

theorem Meaning.Within.isOver {d : Meaning c} (h : Meaning.Within n d) :
    Meaning.isOver n d = true := by
  cases c with
  | concept | role => exact beq_iff_eq.mpr h.1
  | numerical | boolean => rfl

/-- The places of an atom that a predicate with positions in range asks for are there. -/
theorem State.exists_object (hs : s.problem.Valid v) {p : Predicate} {i : Nat}
    (hp : v.predicates[p.index]? = some p) (hi : i < p.arity) :
    ∀ a ∈ s.trueAtomsOf p.index, ∃ x, a.objects[i]? = some x ∧ x < s.objectCount := by
  intro a ha
  obtain ⟨⟨k, hk, true⟩, same⟩ := mem_trueAtomsOf.mp ha
  obtain ⟨q, hq, length⟩ := hs.atom_arity (Array.mem_of_getElem? hk)
  rw [same, hp] at hq
  cases hq
  have there : a.objects[i]? = some a.objects[i] := List.getElem?_eq_getElem (length.symm ▸ hi)
  exact ⟨_, there, Holds.lt ⟨k, hk, true⟩ hs there⟩

/-- No check of an operator fails that forms concepts. -/
theorem Node.compute?_concept (hs : s.problem.Valid v) {o : Operator .concept}
    {a : Args Meaning o.signature} (names : a.checkNames v = .ok ())
    (positions : (⟨o, a⟩ : Node Meaning _).checkPositions = .ok ())
    (within : a.All (Meaning.Within s.objectCount)) :
    Node.compute? s ⟨o, a⟩ = some (Node.denote s ⟨o, a⟩) := by
  cases o
  case primitiveConcept =>
    casesm* Args _ _
    rename_i p i
    have owned := (Args.checkNames_predicate.mp names).1
    exact ObjectSet.mapM_ofList?_eq_some
      (State.exists_object hs (beq_iff_eq.mp owned) (checkPositions_primitiveConcept.mp positions))
  case oneOf =>
    casesm* Args _ _
    rename_i k
    refine ObjectSet.ofList?_eq_some fun x hx => ?_
    obtain ⟨lt, -⟩ := Array.getElem?_eq_some_iff.mp (hs.mem_objectIndex?.mp hx)
    exact lt
  case someConcept | allConcept =>
    casesm* Args _ _
    exact ObjectSet.withRow?_eq_some
  case subsetConcept | equalConcept =>
    obtain ⟨r, t, rfl, hr, ht⟩ := within.of_two
    exact ObjectSet.withRows?_eq_some (ht.1.trans hr.1.symm)
  case projection =>
    casesm* Args _ _
    exact ObjectSet.projection?_eq_some
  all_goals
    casesm* Args _ _
    rfl

/-- No check of an operator fails that forms roles. -/
theorem Node.compute?_role (hs : s.problem.Valid v) {o : Operator .role}
    {a : Args Meaning o.signature} (names : a.checkNames v = .ok ())
    (positions : (⟨o, a⟩ : Node Meaning _).checkPositions = .ok ())
    (within : a.All (Meaning.Within s.objectCount)) :
    Node.compute? s ⟨o, a⟩ = some (Node.denote s ⟨o, a⟩) := by
  cases o
  case primitiveRole =>
    casesm* Args _ _
    rename_i p i j
    have owned := beq_iff_eq.mp (Args.checkNames_predicate.mp names).1
    obtain ⟨hi, hj⟩ := checkPositions_primitiveRole.mp positions
    refine ObjectRelation.mapM_ofList?_eq_some fun a ha => ?_
    obtain ⟨x, hx, ltx⟩ := State.exists_object hs owned hi a ha
    obtain ⟨y, hy, lty⟩ := State.exists_object hs owned hj a ha
    exact ⟨(x, y), by rw [hx, hy]; rfl, ltx, lty⟩
  case inverse =>
    obtain ⟨r, rfl, hr⟩ := within.of_one
    exact ObjectRelation.inverse?_eq_some hr.2
  case compose =>
    obtain ⟨r, t, rfl, hr, ht⟩ := within.of_two
    exact ObjectRelation.compose?_eq_some (ht.1.trans hr.1.symm)
  case restrict =>
    casesm* Args _ _
    exact ObjectRelation.restrict?_eq_some
  case identity =>
    obtain ⟨d, rfl, hd, lt⟩ := within.of_one
    exact ObjectRelation.identity?_eq_some (hd.symm ▸ lt)
  case transitiveClosure =>
    casesm* Args _ _
    exact ObjectRelation.transitiveClosure?_eq_some
  case transitiveReflexiveClosure =>
    casesm* Args _ _
    exact ObjectRelation.reflexiveTransitiveClosure?_eq_some
  all_goals
    casesm* Args _ _
    rfl

/-- No check of an operator fails that forms numericals. -/
theorem Node.compute?_numerical {o : Operator .numerical} {a : Args Meaning o.signature}
    (within : a.All (Meaning.Within n)) :
    Node.compute? s ⟨o, a⟩ = some (Node.denote s ⟨o, a⟩) := by
  cases o
  case conceptDistance =>
    obtain ⟨d, r, e, rfl, ⟨hd, ltd⟩, ⟨hr, -⟩, ⟨he, lte⟩⟩ := within.of_three
    change (match settledDistance? d e with
      | some value => some value
      | none => setDistance? d r e) = some ((settledDistance? d e).getD (setDistance d r e))
    cases settledDistance? d e with
    | some value => rfl
    | none => exact setDistance?_eq_some (hr.symm ▸ ltd) (hr.symm ▸ lte)
  case sumConceptDistance =>
    obtain ⟨d, r, e, rfl, ⟨hd, ltd⟩, ⟨hr, valid⟩, ⟨he, lte⟩⟩ := within.of_three
    change (if d.isEmpty || e.isEmpty then some unreachable else sumSetDistance? d r e) = _
    rw [sumSetDistance?_eq_some valid (hr.symm ▸ ltd) (hr.symm ▸ lte)]
    exact (apply_ite some _ _ _).symm
  case roleDistance =>
    obtain ⟨q, r, t, rfl, ⟨hq, -⟩, ⟨hr, valid⟩, ⟨ht, -⟩⟩ := within.of_three
    change (if q.isEmpty || t.isEmpty then some unreachable else roleDistance? q r t) = _
    rw [roleDistance?_eq_some valid (hq.trans hr.symm) (ht.trans hr.symm)]
    exact (apply_ite some _ _ _).symm
  case sumRoleDistance =>
    obtain ⟨q, r, t, rfl, ⟨hq, -⟩, ⟨hr, valid⟩, ⟨ht, -⟩⟩ := within.of_three
    change (if q.isEmpty || t.isEmpty then some unreachable else sumRoleDistance? q r t) = _
    rw [sumRoleDistance?_eq_some valid (hq.trans hr.symm) (ht.trans hr.symm)]
    exact (apply_ite some _ _ _).symm
  all_goals
    casesm* Args _ _
    rfl

/-- **No check fails.** A node that was let into a factory is evaluated within the objects of the
state if its operands were. -/
theorem Node.denote?_eq_some (hs : s.problem.Valid v) {n : Node Meaning c}
    (names : n.args.checkNames v = .ok ()) (positions : n.checkPositions = .ok ())
    (within : n.args.All (Meaning.Within s.objectCount)) :
    n.denote? s = some (n.denote s) := by
  have objects : (n.args.elements fun d => Meaning.isOver s.objectCount d).all id = true :=
    List.all_eq_true.mpr (Args.all_iff_elements.mp (within.imp fun h => h.isOver))
  rw [denote?, if_pos objects]
  obtain ⟨o, a⟩ := n
  cases c with
  | concept => exact compute?_concept hs names positions within
  | role => exact compute?_role hs names positions within
  | numerical => exact compute?_numerical within
  | boolean =>
    cases o <;> casesm* Args _ _ <;> rfl

theorem least_le (l : List Nat) : least l ≤ unreachable := (le_least_iff.mp le_rfl).1

theorem saturatingSum_le (l : List Nat) : saturatingSum l ≤ unreachable := by
  rw [saturatingSum_eq]
  exact min_le_right _ _

theorem Node.denote_le (n : Node Meaning .numerical) : n.denote s ≤ unreachable := by
  obtain ⟨o, a⟩ := n
  cases o
  case conceptCount | roleCount =>
    casesm* Args _ _
    exact min_le_right _ _
  case conceptDistance =>
    casesm* Args _ _
    rename_i d r e
    change (settledDistance? d e).getD (setDistance d r e) ≤ unreachable
    unfold settledDistance?
    split
    · exact le_rfl
    · split
      · exact Nat.zero_le _
      · exact least_le _
  case sumConceptDistance | sumRoleDistance =>
    casesm* Args _ _
    change (if _ then unreachable else saturatingSum _) ≤ unreachable
    split
    · exact le_rfl
    · exact saturatingSum_le _
  case roleDistance =>
    casesm* Args _ _
    change (if _ then unreachable else least _) ≤ unreachable
    split
    · exact le_rfl
    · exact least_le _

/-- The denotation of a term is within the objects of the state. -/
theorem within_denote (hs : s.problem.Valid v) (t : Term c) :
    Meaning.Within s.objectCount (t.denote s) := by
  have represents := represents_term hs t
  cases c with
  | concept => exact ⟨represents.1, represents.2.1⟩
  | role => exact ⟨represents.1, represents.2.1⟩
  | numerical =>
    rw [← Term.ofNode_node (t := t), Term.denote_ofNode]
    exact Node.denote_le _
  | boolean => trivial

theorem Term.denote?_ofNode (s : State) (n : Node Term c) :
    (ofNode n).denote? s =
      (n.args.map (Term.denote? s)).mapM id >>= fun ds => Node.denote? s ⟨n.operator, ds⟩ :=
  fold_ofNode _ n

theorem Args.mapM_map_eq_some {χ ψ : Category → Type} {ps : List Parameter} {a : Args χ ps}
    {f? : {c : Category} → χ c → Option (ψ c)} {f : {c : Category} → χ c → ψ c}
    (h : a.All fun x => f? x = some (f x)) :
    (a.map (ψ := fun c => Option (ψ c)) f?).mapM id = some (a.map f) := by
  induction h with
  | nil => rfl
  | predicate _ _ ih | constant _ _ ih | position _ _ ih =>
    simp [map, mapM, ih]
  | element hx _ ih =>
    simp [map, mapM, hx, ih]

/-- **No check fails in a term** whose names and positions fit the vocabulary of the state. -/
theorem Term.denote?_eq_some (hs : s.problem.Valid v) {t : Term c} (ht : t.Fits v) :
    t.denote? s = some (t.denote s) := by
  induction t using Term.induction with
  | mk o args ih =>
    change (ofNode ⟨o, args⟩).Fits v at ht
    show (ofNode ⟨o, args⟩).denote? s = some ((ofNode ⟨o, args⟩).denote s)
    obtain ⟨names, positions, fits⟩ := fits_ofNode.mp ht
    have operands := Args.mapM_map_eq_some ((ih.and fits).imp fun h => h.1 h.2)
    rw [denote?_ofNode, operands, denote_ofNode]
    refine Node.denote?_eq_some hs ?_ ?_ ?_
    · simpa using names
    · exact (Node.checkPositions_map (n := ⟨o, args⟩)).trans positions
    · exact Args.all_map.mpr (Args.all_of_forall (within_denote hs) args)

end Nodes

end DescLogic
