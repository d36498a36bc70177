import DescLogic.Proofs.Semantics.Distances
import DescLogic.Proofs.Semantics.Evaluation
import Mathlib.Algebra.BigOperators.Finprod
import Mathlib.Data.Set.Card
/-!
# What numericals denote

`Node.value` gives the number that a numerical denotes in terms of the sets and relations that its
operands stand for: cardinalities, shortest paths, and sums of their lengths. As in `Node.ideal`, no
listing and no table occurs in it.

* `distance R X Y`: the number of steps of a shortest path along `R` from a member of `X` to one of
  `Y`.
* `ObjectRelation.min_getD_distancesFrom`, `ObjectRelation.rowDistance_eq`: both algorithms find
  such distances.
* `Node.denote_eq_value`: the denotation of a numerical is its value.
-/

namespace DescLogic

variable {R Q T : Nat → Nat → Prop} {X Y : Set Nat} {a b x : Nat}

/-! ## Distances between sets -/

/-- The number of steps of a shortest path along `R` from a member of `X` to one of `Y`, or
`unreachable` if there is none shorter than that. -/
noncomputable def distance (R : Nat → Nat → Prop) (X Y : Set Nat) : Nat :=
  capped fun k => ∃ b ∈ X, ∃ c ∈ Y, Steps R b k c

theorem le_distance_iff : x ≤ distance R X Y ↔
    x ≤ unreachable ∧ ∀ b ∈ X, ∀ c ∈ Y, ∀ k, Steps R b k c → x ≤ k := by
  rw [distance, le_capped_iff]
  refine and_congr_right fun _ => ⟨?_, ?_⟩
  · exact fun h b hb c hc k steps => h k ⟨b, hb, c, hc, steps⟩
  · rintro h k ⟨b, hb, c, hc, steps⟩
    exact h b hb c hc k steps

theorem distance_swap : distance (fun x y => R y x) Y X = distance R X Y := by
  refine capped_congr fun k => ⟨?_, ?_⟩
  · rintro ⟨c, hc, b, hb, steps⟩
    exact ⟨b, hb, c, hc, steps.swap⟩
  · rintro ⟨b, hb, c, hc, steps⟩
    exact ⟨c, hc, b, hb, steps.swap⟩

/-! ## Values -/

open Classical in
/-- The number that a numerical denotes. A distance operator has no finite value if the first or
the last of its operands is empty. -/
noncomputable def Node.value : Node Ideal .numerical → Nat
  | ⟨.conceptCount, .element X .nil⟩ => cardinality (Set.ncard X)
  | ⟨.roleCount, .element R .nil⟩ => cardinality (Set.ncard {p : Nat × Nat | R p.1 p.2})
  | ⟨.conceptDistance, .element X (.element R (.element Y .nil))⟩ => distance R X Y
  | ⟨.sumConceptDistance, .element X (.element R (.element Y .nil))⟩ =>
    if X = ∅ ∨ Y = ∅ then unreachable else min (∑ᶠ b ∈ X, distance R {b} Y) unreachable
  | ⟨.roleDistance, .element Q (.element R (.element T .nil))⟩ =>
    capped fun k => ∃ a b c, Q a b ∧ T a c ∧ Steps R b k c
  | ⟨.sumRoleDistance, .element Q (.element R (.element T .nil))⟩ =>
    if (∀ a b, ¬Q a b) ∨ (∀ a c, ¬T a c) then unreachable
    else min (∑ᶠ a ∈ {a | ∃ b, Q a b}, distance R {b | Q a b} {c | T a c}) unreachable

/-! ## Listings -/

section Listing

-- A list without repetitions that has the members of a set.
variable {α : Type} {l : List α} {A : Set α} (nodup : l.Nodup) (members : ∀ a, a ∈ l ↔ a ∈ A)

include nodup members

theorem length_eq_ncard : l.length = Set.ncard A := by
  classical
  have coe : A = l.toFinset := Set.ext fun a => by simp [members]
  rw [coe, Set.ncard_coe_finset, List.toFinset_card_of_nodup nodup]

theorem sum_map_eq_finsum (f : α → Nat) : (l.map f).sum = ∑ᶠ a ∈ A, f a := by
  classical
  have coe : A = l.toFinset := Set.ext fun a => by simp [members]
  rw [coe, finsum_mem_coe_finset, List.sum_toFinset f nodup]

end Listing

namespace ObjectSet

variable {d e : ObjectSet}

theorem mem_toList : a ∈ d.toList ↔ a ∈ d.members := by
  simp [toList, members, contains, NatSet.mem_iff]

theorem nodup_toList : d.toList.Nodup :=
  (NatSet.toList_pairwise_lt d.objects).imp Nat.ne_of_lt

theorem size_eq_ncard : d.size = Set.ncard d.members :=
  (NatSet.size_eq d.objects).trans (length_eq_ncard nodup_toList fun _ => mem_toList)

theorem isEmpty_iff : d.isEmpty = true ↔ d.members = ∅ := by
  rw [isEmpty, NatSet.isEmpty_eq_true_iff, Set.eq_empty_iff_forall_notMem]
  exact forall_congr' fun a => (Bool.not_eq_true _).symm.to_iff

theorem intersects_iff : d.intersects e = true ↔ ∃ a ∈ d.members, a ∈ e.members :=
  NatSet.intersects_eq_true_iff

end ObjectSet

namespace ObjectRelation

variable {r q t : ObjectRelation} {d e sources : ObjectSet}

theorem nodup_toList : r.toList.Nodup := by
  refine List.Nodup.map ?_ ((NatSet.toList_pairwise_lt r.pairs).imp Nat.ne_of_lt)
  intro i j same
  obtain ⟨quotient, remainder⟩ := Prod.mk.inj same
  rw [← Nat.div_add_mod i r.objectCount, quotient, remainder, Nat.div_add_mod]

theorem size_eq_ncard (hr : r.Valid) :
    r.size = Set.ncard {p : Nat × Nat | r.Relates p.1 p.2} := by
  have listed : r.size = r.toList.length := by
    rw [size, NatSet.size_eq, toList, List.length_map]
  exact listed.trans (length_eq_ncard nodup_toList fun _ => mem_toList hr)

theorem mem_successors (ha : a < r.objectCount) : b ∈ r.successors a ↔ r.Relates a b := by
  simp [successors, NatSet.mem_iff, Relates, ha]

/-! ## Distances between denotations -/

/-- A search in breadth finds the distances from its sources. -/
theorem min_getD_distancesFrom (hs : ∀ a ∈ sources.members, a < r.objectCount) :
    min ((r.distancesFrom sources).getD b unreachable) unreachable =
      distance r.Relates sources.members {b} := by
  refine eq_of_forall_le_iff fun x => ?_
  rw [le_min_iff, and_comm, le_distance_iff]
  refine and_congr_right fun hx => ?_
  rw [le_getD_distancesFrom_iff hs hx]
  simp only [Set.mem_singleton_iff, forall_eq]
  exact ⟨fun h a ha k => h k a ha, fun h k a ha => h a ha k⟩

theorem setDistance_eq (hd : ∀ a ∈ d.members, a < r.objectCount) :
    setDistance d r e = distance r.Relates d.members e.members := by
  refine eq_of_forall_le_iff fun x => ?_
  rw [setDistance, le_least_iff, le_distance_iff, List.forall_mem_map]
  refine and_congr_right fun hx => ?_
  simp only [le_getD_distancesFrom_iff hd hx, ObjectSet.mem_toList]
  exact ⟨fun h a ha b hb k => h b hb k a ha, fun h b hb k a ha => h a ha b hb k⟩

/-- Sets that share an object have no distance, and an empty set is out of reach. -/
theorem settledDistance?_getD_setDistance (hd : ∀ a ∈ d.members, a < r.objectCount) :
    (settledDistance? d e).getD (setDistance d r e) =
      distance r.Relates d.members e.members := by
  rw [settledDistance?]
  split
  · next empty =>
    rw [Bool.or_eq_true, ObjectSet.isEmpty_iff, ObjectSet.isEmpty_iff] at empty
    refine (capped_eq_unreachable ?_).symm
    rcases empty with empty | empty <;> simp [empty]
  · split
    · next shared =>
      obtain ⟨a, ha, ha'⟩ := ObjectSet.intersects_iff.mp shared
      have := (le_distance_iff.mp le_rfl).2 a ha a ha' 0 (.refl (R := r.Relates))
      exact (Nat.le_zero.mp this).symm
    · exact setDistance_eq hd

theorem sumSetDistance_eq (hr : r.Valid) (he : ∀ a ∈ e.members, a < r.objectCount) :
    sumSetDistance d r e =
      min (∑ᶠ b ∈ d.members, distance r.Relates {b} e.members) unreachable := by
  have back : r.inverse.Relates = fun a b => r.Relates b a :=
    funext₂ fun a b => propext (relates_inverse hr)
  have term : ∀ b, min ((r.inverse.distancesFrom e).getD b unreachable) unreachable =
      distance r.Relates {b} e.members := by
    intro b
    rw [min_getD_distancesFrom (r := r.inverse) he, back, distance_swap]
  rw [sumSetDistance, ← saturatingSum_map_min, List.map_map, saturatingSum_eq]
  simp only [Function.comp_def, term]
  rw [sum_map_eq_finsum ObjectSet.nodup_toList fun _ => ObjectSet.mem_toList]

/-- The row distance of an object is the distance between its successors. -/
theorem rowDistance_eq (hq : q.objectCount = r.objectCount) (ht : t.objectCount = r.objectCount)
    (ha : a < r.objectCount) :
    rowDistance q t r.pairwiseDistances a =
      distance r.Relates {b | q.Relates a b} {c | t.Relates a c} := by
  refine eq_of_forall_le_iff fun x => ?_
  rw [rowDistance, le_least_iff, List.forall_mem_map, le_distance_iff]
  refine and_congr_right fun hx => forall_congr' fun b => ?_
  rw [mem_successors (hq ▸ ha)]
  refine forall_congr' fun hab => ?_
  rw [DistanceTable.leastFrom_eq, le_least_iff, List.forall_mem_map, and_iff_right hx]
  refine forall_congr' fun c => ?_
  rw [mem_successors (ht ▸ ha), get_pairwiseDistances (hq ▸ hab.2.1), le_capped_iff,
    and_iff_right hx]
  exact Iff.rfl

/-- The least of the row distances. -/
theorem roleDistance_eq (hq : q.objectCount = r.objectCount) (ht : t.objectCount = r.objectCount) :
    roleDistance q r t =
      capped fun k => ∃ a b c, q.Relates a b ∧ t.Relates a c ∧ Steps r.Relates b k c := by
  refine eq_of_forall_le_iff fun x => ?_
  rw [roleDistance, le_least_iff, List.forall_mem_map, le_capped_iff]
  refine and_congr_right fun hx => ?_
  constructor
  · rintro h k ⟨a, b, c, hab, hac, steps⟩
    have ha : a < r.objectCount := hq ▸ hab.1
    have row := h a (List.mem_range.mpr ha)
    rw [rowDistance_eq hq ht ha] at row
    exact (le_distance_iff.mp row).2 b hab c hac k steps
  · intro h a ha
    rw [rowDistance_eq hq ht (List.mem_range.mp ha), le_distance_iff]
    exact ⟨hx, fun b hab c hac k steps => h k ⟨a, b, c, hab, hac, steps⟩⟩

theorem sumRoleDistance_eq (hq : q.objectCount = r.objectCount)
    (ht : t.objectCount = r.objectCount) :
    sumRoleDistance q r t =
      min (∑ᶠ a ∈ {a | ∃ b, q.Relates a b},
        distance r.Relates {b | q.Relates a b} {c | t.Relates a c}) unreachable := by
  have rows : ∀ a, a ∈ (List.range r.objectCount).filter (fun a => !(q.successors a).isEmpty) ↔
      a ∈ {a | ∃ b, q.Relates a b} := by
    intro a
    rw [List.mem_filter, List.mem_range, Bool.not_eq_true', List.isEmpty_eq_false_iff_exists_mem]
    constructor
    · rintro ⟨ha, b, hb⟩
      exact ⟨b, (mem_successors (hq ▸ ha)).mp hb⟩
    · rintro ⟨b, hab⟩
      exact ⟨hq ▸ hab.1, b, (mem_successors hab.1).mpr hab⟩
  have term : ∀ a ∈ (List.range r.objectCount).filter (fun a => !(q.successors a).isEmpty),
      rowDistance q t r.pairwiseDistances a =
        distance r.Relates {b | q.Relates a b} {c | t.Relates a c} :=
    fun a ha => rowDistance_eq hq ht (List.mem_range.mp (List.mem_filter.mp ha).1)
  rw [sumRoleDistance, saturatingSum_eq, List.map_congr_left term,
    sum_map_eq_finsum (List.nodup_range.filter _) rows]

end ObjectRelation

/-! ## Nodes -/

section Nodes

variable {n : Nat}

theorem Represents.members {d : ObjectSet} (h : Represents n (c := .concept) d X) :
    d.members = X := Set.ext h.2.2

theorem Represents.relates {r : ObjectRelation} (h : Represents n (c := .role) r R) :
    r.Relates = R := funext₂ fun a b => propext (h.2.2 a b)

/-- **A numerical denotes its value.** -/
theorem Node.denote_eq_value (s : State) {o : Operator .numerical} {ds : Args Meaning o.signature}
    {as : Args Ideal o.signature} (h : ds.Rel (Represents n) as) :
    Node.denote s ⟨o, ds⟩ = Node.value ⟨o, as⟩ := by
  classical
  cases o
  case conceptCount =>
    obtain ⟨d, X, rfl, rfl, hd⟩ := h.of_one
    obtain rfl := hd.members
    exact congrArg cardinality ObjectSet.size_eq_ncard
  case roleCount =>
    obtain ⟨r, R, rfl, rfl, hr⟩ := h.of_one
    obtain rfl := hr.relates
    exact congrArg cardinality (ObjectRelation.size_eq_ncard hr.2.1)
  case conceptDistance =>
    obtain ⟨d, r, e, X, R, Y, rfl, rfl, hd, hr, he⟩ := h.of_three
    obtain rfl := hd.members
    obtain rfl := hr.relates
    obtain rfl := he.members
    exact ObjectRelation.settledDistance?_getD_setDistance fun a ha => hr.1 ▸ hd.2.1 a ha
  case sumConceptDistance =>
    obtain ⟨d, r, e, X, R, Y, rfl, rfl, hd, hr, he⟩ := h.of_three
    obtain rfl := hd.members
    obtain rfl := hr.relates
    obtain rfl := he.members
    refine if_congr ?_ rfl ?_
    · rw [Bool.or_eq_true, ObjectSet.isEmpty_iff, ObjectSet.isEmpty_iff]
    · exact ObjectRelation.sumSetDistance_eq hr.2.1 fun a ha => hr.1 ▸ he.2.1 a ha
  case roleDistance =>
    obtain ⟨q, r, t, Q, R, T, rfl, rfl, hq, hr, ht⟩ := h.of_three
    obtain rfl := hq.relates
    obtain rfl := hr.relates
    obtain rfl := ht.relates
    change ite _ _ _ = capped _
    split
    · next empty =>
      rw [Bool.or_eq_true, ObjectRelation.isEmpty_iff hq.2.1,
        ObjectRelation.isEmpty_iff ht.2.1] at empty
      refine (capped_eq_unreachable ?_).symm
      rcases empty with empty | empty <;> simp [empty]
    · exact ObjectRelation.roleDistance_eq (hq.1.trans hr.1.symm) (ht.1.trans hr.1.symm)
  case sumRoleDistance =>
    obtain ⟨q, r, t, Q, R, T, rfl, rfl, hq, hr, ht⟩ := h.of_three
    obtain rfl := hq.relates
    obtain rfl := hr.relates
    obtain rfl := ht.relates
    refine if_congr ?_ rfl ?_
    · rw [Bool.or_eq_true, ObjectRelation.isEmpty_iff hq.2.1, ObjectRelation.isEmpty_iff ht.2.1]
    · exact ObjectRelation.sumRoleDistance_eq (hq.1.trans hr.1.symm) (ht.1.trans hr.1.symm)

end Nodes

/-- A numerical denotes the value of its node, where the operands stand for what they do. -/
theorem Term.denote_eq_value {v : Vocabulary} {s : State} (hs : s.problem.Valid v)
    (t : Term .numerical) : t.denote s = (t.node.map (ideal s)).value := by
  conv_lhs => rw [← ofNode_node (t := t), denote_ofNode]
  refine Node.denote_eq_value (n := s.objectCount) s ?_
  exact Args.rel_map_left.mpr (Args.rel_map_right.mpr (Args.rel_diagonal
    (Args.all_of_forall (fun u => represents_term hs u) _)))

end DescLogic
