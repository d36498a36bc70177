import DescLogic.Generator.Candidates
import DescLogic.Proofs.Generator.Family
import DescLogic.Proofs.Vocabulary
/-!
# What rules propose

The nodes that a rule proposes are those it may form: from names of the vocabulary if it is a seed
rule, and from elements kept earlier whose complexities add up otherwise. Of two nodes that differ
in the order of exchangeable operands, one is proposed.

* `Rule.of_mem_candidates`: proposed nodes are proper, their names and positions fit, and their
  operands were kept.
* `Rule.mem_candidates`: all such nodes are proposed, up to exchanging operands.
-/

namespace DescLogic.Generator

variable {α : Type} {c : Category}

/-! ## Levels -/

namespace Buckets

/-- No element is held twice. -/
structure Single (b : Buckets α) : Prop where
  /-- A level holds an element once. -/
  nodup : ∀ n, (b.level n).Nodup
  /-- No element is held at two levels. -/
  unique : ∀ {m n : Nat} {x : α}, x ∈ b.level m → x ∈ b.level n → m = n

/-- No element is held twice, and none has complexity `0`. -/
structure Tidy (b : Buckets α) : Prop where
  /-- A level holds an element once. -/
  nodup : ∀ n, (b.level n).Nodup
  /-- No element is held at two levels. -/
  unique : ∀ {m n : Nat} {x : α}, x ∈ b.level m → x ∈ b.level n → m = n
  /-- No element has complexity `0`. -/
  pos : ∀ {n : Nat} {x : α}, x ∈ b.level n → 1 ≤ n

theorem Tidy.single {b : Buckets α} (hb : b.Tidy) : b.Single := ⟨hb.nodup, hb.unique⟩

theorem mem_level_push {b : Buckets α} {m n : Nat} {x y : α} :
    y ∈ (b.push m x).level n ↔ y ∈ b.level n ∨ m = n ∧ y = x := by
  rw [level_push]
  by_cases h : m = n <;> simp [h]

theorem tidy_empty : (empty : Buckets α).Tidy := by
  constructor <;> simp

theorem Tidy.push {b : Buckets α} (hb : b.Tidy) {m : Nat} {x : α} (pos : 1 ≤ m)
    (new : ∀ n, x ∉ b.level n) : (b.push m x).Tidy := by
  constructor
  · intro n
    rw [level_push]
    by_cases h : m = n
    · rw [if_pos h, List.nodup_append]
      refine ⟨hb.nodup n, List.pairwise_singleton .., ?_⟩
      intro y hy z hz hyz
      rw [List.mem_singleton] at hz
      subst hz hyz
      exact new n hy
    · rw [if_neg h]
      exact hb.nodup n
  · intro i j y hi hj
    rw [mem_level_push] at hi hj
    rcases hi with hi | ⟨hi, hx⟩ <;> rcases hj with hj | ⟨hj, hx'⟩
    · exact hb.unique hi hj
    · exact absurd (hx' ▸ hi) (new i)
    · exact absurd (hx ▸ hj) (new j)
    · rw [← hi, ← hj]
  · intro n y hy
    rw [mem_level_push] at hy
    rcases hy with hy | ⟨rfl, -⟩
    · exact hb.pos hy
    · exact pos

end Buckets

/-! ## Pairs -/

section Pairs

variable {b : Buckets α} {n : Nat} {x y : α}

theorem mem_distinctPairs [DecidableEq α] :
    (x, y) ∈ (distinctPairs b n).toList ↔ (x, y) ∈ (pairs b b n).toList ∧ x ≠ y := by
  simp [distinctPairs]

theorem of_mem_laterPairs {l : List α} (hl : l.Nodup) (h : (x, y) ∈ (laterPairs l).toList) :
    x ∈ l ∧ y ∈ l ∧ x ≠ y := by
  induction l with
  | nil => simp [laterPairs] at h
  | cons a l ih =>
    obtain ⟨ha, hl⟩ := List.nodup_cons.mp hl
    simp only [laterPairs, LazyList.toList_append, LazyList.toList_map, LazyList.toList_ofList,
      List.mem_append, List.mem_map, Prod.mk.injEq] at h
    rcases h with ⟨b, hb, rfl, rfl⟩ | h
    · have apart : a ≠ b := fun h => ha (h ▸ hb)
      exact ⟨List.mem_cons_self .., List.mem_cons_of_mem _ hb, apart⟩
    · obtain ⟨hx, hy, apart⟩ := ih hl h
      exact ⟨List.mem_cons_of_mem _ hx, List.mem_cons_of_mem _ hy, apart⟩

theorem mem_laterPairs {l : List α} (hx : x ∈ l) (hy : y ∈ l) (apart : x ≠ y) :
    (x, y) ∈ (laterPairs l).toList ∨ (y, x) ∈ (laterPairs l).toList := by
  induction l with
  | nil => cases hx
  | cons a l ih =>
    simp only [laterPairs, LazyList.toList_append, LazyList.toList_map, LazyList.toList_ofList,
      List.mem_append, List.mem_map, Prod.mk.injEq]
    rcases List.mem_cons.mp hx with hax | hx' <;> rcases List.mem_cons.mp hy with hay | hy'
    · exact absurd (hax.trans hay.symm) apart
    · exact .inl (.inl ⟨y, hy', hax.symm, rfl⟩)
    · exact .inr (.inl ⟨x, hx', hay.symm, rfl⟩)
    · exact (ih hx' hy').imp .inr .inr

theorem mem_commutativePairs_iff :
    (x, y) ∈ (commutativePairs b n).toList ↔
      ∃ i, i ∈ b.occupied n ∧ i ≤ n - i ∧
        if i = n - i then (x, y) ∈ (laterPairs (b.level i)).toList
        else x ∈ b.level i ∧ y ∈ b.level (n - i) := by
  simp only [commutativePairs, LazyList.toList_flatMap, LazyList.toList_ofList, List.mem_flatMap,
    List.mem_filter, decide_eq_true_eq, and_assoc]
  refine exists_congr fun i => and_congr_right fun _ => and_congr_right fun _ => ?_
  by_cases h : i = n - i
  · rw [if_pos h, if_pos h]
  · rw [if_neg h, if_neg h]
    simp

theorem of_mem_commutativePairs (hb : b.Single) (h : (x, y) ∈ (commutativePairs b n).toList) :
    (x, y) ∈ (pairs b b n).toList ∧ x ≠ y := by
  obtain ⟨i, hi, hle, h⟩ := mem_commutativePairs_iff.mp h
  rw [mem_pairs]
  by_cases half : i = n - i
  · rw [if_pos half] at h
    obtain ⟨hx, hy, apart⟩ := of_mem_laterPairs (hb.nodup i) h
    have range := (Buckets.mem_occupied (List.ne_nil_of_mem hx)).mp hi
    refine ⟨⟨i, range.1, range.2, hx, ?_⟩, apart⟩
    rw [← half]
    exact hy
  · rw [if_neg half] at h
    have range := (Buckets.mem_occupied (List.ne_nil_of_mem h.1)).mp hi
    refine ⟨⟨i, range.1, range.2, h.1, h.2⟩, ?_⟩
    rintro rfl
    exact half (hb.unique h.1 h.2)

theorem mem_commutativePairs (h : (x, y) ∈ (pairs b b n).toList) (apart : x ≠ y) :
    (x, y) ∈ (commutativePairs b n).toList ∨ (y, x) ∈ (commutativePairs b n).toList := by
  obtain ⟨i, hi, hlt, hx, hy⟩ := mem_pairs.mp h
  simp only [mem_commutativePairs_iff]
  have here := (Buckets.mem_occupied (List.ne_nil_of_mem hx)).mpr ⟨hi, hlt⟩
  have there : n - i ∈ b.occupied n :=
    (Buckets.mem_occupied (List.ne_nil_of_mem hy)).mpr ⟨by omega, by omega⟩
  rcases Nat.lt_trichotomy i (n - i) with less | half | more
  · refine .inl ⟨i, here, by omega, ?_⟩
    rw [if_neg (by omega)]
    exact ⟨hx, hy⟩
  · rw [← half] at hy
    refine (mem_laterPairs hx hy apart).imp ?_ ?_
    all_goals
      intro later
      refine ⟨i, here, by omega, ?_⟩
      rw [if_pos half]
      exact later
  · refine .inr ⟨n - i, there, by omega, ?_⟩
    rw [if_neg (by omega), show n - (n - i) = i by omega]
    exact ⟨hy, hx⟩

end Pairs

/-! ## Nodes over kept elements -/

/-- The elements of a category are in the bucket of that category once each. -/
def Pool.Tidy (pool : Pool) : Prop := ∀ c, (pool.get c).Tidy

/-- The elements among the arguments were kept, and their complexities add up to `n`. -/
def Pool.Holds (pool : Pool) : {ps : List Parameter} → Args Handle ps → Nat → Prop
  | _, .nil, n => n = 0
  | _, .predicate _ rest, n | _, .constant _ rest, n | _, .position _ rest, n =>
    Pool.Holds pool rest n
  | .element c :: _, .element x rest, n =>
    ∃ i j, x ∈ (pool.get c).level i ∧ Pool.Holds pool rest j ∧ i + j = n

section Nodes

variable {pool : Pool} {n : Nat} {d e : Category} {x : Handle c} {y : Handle d} {z : Handle e}

theorem one_le_of_holds_element {ps : List Parameter} {rest : Args Handle ps} (tidy : pool.Tidy)
    (held : Pool.Holds pool (.element x rest) n) : 1 ≤ n := by
  obtain ⟨i, j, hx, -, rfl⟩ := held
  have := (tidy c).pos hx
  omega

theorem holds_one :
    Pool.Holds pool (.element x .nil) n ↔ x ∈ (pool.get c).level n := by
  simp [Pool.Holds]

theorem holds_two (tidy : pool.Tidy) :
    Pool.Holds pool (.element x (.element y .nil)) n ↔
      (x, y) ∈ (pairs (pool.get c) (pool.get d) n).toList := by
  rw [mem_pairs]
  constructor
  · rintro ⟨i, j, hx, hy, rfl⟩
    have hy := holds_one.mp hy
    have := (tidy c).pos hx
    have := (tidy d).pos hy
    refine ⟨i, by omega, by omega, hx, ?_⟩
    rw [Nat.add_sub_cancel_left]
    exact hy
  · rintro ⟨i, hi, hlt, hx, hy⟩
    exact ⟨i, n - i, hx, holds_one.mpr hy, by omega⟩

theorem holds_three (tidy : pool.Tidy) :
    Pool.Holds pool (.element x (.element y (.element z .nil))) n ↔
      (x, y, z) ∈ (triples (pool.get c) (pool.get d) (pool.get e) n).toList := by
  rw [mem_triples]
  constructor
  · rintro ⟨i, _, hx, ⟨j, l, hy, hz, rfl⟩, rfl⟩
    have hz := holds_one.mp hz
    have := (tidy c).pos hx
    have := (tidy d).pos hy
    have := (tidy e).pos hz
    refine ⟨i, j, by omega, by omega, by omega, hx, hy, ?_⟩
    rw [show i + (j + l) - i - j = l by omega]
    exact hz
  · rintro ⟨i, j, hi, hj, hlt, hx, hy, hz⟩
    exact ⟨i, n - i, hx, ⟨j, n - i - j, hy, holds_one.mpr hz, by omega⟩, by omega⟩

end Nodes

section Shapes

variable {d e : Category} {o : Operator c} {y : AnyNode}

theorem mem_append {l : LazyList AnyNode} {m : Unit → LazyList AnyNode} :
    y ∈ (l.append m).toList ↔ y ∈ l.toList ∨ y ∈ (m ()).toList := by
  simp

theorem mem_unary {h : o.signature = [.element d]} {xs : List (Handle d)} :
    y ∈ (unary o h xs).toList ↔ ∃ x ∈ xs, .of o (h ▸ .element x .nil) = y := by
  simp [unary]

theorem mem_binary {h : o.signature = [.element d, .element e]}
    {xs : LazyList (Handle d × Handle e)} :
    y ∈ (binary o h xs).toList ↔
      ∃ a b, (a, b) ∈ xs.toList ∧ .of o (h ▸ .element a (.element b .nil)) = y := by
  simp [binary]

theorem mem_distances {h : o.signature = [.element d, .element e, .element d]}
    {xs : LazyList (Handle d × Handle e × Handle d)} :
    y ∈ (distances o h xs).toList ↔
      ∃ a b z, (a, b, z) ∈ xs.toList ∧ a ≠ z ∧
        .of o (h ▸ .element a (.element b (.element z .nil))) = y := by
  simp [distances, and_assoc]

end Shapes

end DescLogic.Generator

namespace DescLogic.Rule

open Generator

variable {pool : Pool} {n : Nat} {rule : Rule} {c : Category} {y : AnyNode}

variable {v : Vocabulary}

theorem mem_seeds_primitiveConcept :
    y ∈ (primitiveConcept.seeds v).toList ↔
      ∃ p ∈ v.predicates, ∃ i, i < p.arity ∧
        .of .primitiveConcept (.predicate p (.position i .nil)) = y := by
  simp [seeds]

theorem mem_seeds_primitiveRole :
    y ∈ (primitiveRole.seeds v).toList ↔
      ∃ p ∈ v.predicates, ∃ i j, i < j ∧ j < p.arity ∧
        .of .primitiveRole (.predicate p (.position i (.position j .nil))) = y := by
  simp only [seeds, LazyList.toList_flatMap, LazyList.toList_ofList, LazyList.toList_map,
    LazyList.toList_range', List.mem_flatMap, List.mem_map, List.mem_range'_1,
    Array.mem_toList_iff]
  refine exists_congr fun p => and_congr_right fun _ => ?_
  constructor
  · rintro ⟨i, _, j, _, rfl⟩
    exact ⟨i, j, by omega, by omega, rfl⟩
  · rintro ⟨i, j, hij, hj, rfl⟩
    exact ⟨i, by omega, j, by omega, rfl⟩

theorem mem_seeds_nullary :
    y ∈ (nullaryBoolean.seeds v).toList ↔
      ∃ p ∈ v.predicates, p.arity = 0 ∧ .of .nullary (.predicate p .nil) = y := by
  simp [seeds, and_assoc]

theorem mem_seeds_oneOf :
    y ∈ (oneOfConcept.seeds v).toList ↔
      ∃ k ∈ v.constants, .of .oneOf (.constant k .nil) = y := by
  simp [seeds]

/-- What a seed rule proposes is proper, its names and positions fit, and it has no operands. -/
theorem of_mem_seeds (hv : v.Valid) (hy : y ∈ (rule.seeds v).toList) :
    y.2.operator.rule = rule ∧ Pool.Holds pool y.2.args 0 ∧ y.2.Proper ∧
      y.2.checkPositions = .ok () ∧ y.2.args.checkNames v = .ok () := by
  have named {p : Predicate} (hp : p ∈ v.predicates) := hv.ownsPredicate_iff.mpr hp
  cases rule with
  | primitiveConcept =>
    obtain ⟨p, hp, i, hi, rfl⟩ := mem_seeds_primitiveConcept.mp hy
    exact ⟨rfl, rfl, trivial, Node.checkPositions_primitiveConcept.mpr hi,
      Args.checkNames_predicate.mpr ⟨named hp, rfl⟩⟩
  | primitiveRole =>
    obtain ⟨p, hp, i, j, hij, hj, rfl⟩ := mem_seeds_primitiveRole.mp hy
    have hi : i < p.arity := by omega
    exact ⟨rfl, rfl, hij, Node.checkPositions_primitiveRole.mpr ⟨hi, hj⟩,
      Args.checkNames_predicate.mpr ⟨named hp, rfl⟩⟩
  | nullaryBoolean =>
    obtain ⟨p, hp, arity, rfl⟩ := mem_seeds_nullary.mp hy
    exact ⟨rfl, rfl, trivial, Node.checkPositions_nullary.mpr arity,
      Args.checkNames_predicate.mpr ⟨named hp, rfl⟩⟩
  | oneOfConcept =>
    obtain ⟨k, hk, rfl⟩ := mem_seeds_oneOf.mp hy
    have hk := hv.ownsConstant_iff.mpr hk
    exact ⟨rfl, rfl, trivial, rfl, Args.checkNames_constant.mpr ⟨hk, rfl⟩⟩
  | botConcept | topConcept | topRole =>
    obtain rfl := List.mem_singleton.mp hy
    exact ⟨rfl, rfl, trivial, rfl, rfl⟩
  | _ => cases hy

/-- A proper node without operands whose names and positions fit is proposed by its rule. -/
theorem mem_seeds (hv : v.Valid) (tidy : pool.Tidy) (m : Node Handle c)
    (held : Pool.Holds pool m.args 0) (proper : m.Proper) (positions : m.checkPositions = .ok ())
    (names : m.args.checkNames v = .ok ()) : ⟨c, m⟩ ∈ (m.operator.rule.seeds v).toList := by
  obtain ⟨o, args⟩ := m
  cases o with
  | primitiveConcept =>
    rcases args with _ | ⟨p, _ | _ | _ | ⟨i, _ | _⟩⟩
    have hp := hv.ownsPredicate_iff.mp (Args.checkNames_predicate.mp names).1
    have range := Node.checkPositions_primitiveConcept.mp positions
    exact mem_seeds_primitiveConcept.mpr ⟨p, hp, i, range, rfl⟩
  | primitiveRole =>
    rcases args with _ | ⟨p, _ | _ | _ | ⟨i, _ | _ | _ | ⟨j, _ | _⟩⟩⟩
    have hp := hv.ownsPredicate_iff.mp (Args.checkNames_predicate.mp names).1
    have range := Node.checkPositions_primitiveRole.mp positions
    exact mem_seeds_primitiveRole.mpr ⟨p, hp, i, j, proper, range.2, rfl⟩
  | nullary =>
    rcases args with _ | ⟨p, _ | _⟩
    have hp := hv.ownsPredicate_iff.mp (Args.checkNames_predicate.mp names).1
    have arity := Node.checkPositions_nullary.mp positions
    exact mem_seeds_nullary.mpr ⟨p, hp, arity, rfl⟩
  | oneOf =>
    rcases args with _ | _ | ⟨k, _ | _⟩
    have hk := hv.ownsConstant_iff.mp (Args.checkNames_constant.mp names).1
    exact mem_seeds_oneOf.mpr ⟨k, hk, rfl⟩
  | bot | top | topRole =>
    casesm* Args _ _
    exact List.mem_singleton.mpr rfl
  | _ =>
    casesm* Args _ _
    have := one_le_of_holds_element tidy held
    omega

/-- What a rule proposes over kept elements is proper, and its operands were kept. -/
theorem of_mem_composites (tidy : pool.Tidy) (hy : y ∈ (rule.composites pool n).toList) :
    y.2.operator.rule = rule ∧ Pool.Holds pool y.2.args n ∧ y.2.Proper ∧
      y.2.checkPositions = .ok () ∧ ∀ v, y.2.args.checkNames v = .ok () := by
  cases rule with
  | primitiveConcept | botConcept | topConcept | oneOfConcept | primitiveRole | topRole
  | nullaryBoolean => cases hy
  | notConcept | notRole | inverseRole | identityRole | transitiveClosureRole
  | transitiveReflexiveClosureRole =>
    obtain ⟨x, hx, rfl⟩ := (mem_unary (h := rfl)).mp hy
    exact ⟨rfl, holds_one.mpr hx, trivial, rfl, fun _ => rfl⟩
  | countNumerical | emptyBoolean =>
    rcases mem_append.mp hy with hy | hy
    all_goals
      obtain ⟨x, hx, rfl⟩ := (mem_unary (h := rfl)).mp hy
      exact ⟨rfl, holds_one.mpr hx, trivial, rfl, fun _ => rfl⟩
  | andConcept | orConcept | equalConcept | andRole | orRole =>
    obtain ⟨a, b, hab, rfl⟩ := (mem_binary (h := rfl)).mp hy
    obtain ⟨hab, apart⟩ := of_mem_commutativePairs (tidy _).single hab
    exact ⟨rfl, (holds_two tidy).mpr hab, apart, rfl, fun _ => rfl⟩
  | diffConcept | subsetConcept | diffRole | composeRole =>
    obtain ⟨a, b, hab, rfl⟩ := (mem_binary (h := rfl)).mp hy
    obtain ⟨hab, apart⟩ := mem_distinctPairs.mp hab
    exact ⟨rfl, (holds_two tidy).mpr hab, apart, rfl, fun _ => rfl⟩
  | inclusionBoolean =>
    rcases mem_append.mp hy with hy | hy
    all_goals
      obtain ⟨a, b, hab, rfl⟩ := (mem_binary (h := rfl)).mp hy
      obtain ⟨hab, apart⟩ := mem_distinctPairs.mp hab
      exact ⟨rfl, (holds_two tidy).mpr hab, apart, rfl, fun _ => rfl⟩
  | someConcept | allConcept | restrictRole =>
    obtain ⟨a, b, hab, rfl⟩ := (mem_binary (h := rfl)).mp hy
    exact ⟨rfl, (holds_two tidy).mpr hab, trivial, rfl, fun _ => rfl⟩
  | projectionConcept =>
    simp only [composites, LazyList.toList_flatMap, LazyList.toList_ofList, List.mem_flatMap,
      List.mem_cons, List.not_mem_nil, or_false] at hy
    obtain ⟨x, hx, rfl | rfl⟩ := hy
    · exact ⟨rfl, holds_one.mpr hx, trivial, rfl, fun _ => rfl⟩
    · exact ⟨rfl, holds_one.mpr hx, trivial, rfl, fun _ => rfl⟩
  | conceptDistanceNumerical | sumConceptDistanceNumerical | roleDistanceNumerical
  | sumRoleDistanceNumerical =>
    obtain ⟨a, b, z, habz, apart, rfl⟩ := (mem_distances (h := rfl)).mp hy
    exact ⟨rfl, (holds_three tidy).mpr habz, apart, rfl, fun _ => rfl⟩

/-- A proper node over kept elements is proposed by its rule, or it is with its operands
exchanged. -/
theorem mem_composites (tidy : pool.Tidy) (m : Node Handle c) (pos : 1 ≤ n)
    (held : Pool.Holds pool m.args n) (proper : m.Proper) (positions : m.checkPositions = .ok ()) :
    ⟨c, m⟩ ∈ (m.operator.rule.composites pool n).toList ∨
      ⟨c, m.swap⟩ ∈ (m.operator.rule.composites pool n).toList := by
  obtain ⟨o, args⟩ := m
  cases o with
  | primitiveConcept | bot | top | oneOf | primitiveRole | topRole | nullary =>
    casesm* Args _ _
    have : n = 0 := held
    omega
  | notConcept | notRole | inverse | identity | transitiveClosure
  | transitiveReflexiveClosure =>
    casesm* Args _ _
    exact .inl ((mem_unary (h := rfl)).mpr ⟨_, holds_one.mp held, rfl⟩)
  | conceptCount | conceptEmpty =>
    casesm* Args _ _
    exact .inl (mem_append.mpr (.inl ((mem_unary (h := rfl)).mpr ⟨_, holds_one.mp held, rfl⟩)))
  | roleCount | roleEmpty =>
    casesm* Args _ _
    exact .inl (mem_append.mpr (.inr ((mem_unary (h := rfl)).mpr ⟨_, holds_one.mp held, rfl⟩)))
  | andConcept | orConcept | equalConcept | andRole | orRole =>
    casesm* Args _ _
    apply (mem_commutativePairs ((holds_two tidy).mp held) proper).imp
    · exact fun h => (mem_binary (h := rfl)).mpr ⟨_, _, h, rfl⟩
    · exact fun h => (mem_binary (h := rfl)).mpr ⟨_, _, h, rfl⟩
  | diffConcept | subsetConcept | diffRole | compose =>
    casesm* Args _ _
    have apart := mem_distinctPairs.mpr ⟨(holds_two tidy).mp held, proper⟩
    exact .inl ((mem_binary (h := rfl)).mpr ⟨_, _, apart, rfl⟩)
  | conceptInclusion =>
    casesm* Args _ _
    have apart := mem_distinctPairs.mpr ⟨(holds_two tidy).mp held, proper⟩
    exact .inl (mem_append.mpr (.inl ((mem_binary (h := rfl)).mpr ⟨_, _, apart, rfl⟩)))
  | roleInclusion =>
    casesm* Args _ _
    have apart := mem_distinctPairs.mpr ⟨(holds_two tidy).mp held, proper⟩
    exact .inl (mem_append.mpr (.inr ((mem_binary (h := rfl)).mpr ⟨_, _, apart, rfl⟩)))
  | someConcept | allConcept | restrict =>
    casesm* Args _ _
    exact .inl ((mem_binary (h := rfl)).mpr ⟨_, _, (holds_two tidy).mp held, rfl⟩)
  | projection =>
    rcases args with _ | _ | _ | _ | ⟨x, _ | _ | _ | ⟨i, _ | _⟩⟩
    have range := Node.checkPositions_projection.mp positions
    have choice : i = 0 ∨ i = 1 := by omega
    simp only [Operator.rule, composites, LazyList.toList_flatMap, LazyList.toList_ofList,
      List.mem_flatMap, List.mem_cons, List.not_mem_nil, or_false]
    refine .inl ⟨x, holds_one.mp held, choice.imp ?_ ?_⟩
    · rintro rfl
      rfl
    · rintro rfl
      rfl
  | conceptDistance | sumConceptDistance | roleDistance | sumRoleDistance =>
    casesm* Args _ _
    exact .inl ((mem_distances (h := rfl)).mpr ⟨_, _, _, (holds_three tidy).mp held, proper, rfl⟩)

/-- What a rule proposes for complexity `n + 1`. -/
def candidates (v : Vocabulary) (pool : Pool) : (n : Nat) → Rule → LazyList AnyNode
  | 0, rule => rule.seeds v
  | n + 1, rule => rule.composites pool (n + 1)

/-- What a rule proposes is proper, its names and positions fit, and its operands were kept. -/
theorem of_mem_candidates (hv : v.Valid) (tidy : pool.Tidy)
    (hy : y ∈ (rule.candidates v pool n).toList) :
    y.2.operator.rule = rule ∧ Pool.Holds pool y.2.args n ∧ y.2.Proper ∧
      y.2.checkPositions = .ok () ∧ y.2.args.checkNames v = .ok () := by
  cases n with
  | zero => exact of_mem_seeds hv hy
  | succ n =>
    obtain ⟨hrule, held, proper, positions, names⟩ := of_mem_composites tidy hy
    exact ⟨hrule, held, proper, positions, names v⟩

/-- A proper node over kept elements whose names and positions fit is proposed by its rule, or it
is with its operands exchanged. -/
theorem mem_candidates (hv : v.Valid) (tidy : pool.Tidy) (m : Node Handle c)
    (held : Pool.Holds pool m.args n) (proper : m.Proper) (positions : m.checkPositions = .ok ())
    (names : m.args.checkNames v = .ok ()) :
    ⟨c, m⟩ ∈ (m.operator.rule.candidates v pool n).toList ∨
      ⟨c, m.swap⟩ ∈ (m.operator.rule.candidates v pool n).toList := by
  cases n with
  | zero => exact .inl (mem_seeds hv tidy m held proper positions names)
  | succ n => exact mem_composites tidy m (Nat.succ_pos n) held proper positions

end DescLogic.Rule
