import DescLogic.Proofs.Semantics.Distances
import DescLogic.Proofs.Semantics.Ideal
import Mathlib.Logic.Function.Iterate
/-!
# The transitive closure among all relations

The pairs of `transitiveClosure` are those that a nonempty path joins. This module says which
relation that is among all relations over the same objects.

* `ObjectRelation.LeastTransitive`: the least transitive relation that contains another one.
* `ObjectRelation.GrowsTo`: the relation that is reached by composition, over and over.
* `ObjectRelation.leastTransitive_growsTo`: the closure is both, and closing it changes nothing.
-/

namespace DescLogic

variable {R : Nat → Nat → Prop} {a b c j k : Nat}

/-! ## Paths by length -/

theorem steps_one_iff : Steps R a 1 b ↔ R a b := by
  constructor
  · rintro (_ | ⟨⟨⟩, h⟩)
    exact h
  · exact .single

theorem transGen_of_steps (h : Steps R a (j + 1) b) : Relation.TransGen R a b := by
  induction j generalizing b with
  | zero => exact .single (steps_one_iff.mp h)
  | succ j ih =>
    obtain _ | ⟨h, hcb⟩ := h
    exact (ih h).tail hcb

namespace ObjectRelation

variable {r t : ObjectRelation}

/-! ## The least transitive relation -/

/-- Objects that a third one joins are related. -/
def Transitive (r : ObjectRelation) : Prop :=
  ∀ {a b c : Nat}, r.Relates a b → r.Relates b c → r.Relates a c

/-- `t` is the least transitive relation over the objects of `r` that contains `r`. -/
structure LeastTransitive (r t : ObjectRelation) : Prop where
  /-- It is a relation over the same objects. -/
  objectCount : t.objectCount = r.objectCount
  /-- Its members are pairs of objects. -/
  valid : t.Valid
  /-- It contains `r`. -/
  contains : r.isSubset t = true
  /-- It is transitive. -/
  transitive : t.Transitive
  /-- Any other such relation contains it. -/
  least : ∀ u : ObjectRelation, u.objectCount = r.objectCount → r.isSubset u = true →
    u.Transitive → t.isSubset u = true

theorem transitive_transitiveClosure : r.transitiveClosure.Transitive := by
  intro a b c hab hbc
  rw [relates_transitiveClosure] at hab hbc ⊢
  exact hab.trans hbc

/-- Paths along a transitive relation are shortened to one step. -/
theorem Transitive.relates_of_transGen (ht : t.Transitive)
    (sub : ∀ a b, r.Relates a b → t.Relates a b) (h : Relation.TransGen r.Relates a b) :
    t.Relates a b := by
  induction h with
  | single h => exact sub _ _ h
  | tail _ h ih => exact ht ih (sub _ _ h)

theorem leastTransitive_transitiveClosure (hr : r.Valid) :
    r.LeastTransitive r.transitiveClosure where
  objectCount := rfl
  valid := valid_transitiveClosure
  contains := (isSubset_iff (t := r.transitiveClosure) hr rfl).mpr fun _ _ h =>
    relates_transitiveClosure.mpr (.single h)
  transitive := transitive_transitiveClosure
  least := by
    intro u hu sub transitive
    have sub := (isSubset_iff hr hu).mp sub
    exact (isSubset_iff valid_transitiveClosure hu).mpr fun a b h =>
      transitive.relates_of_transGen sub (relates_transitiveClosure.mp h)

/-- Nothing is added to a transitive relation. -/
theorem Transitive.transitiveClosure_eq (ht : t.Transitive) (valid : t.Valid) :
    t.transitiveClosure = t := by
  refine ext_relates valid_transitiveClosure valid rfl fun a b => ?_
  rw [relates_transitiveClosure]
  exact ⟨ht.relates_of_transGen fun _ _ h => h, .single⟩

/-! ## Repeated composition -/

/-- Adds the pairs that a pair of `t` and then one of `r` join. -/
def grow (r t : ObjectRelation) : ObjectRelation := t.union (t.compose r)

/-- `t` is the relation that `r` grows to: a fixed point, which is reached within as many rounds as
there are objects and which is the only one on the way. -/
structure GrowsTo (r t : ObjectRelation) : Prop where
  /-- It does not grow any more. -/
  fixed : r.grow t = t
  /-- It is reached after a round less than there are objects, or earlier. -/
  reached : ∀ k : Nat, r.objectCount ≤ k + 1 → r.grow^[k] r = t
  /-- Where a round adds nothing it has been reached. -/
  stops : ∀ k : Nat, r.grow (r.grow^[k] r) = r.grow^[k] r → r.grow^[k] r = t

theorem Valid.grow (ht : t.Valid) (h : r.objectCount = t.objectCount) : (r.grow t).Valid :=
  ht.union (valid_mapRows (compose_bounded h)) rfl

theorem relates_grow (h : r.objectCount = t.objectCount) :
    (r.grow t).Relates a b ↔ t.Relates a b ∨ ∃ c, t.Relates a c ∧ r.Relates c b := by
  rw [grow, relates_union (r := t) (t := t.compose r) rfl, relates_compose h]

theorem valid_iterate_grow (hr : r.Valid) (k : Nat) :
    (r.grow^[k] r).objectCount = r.objectCount ∧ (r.grow^[k] r).Valid := by
  induction k with
  | zero => exact ⟨rfl, hr⟩
  | succ k ih =>
    rw [Function.iterate_succ_apply']
    exact ⟨ih.1, ih.2.grow ih.1.symm⟩

/-- After `k` rounds the pairs are those that at least one step joins and at most `k + 1`. -/
theorem relates_iterate_grow (hr : r.Valid) :
    (r.grow^[k] r).Relates a b ↔ ∃ j ≤ k, Steps r.Relates a (j + 1) b := by
  induction k generalizing b with
  | zero => simp [steps_one_iff]
  | succ k ih =>
    rw [Function.iterate_succ_apply', relates_grow (valid_iterate_grow hr k).1.symm]
    simp only [ih]
    constructor
    · rintro (⟨j, hj, steps⟩ | ⟨c, ⟨j, hj, steps⟩, hcb⟩)
      · exact ⟨j, by omega, steps⟩
      · exact ⟨j + 1, by omega, steps.tail hcb⟩
    · rintro ⟨j, hj, steps⟩
      cases j with
      | zero => exact .inl ⟨0, Nat.zero_le k, steps⟩
      | succ j =>
        obtain _ | ⟨steps, hcb⟩ := steps
        exact .inr ⟨_, ⟨j, by omega, steps⟩, hcb⟩

/-- A path is not longer than there are objects, once its detours are left out. -/
theorem steps_of_transGen (h : Relation.TransGen r.Relates a b) :
    ∃ j < r.objectCount, Steps r.Relates a (j + 1) b := by
  -- The rest of the path after the first step is a shortest one.
  obtain ⟨c, hac, rest⟩ := Relation.TransGen.head'_iff.mp h
  have reached : ∃ k, ∃ a ∈ ({c} : Set Nat), Steps r.Relates a k b := by
    induction rest with
    | refl => exact ⟨0, c, rfl, .refl⟩
    | tail hcm hmb ih =>
      obtain ⟨k, a, ha, steps⟩ := ih (.trans_left (.single hac) hcm)
      exact ⟨k + 1, a, ha, steps.tail hmb⟩
  obtain ⟨j, nearest⟩ := exists_nearest reached
  have hj : j < r.objectCount := nearest.lt fun {i m} hm => by
    obtain ⟨⟨_, rfl, steps⟩, -⟩ := hm
    cases steps with
    | refl => exact hac.2.1
    | tail _ h => exact h.2.1
  obtain ⟨⟨_, rfl, steps⟩, -⟩ := nearest
  refine ⟨j, hj, ?_⟩
  rw [Nat.add_comm]
  exact (Steps.single hac).trans steps

/-- A round of composition adds nothing to the closure. -/
theorem grow_transitiveClosure : r.grow r.transitiveClosure = r.transitiveClosure := by
  refine ext_relates (valid_transitiveClosure.grow rfl) valid_transitiveClosure rfl fun a b => ?_
  rw [relates_grow (r := r) (t := r.transitiveClosure) rfl, or_iff_left_iff_imp]
  rintro ⟨c, hac, hcb⟩
  rw [relates_transitiveClosure] at hac ⊢
  exact hac.tail hcb

/-- Rounds of composition stay inside the closure, so they have reached it when they hold its
pairs. -/
theorem iterate_grow_eq (hr : r.Valid)
    (complete : ∀ {a b}, Relation.TransGen r.Relates a b → (r.grow^[k] r).Relates a b) :
    r.grow^[k] r = r.transitiveClosure := by
  obtain ⟨count, valid⟩ := valid_iterate_grow hr k
  refine ext_relates valid valid_transitiveClosure count fun a b => ?_
  rw [relates_transitiveClosure]
  refine ⟨fun h => ?_, complete⟩
  obtain ⟨j, -, steps⟩ := (relates_iterate_grow hr).mp h
  exact transGen_of_steps steps

theorem iterate_grow_eq_of_le (hr : r.Valid) (hk : r.objectCount ≤ k + 1) :
    r.grow^[k] r = r.transitiveClosure := by
  refine iterate_grow_eq hr fun h => ?_
  obtain ⟨j, hj, steps⟩ := steps_of_transGen h
  exact (relates_iterate_grow hr).mpr ⟨j, by omega, steps⟩

theorem iterate_grow_eq_of_stuck (hr : r.Valid) (stuck : r.grow (r.grow^[k] r) = r.grow^[k] r) :
    r.grow^[k] r = r.transitiveClosure := by
  refine iterate_grow_eq hr fun h => ?_
  -- A path is followed from its first step, and no step leads out of what is there.
  induction h with
  | single h => exact (relates_iterate_grow hr).mpr ⟨0, Nat.zero_le k, .single h⟩
  | tail _ hcb ih =>
    rw [← stuck, relates_grow (valid_iterate_grow hr k).1.symm]
    exact .inr ⟨_, ih, hcb⟩

theorem growsTo_transitiveClosure (hr : r.Valid) : r.GrowsTo r.transitiveClosure where
  fixed := grow_transitiveClosure
  reached _ := iterate_grow_eq_of_le hr
  stops _ := iterate_grow_eq_of_stuck hr

/-- **The transitive closure.** It holds the pairs that a nonempty path joins, it is the least
transitive relation that contains `r` and the one that `r` grows to by composition, and closing it
again changes nothing. -/
theorem leastTransitive_growsTo (hr : r.Valid) :
    (∀ a b, r.transitiveClosure.Relates a b ↔ Relation.TransGen r.Relates a b) ∧
      r.LeastTransitive r.transitiveClosure ∧ r.GrowsTo r.transitiveClosure ∧
      r.transitiveClosure.transitiveClosure = r.transitiveClosure :=
  ⟨fun _ _ => relates_transitiveClosure, leastTransitive_transitiveClosure hr,
    growsTo_transitiveClosure hr,
    transitive_transitiveClosure.transitiveClosure_eq valid_transitiveClosure⟩

/-- Two objects that reach each other, and a third that is reached from both. -/
theorem leastTransitive_growsTo_cycle :
    let r := ofList 3 [(0, 1), (1, 0), (1, 2)]
    r.Valid ∧
      r.transitiveClosure.toList = [(0, 0), (0, 1), (0, 2), (1, 0), (1, 1), (1, 2)] ∧
      (∀ a b, r.transitiveClosure.Relates a b ↔ Relation.TransGen r.Relates a b) ∧
      r.LeastTransitive r.transitiveClosure ∧ r.GrowsTo r.transitiveClosure ∧
      r.transitiveClosure.transitiveClosure = r.transitiveClosure := by
  intro r
  have valid : r.Valid := valid_ofList (by decide)
  exact ⟨valid, by decide +kernel, leastTransitive_growsTo valid⟩

end ObjectRelation

end DescLogic
