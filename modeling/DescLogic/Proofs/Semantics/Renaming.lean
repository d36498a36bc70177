import DescLogic.Proofs.Semantics.Equality
import DescLogic.Proofs.Semantics.Numericals
import Mathlib.Logic.Equiv.Basic
/-!
# Renaming objects

Objects and atoms are numbered in the order of their registration, and everything that is computed
goes through them in that order. The values do not show it: if the objects of a state correspond to
those of another one, then so do the denotations there.

A correspondence of objects is part of a permutation `σ` of the numbers. So what an element stands
for may be compared number by number, without regard to the numbers that are no objects.

* `Renaming`: the objects of two states correspond. `Meaning.rename`: a denotation after renaming.
* `Node.ideal_along`: what a node stands for is renamed with what its operands stand for.
* `Node.value_along`: the values of numericals do not change, since paths go to paths of the same
  length.
* `evaluate_rename`: evaluation does not depend on the numbering of objects and atoms, nor on how
  the atoms of a state were listed.
-/

namespace DescLogic

open Factory

variable {c : Category} {v : Vocabulary} {s s' : State} {n m : Nat} {g : Nat → Nat}

/-! ## States that differ in the names of objects -/

/-- The predicate with this index is true of the objects. -/
def State.TrueOf (s : State) (predicate : Nat) (xs : List Nat) : Prop :=
  ∃ a, s.Holds a ∧ a.predicate = predicate ∧ a.objects = xs

/-- The objects of `s` correspond to those of `s'` one to one: constants name corresponding objects,
and the predicates of the vocabulary are true of corresponding objects. -/
structure Renaming (v : Vocabulary) (s s' : State) (g : Nat → Nat) : Prop where
  /-- Objects go to objects, and every object is met once. -/
  bijOn : Set.BijOn g (Set.Iio s.objectCount) (Set.Iio s'.objectCount)
  /-- The object of a constant goes to the object of that constant. -/
  constant : ∀ k ∈ v.constants, ∀ x : Nat,
    s.problem.objects[x]? = some k.name → s'.problem.objects[g x]? = some k.name
  /-- A predicate is true of objects if it is of those they go to. -/
  trueOf : ∀ p ∈ v.predicates, ∀ xs : List Nat, (∀ x ∈ xs, x < s.objectCount) →
    (s'.TrueOf p.index (xs.map g) ↔ s.TrueOf p.index xs)

/-- The denotation after the renaming, among `n` objects. -/
def Meaning.rename (n : Nat) (g : Nat → Nat) : {c : Category} → Meaning c → Meaning c
  | .concept, (d : ObjectSet) => ObjectSet.ofList n (d.toList.map g)
  | .role, (r : ObjectRelation) => ObjectRelation.ofList n (r.toList.map (Prod.map g g))
  | .numerical, value => value
  | .boolean, value => value

/-! ## Permutations -/

/-- Renames numbers below `n` and keeps the others. -/
def renameBelow (n : Nat) (g : Nat → Nat) (x : Nat) : Nat := if x < n then g x else x

section RenameBelow

variable (h : Set.BijOn g (Set.Iio n) (Set.Iio n)) {x : Nat}

include h

theorem renameBelow_lt_iff : renameBelow n g x < n ↔ x < n := by
  have inside : ∀ x < n, g x < n := h.mapsTo
  by_cases hx : x < n <;> simp [renameBelow, hx, inside]

theorem bijective_renameBelow : Function.Bijective (renameBelow n g) := by
  constructor
  · intro x y same
    have both : x < n ↔ y < n := by
      rw [← renameBelow_lt_iff h, same, renameBelow_lt_iff h]
    by_cases hx : x < n
    · have hy := both.mp hx
      exact h.injOn hx hy (by simpa [renameBelow, hx, hy] using same)
    · have hy := mt both.mpr hx
      simpa [renameBelow, hx, hy] using same
  · intro y
    by_cases hy : y < n
    · obtain ⟨x, hx, rfl⟩ := h.surjOn hy
      exact ⟨x, if_pos hx⟩
    · exact ⟨y, if_neg hy⟩

end RenameBelow

/-- A bijection between initial segments extends to a permutation. -/
theorem exists_perm (h : Set.BijOn g (Set.Iio n) (Set.Iio m)) :
    ∃ σ : Equiv.Perm Nat, (∀ x < n, σ x = g x) ∧ ∀ x, σ x < m ↔ x < n := by
  have size : ∀ k : Nat, (Set.Iio k).ncard = k := fun k => by
    rw [← Finset.coe_Iio, Set.ncard_coe_finset, Nat.card_Iio]
  obtain rfl : m = n := by rw [← size m, ← h.image_eq, h.injOn.ncard_image, size]
  exact ⟨Equiv.ofBijective _ (bijective_renameBelow h), fun x hx => if_pos hx,
    fun x => renameBelow_lt_iff h⟩

/-- The renaming of the objects is part of a permutation of the numbers. -/
structure Renames (v : Vocabulary) (s s' : State) (σ : Equiv.Perm Nat) : Prop where
  /-- Objects go to objects, and other numbers do not. -/
  lt_iff : ∀ x, σ x < s'.objectCount ↔ x < s.objectCount
  /-- A constant names the object that its object goes to. -/
  constant : ∀ k ∈ v.constants, ∀ x : Nat,
    s'.problem.objects[σ x]? = some k.name ↔ s.problem.objects[x]? = some k.name
  /-- A predicate is true of numbers if it is of those they go to. -/
  trueOf : ∀ p ∈ v.predicates, ∀ xs : List Nat,
    s'.TrueOf p.index (xs.map σ) ↔ s.TrueOf p.index xs

theorem State.TrueOf.lt (hs : s.problem.Valid v) {p : Nat} {xs : List Nat} (h : s.TrueOf p xs) :
    ∀ x ∈ xs, x < s.objectCount := by
  obtain ⟨a, ha, -, rfl⟩ := h
  intro x hx
  obtain ⟨i, hi⟩ := List.mem_iff_getElem?.mp hx
  exact ha.lt hs hi

theorem Renaming.exists_renames (hs : s.problem.Valid v) (hs' : s'.problem.Valid v)
    (h : Renaming v s s' g) :
    ∃ σ : Equiv.Perm Nat, (∀ x < s.objectCount, σ x = g x) ∧ Renames v s s' σ := by
  obtain ⟨σ, agrees, lt_iff⟩ := exists_perm h.bijOn
  refine ⟨σ, agrees, lt_iff, ?_, ?_⟩
  · intro k hk x
    -- A constant names one object, so what goes forward comes back.
    have forward : ∀ x, s.problem.objects[x]? = some k.name →
        s'.problem.objects[σ x]? = some k.name := by
      intro x hx
      obtain ⟨hlt, -⟩ := Array.getElem?_eq_some_iff.mp hx
      rw [agrees x hlt]
      exact h.constant k hk x hx
    refine ⟨fun hx => ?_, forward x⟩
    obtain ⟨y, hy, -⟩ := hs.existsUnique_constant hk
    have same := hs'.object_name (forward y hy) hx
    rwa [← σ.injective same]
  · intro p hp xs
    by_cases hxs : ∀ x ∈ xs, x < s.objectCount
    · rw [List.map_congr_left fun x hx => agrees x (hxs x hx)]
      exact h.trueOf p hp xs hxs
    · -- No predicate is true of numbers that are no objects, on either side.
      refine iff_of_false (fun h => hxs fun x hx => ?_) fun h => hxs (h.lt hs)
      exact (lt_iff x).mp (h.lt hs' _ (List.mem_map_of_mem hx))

/-! ## What elements stand for -/

/-- What an element stands for, in terms of the objects before they were renamed. -/
def Ideal.along (σ : Equiv.Perm Nat) : {c : Category} → Ideal c → Ideal c
  | .concept, (X : Set Nat) => {x | σ x ∈ X}
  | .role, (R : Nat → Nat → Prop) => fun x y => R (σ x) (σ y)
  | .numerical, _ => ()
  | .boolean, (P : Prop) => P

section Along

variable {σ : Equiv.Perm Nat}

theorem State.exists_atom_iff {p : Nat} {P : List Nat → Prop} :
    (∃ a, s.Holds a ∧ a.predicate = p ∧ P a.objects) ↔ ∃ xs, s.TrueOf p xs ∧ P xs := by
  constructor
  · rintro ⟨a, ha, hp, h⟩
    exact ⟨a.objects, ⟨a, ha, hp, rfl⟩, h⟩
  · rintro ⟨_, ⟨a, ha, hp, rfl⟩, h⟩
    exact ⟨a, ha, hp, h⟩

/-- Atoms are renamed object by object. -/
theorem Renames.exists_atom_iff (h : Renames v s s' σ) {p : Predicate} (hp : p ∈ v.predicates)
    {P : List Nat → Prop} :
    (∃ a, s'.Holds a ∧ a.predicate = p.index ∧ P a.objects) ↔
      ∃ a, s.Holds a ∧ a.predicate = p.index ∧ P (a.objects.map σ) := by
  rw [State.exists_atom_iff, σ.surjective.list_map.exists,
    State.exists_atom_iff (P := fun xs => P (xs.map σ))]
  simp only [h.trueOf p hp]

theorem getElem?_map_perm {xs : List Nat} {i x : Nat} :
    (xs.map σ)[i]? = some (σ x) ↔ xs[i]? = some x := by
  simp [List.getElem?_map, Option.map_eq_some_iff]

theorem transGen_along {R : Nat → Nat → Prop} {x y : Nat} :
    Relation.TransGen R (σ x) (σ y) ↔ Relation.TransGen (fun x y => R (σ x) (σ y)) x y := by
  constructor
  · intro h
    have back := h.lift (p := fun x y => R (σ x) (σ y)) σ.symm fun a b hab => by
      simpa [Function.onFun] using hab
    simpa [Function.onFun] using back
  · exact fun h => h.lift σ fun _ _ hab => hab

/-- What a node stands for is renamed with what its operands stand for. -/
theorem Node.ideal_along (h : Renames v s s' σ) (hv : v.Valid) {o : Operator c}
    {as : Args Ideal o.signature} (names : as.checkNames v = .ok ()) :
    (Node.ideal s' ⟨o, as⟩).along σ = Node.ideal s ⟨o, as.map (Ideal.along σ)⟩ := by
  cases o
  case primitiveConcept =>
    casesm* Args _ _
    next p i =>
    have owned := hv.ownsPredicate_iff.mp (Args.checkNames_predicate.mp names).1
    refine Set.ext fun x => (h.exists_atom_iff owned (P := fun xs => xs[i]? = some (σ x))).trans ?_
    simp only [getElem?_map_perm]
    exact Iff.rfl
  case primitiveRole =>
    casesm* Args _ _
    next p i j =>
    have owned := hv.ownsPredicate_iff.mp (Args.checkNames_predicate.mp names).1
    refine funext₂ fun x y => propext ?_
    refine (h.exists_atom_iff owned
      (P := fun xs => xs[i]? = some (σ x) ∧ xs[j]? = some (σ y))).trans ?_
    simp only [getElem?_map_perm]
    exact Iff.rfl
  case nullary =>
    casesm* Args _ _
    next p =>
    have owned := hv.ownsPredicate_iff.mp (Args.checkNames_predicate.mp names).1
    have atom := h.exists_atom_iff owned (P := fun _ => True)
    simp only [and_true] at atom
    exact propext atom
  case oneOf =>
    casesm* Args _ _
    next k =>
    have owned := hv.ownsConstant_iff.mp (Args.checkNames_constant.mp names).1
    exact Set.ext fun x => h.constant k owned x
  -- These quantify over nothing, and objects occur in them only as members.
  case bot | andConcept | orConcept | diffConcept | andRole | orRole | diffRole | inverse |
      restrict =>
    casesm* Args _ _
    rfl
  case top =>
    casesm* Args _ _
    exact Set.ext fun x => h.lt_iff x
  case notConcept =>
    casesm* Args _ _
    exact Set.ext fun x => and_congr_left' (h.lt_iff x)
  case topRole =>
    casesm* Args _ _
    exact funext₂ fun x y => propext (and_congr (h.lt_iff x) (h.lt_iff y))
  case notRole =>
    casesm* Args _ _
    refine funext₂ fun x y => propext ?_
    exact and_congr (h.lt_iff x) (and_congr_left' (h.lt_iff y))
  case someConcept =>
    casesm* Args _ _
    exact Set.ext fun x => σ.surjective.exists
  case allConcept | subsetConcept | equalConcept =>
    casesm* Args _ _
    exact Set.ext fun x => and_congr (h.lt_iff x) σ.surjective.forall
  case projection =>
    casesm* Args _ _
    next R i =>
    by_cases hi : i = 0
    · subst hi
      exact Set.ext fun x => σ.surjective.exists
    · change {x | σ x ∈ ite _ _ _} = ite _ _ _
      rw [if_neg hi, if_neg hi]
      exact Set.ext fun x => σ.surjective.exists
  case compose =>
    casesm* Args _ _
    exact funext₂ fun x y => propext σ.surjective.exists
  case identity =>
    casesm* Args _ _
    refine funext₂ fun x y => propext ?_
    exact and_congr_right' σ.injective.eq_iff
  case transitiveClosure =>
    casesm* Args _ _
    exact funext₂ fun x y => propext transGen_along
  case transitiveReflexiveClosure =>
    casesm* Args _ _
    refine funext₂ fun x y => propext ?_
    exact or_congr transGen_along (and_congr (h.lt_iff x) σ.injective.eq_iff)
  case conceptEmpty | conceptInclusion =>
    casesm* Args _ _
    exact propext σ.surjective.forall
  case roleEmpty | roleInclusion =>
    casesm* Args _ _
    exact propext σ.surjective.forall₂
  -- Numericals stand for nothing.
  all_goals rfl

theorem Term.ideal_along (h : Renames v s s' σ) (hv : v.Valid) {t : Term c} (fits : t.Fits v) :
    (t.ideal s').along σ = t.ideal s := by
  induction t using Term.induction with
  | mk o ts ih =>
    obtain ⟨names, -, operands⟩ := Term.fits_ofNode (n := ⟨o, ts⟩).mp fits
    rw [Term.ideal_mk, Term.ideal_mk, Node.ideal_along h hv (by rwa [Args.checkNames_map]),
      Args.map_map, Args.map_congr ((ih.and operands).imp fun h => h.1 h.2)]

/-! ## Values -/

section Distance

variable {R : Nat → Nat → Prop} {X Y : Set Nat} {a b k : Nat}

theorem steps_along : Steps (fun x y => R (σ x) (σ y)) a k b ↔ Steps R (σ a) k (σ b) := by
  constructor
  · exact fun h => h.lift fun _ _ hab => hab
  · intro h
    have back := h.lift (T := fun x y => R (σ x) (σ y)) (f := σ.symm) fun a b hab => by
      simpa using hab
    simpa using back

theorem distance_along :
    distance (fun x y => R (σ x) (σ y)) {x | σ x ∈ X} {y | σ y ∈ Y} = distance R X Y := by
  refine capped_congr fun k => ?_
  simp only [Set.mem_ofPred_eq, steps_along]
  exact (σ.surjective.exists.trans <| exists_congr fun b => and_congr_right fun _ =>
    σ.surjective.exists).symm

theorem empty_along (X : Set Nat) : {x | σ x ∈ X} = ∅ ↔ X = ∅ := by
  rw [Set.eq_empty_iff_forall_notMem, Set.eq_empty_iff_forall_notMem]
  exact (σ.surjective.forall (p := fun x => x ∉ X)).symm

theorem no_pair_along (R : Nat → Nat → Prop) :
    (∀ x y, ¬R (σ x) (σ y)) ↔ ∀ x y, ¬R x y :=
  (σ.surjective.forall₂ (p := fun x y => ¬R x y)).symm

end Distance

variable (σ) in
/-- Values stay. -/
theorem Node.value_along {n : Node Ideal .numerical} : (n.map (Ideal.along σ)).value = n.value := by
  classical
  obtain ⟨o, as⟩ := n
  cases o
  case conceptCount =>
    casesm* Args _ _
    next X =>
    have count : Set.ncard {x | σ x ∈ X} = Set.ncard X :=
      Set.ncard_preimage_of_injective_subset_range σ.injective (by simp [σ.surjective.range_eq])
    exact congrArg cardinality count
  case roleCount =>
    casesm* Args _ _
    next R =>
    have pairs := σ.bijective.prodMap σ.bijective
    have count : Set.ncard {p : Nat × Nat | R (σ p.1) (σ p.2)} =
        Set.ncard {p : Nat × Nat | R p.1 p.2} :=
      Set.ncard_preimage_of_injective_subset_range (s := {p : Nat × Nat | R p.1 p.2})
        pairs.injective (by simp [pairs.surjective.range_eq])
    exact congrArg cardinality count
  case conceptDistance =>
    casesm* Args _ _
    exact distance_along
  case sumConceptDistance =>
    casesm* Args _ _
    next X R Y =>
    refine if_congr (or_congr (empty_along X) (empty_along Y)) rfl (congrArg (min · unreachable) ?_)
    refine finsum_mem_eq_of_bijOn σ (σ.bijOn fun b => Iff.rfl) fun b _ => ?_
    have single : ({b} : Set Nat) = {x | σ x ∈ ({σ b} : Set Nat)} :=
      Set.ext fun x => σ.injective.eq_iff.symm
    rw [single]
    exact distance_along
  case roleDistance =>
    casesm* Args _ _
    next Q R T =>
    refine capped_congr fun k => ?_
    change (∃ a b c, Q (σ a) (σ b) ∧ T (σ a) (σ c) ∧ Steps (fun x y => R (σ x) (σ y)) b k c) ↔
      ∃ a b c, Q a b ∧ T a c ∧ Steps R b k c
    simp only [steps_along]
    exact (σ.surjective.exists₃ (p := fun a b c => Q a b ∧ T a c ∧ Steps R b k c)).symm
  case sumRoleDistance =>
    casesm* Args _ _
    next Q R T =>
    refine if_congr (or_congr (no_pair_along Q) (no_pair_along T)) rfl
      (congrArg (min · unreachable) ?_)
    refine finsum_mem_eq_of_bijOn σ (σ.bijOn fun a => σ.surjective.exists) fun a _ => ?_
    exact distance_along

/-! ## Denotations -/

/-- The renamed denotation represents what the denotation did before the renaming. -/
theorem Represents.rename {d : Meaning c} {X : Ideal c} (hd : Represents n d (X.along σ))
    (agrees : ∀ x < n, σ x = g x) (lt_iff : ∀ x, σ x < m ↔ x < n) :
    Represents m (d.rename m g) X := by
  cases c with
  | concept =>
    obtain ⟨-, bounded, members⟩ := hd
    have image : ∀ y, (Meaning.rename m g d).contains y = true ↔ y ∈ X := by
      intro y
      refine ObjectSet.contains_ofList.trans ?_
      simp only [List.mem_map, ObjectSet.mem_toList]
      constructor
      · rintro ⟨x, hx, rfl⟩
        rw [← agrees x (bounded x hx)]
        exact (members x).mp hx
      · intro hy
        obtain ⟨x, rfl⟩ := σ.surjective y
        have hx := (members x).mpr hy
        exact ⟨x, hx, (agrees x (bounded x hx)).symm⟩
    refine represents_set rfl (fun y hy => ?_) image
    obtain ⟨x, rfl⟩ := σ.surjective y
    exact (lt_iff x).mpr (bounded x ((members x).mpr hy))
  | role =>
    obtain ⟨rfl, valid, relates⟩ := hd
    have bounded : ∀ p ∈ d.toList.map (Prod.map g g), p.1 < m ∧ p.2 < m := by
      intro p hp
      obtain ⟨⟨x, y⟩, hxy, rfl⟩ := List.mem_map.mp hp
      obtain ⟨hx, hy, -⟩ := (ObjectRelation.mem_toList valid).mp hxy
      simp only [Prod.map, ← agrees x hx, ← agrees y hy, lt_iff]
      exact ⟨hx, hy⟩
    refine represents_relation rfl (ObjectRelation.valid_ofList bounded) fun u w => ?_
    refine (ObjectRelation.relates_ofList bounded).trans ?_
    simp only [List.mem_map, Prod.exists, ObjectRelation.mem_toList valid, Prod.map,
      Prod.mk.injEq]
    constructor
    · rintro ⟨x, y, hxy, rfl, rfl⟩
      rw [← agrees x hxy.1, ← agrees y hxy.2.1]
      exact (relates x y).mp hxy
    · intro huw
      obtain ⟨x, rfl⟩ := σ.surjective u
      obtain ⟨y, rfl⟩ := σ.surjective w
      have hxy := (relates x y).mpr huw
      exact ⟨x, y, hxy, (agrees x hxy.1).symm, (agrees y hxy.2.1).symm⟩
  | numerical => trivial
  | boolean => exact hd

/-- A term denotes the same up to the renaming. -/
theorem Term.denote_rename (hv : v.Valid) (hs : s.problem.Valid v) (hs' : s'.problem.Valid v)
    (h : Renames v s s' σ) (agrees : ∀ x < s.objectCount, σ x = g x) {t : Term c}
    (fits : t.Fits v) : t.denote s' = (t.denote s).rename s'.objectCount g := by
  by_cases hc : c = .numerical
  · subst hc
    change t.denote s' = t.denote s
    obtain ⟨-, -, operands⟩ := Term.fits_ofNode.mp (t.ofNode_node.symm ▸ fits)
    have parts : (t.node.args.map fun u => (Term.ideal s' u).along σ) =
        t.node.args.map (Term.ideal s) :=
      Args.map_congr (operands.imp fun fits => Term.ideal_along h hv fits)
    rw [t.denote_eq_value hs, t.denote_eq_value hs', ← Node.value_along σ, Node.map_map,
      Node.map, Node.map, parts]
  · have before := represents_term hs t
    rw [← t.ideal_along h hv fits] at before
    exact (represents_term hs' t).eq hc (before.rename agrees h.lt_iff)

end Along

/-! ## States with the same atoms -/

/-- Without renaming, a denotation stays the same. -/
theorem Represents.rename_id {d : Meaning c} {X : Ideal c} (hd : Represents n d X) :
    d.rename n id = d := by
  by_cases hc : c = .numerical
  · subst hc
    rfl
  · have along : X.along (Equiv.refl Nat) = X := by
      cases c <;> rfl
    have renamed : Represents n (d.rename n id) X :=
      Represents.rename (along.symm ▸ hd) (fun _ _ => rfl) fun _ => Iff.rfl
    exact renamed.eq hc hd

/-- States of one instance in which the same atoms hold differ at most in their identity. -/
theorem Renaming.of_holds_iff (same : s.problem = s'.problem)
    (holds : ∀ a, s.Holds a ↔ s'.Holds a) : Renaming v s s' id where
  bijOn := by
    rw [State.objectCount, State.objectCount, same]
    exact Set.bijOn_id _
  constant := by
    intro k _ x hx
    rwa [← same]
  trueOf := by
    intro p _ xs _
    rw [List.map_id]
    exact exists_congr fun a => and_congr_left' (holds a).symm

/-- The state was made from a list of atoms of the instance, given by their indices or by their
names. In either case `indices` are their indices. -/
inductive State.Listed (i : Instance) (indices : List Nat) (s : State) : Prop where
  | ofIndices {next next' : Nat} : (State.ofIndices i indices).run next = .ok (s, next') →
      Listed i indices s
  | ofNames {names : List String} {next next' : Nat} :
      names.mapM (atomNamed i) = .ok indices → (State.ofNames i names).run next = .ok (s, next') →
      Listed i indices s

namespace State.Listed

variable {i : Instance} {indices indices' : List Nat}

theorem exists_run (h : Listed i indices s) :
    ∃ next next', (State.ofIndices i indices).run next = .ok (s, next') := by
  cases h with
  | ofIndices h => exact ⟨_, _, h⟩
  | ofNames listed h =>
    obtain ⟨found, listed', h⟩ := ofNames_eq_ok h
    obtain rfl : indices = found := Except.ok.inj (listed.symm.trans listed')
    exact ⟨_, _, h⟩

theorem problem (h : Listed i indices s) : s.problem = i := by
  obtain ⟨next, next', h⟩ := h.exists_run
  exact problem_ofIndices h

theorem built (hi : i.Built v) (h : Listed i indices s) : s.Built v := by
  obtain ⟨next, next', h⟩ := h.exists_run
  exact .ofIndices hi h

/-- The atoms that hold are those listed and the static ones. -/
theorem holds_iff (h : Listed i indices s) {a : Atom} :
    s.Holds a ↔ ∃ k : Nat, i.atoms[k]? = some a ∧ (a.isStatic = true ∨ k ∈ indices) := by
  obtain ⟨next, next', h⟩ := h.exists_run
  rw [Holds, problem_ofIndices h]
  refine exists_congr fun k => and_congr_right fun ha => ?_
  rw [mem_atoms_ofIndices h]
  cases hs : a.isStatic <;> simp [ha, hs]

/-- Order, repetitions and static members of the lists make no difference. -/
theorem holds_congr (h : Listed i indices s) (h' : Listed i indices' s')
    (members : ∀ (k : Nat) (a : Atom), i.atoms[k]? = some a → a.isStatic = false →
      (k ∈ indices ↔ k ∈ indices')) {a : Atom} : s.Holds a ↔ s'.Holds a := by
  rw [h.holds_iff, h'.holds_iff]
  refine exists_congr fun k => and_congr_right fun ha => ?_
  cases hs : a.isStatic with
  | true => simp
  | false => simpa using members k a ha hs

end State.Listed

/-! ## Evaluation -/

section Evaluation

variable {f : Factory} {h : Handle c} {e : Entry c} (hv : v.Built) (hf : Reachable v f)
  (he : f.get? h = some e)

include hv hf he

theorem exists_evaluate_rename (hs : s.Built v) (hs' : s'.Built v) (hg : Renaming v s s' g) :
    ∃ d, f.evaluate h s = .ok d ∧ f.evaluate h s' = .ok (d.rename s'.objectCount g) ∧
      ∃ X, Represents s.objectCount d X := by
  obtain ⟨t, ht, -⟩ := hf.valid.exists_spells he
  have fits := hf.valid.fits ht
  rw [hf.vocabulary] at fits
  have problem := hs.valid hv.valid
  have problem' := hs'.valid hv.valid
  obtain ⟨σ, agrees, renames⟩ := hg.exists_renames problem problem'
  refine ⟨t.denote s, ?_, ?_, t.ideal s, represents_term problem t⟩
  · exact evaluate_of_spells hf.valid (checkVocabulary_of_built hf hs hv.valid) ht
  · rw [← Term.denote_rename hv.valid problem problem' renames agrees fits]
    exact evaluate_of_spells hf.valid (checkVocabulary_of_built hf hs' hv.valid) ht

theorem exists_evaluate_same (hs : s.Built v) (hs' : s'.Built v) (same : s.problem = s'.problem)
    (holds : ∀ a, s.Holds a ↔ s'.Holds a) :
    ∃ d, f.evaluate h s = .ok d ∧ f.evaluate h s' = .ok d := by
  obtain ⟨d, hd, hd', X, hX⟩ := exists_evaluate_rename hv hf he hs hs' (.of_holds_iff same holds)
  refine ⟨d, hd, ?_⟩
  rw [hd', State.objectCount, ← same]
  exact congrArg _ hX.rename_id

/-- **Evaluation does not depend on how objects and atoms are numbered.** Renaming the objects of a
state renames the denotations of stored elements. So the atoms that hold determine them, and with
these the atoms that are listed and not static, in any order and however often. -/
theorem evaluate_rename :
    (∀ {s s' : State} {g : Nat → Nat}, s.Built v → s'.Built v → Renaming v s s' g →
      ∃ d, f.evaluate h s = .ok d ∧ f.evaluate h s' = .ok (d.rename s'.objectCount g)) ∧
    (∀ {s s' : State}, s.Built v → s'.Built v → s.problem = s'.problem →
      (∀ a, s.Holds a ↔ s'.Holds a) → ∃ d, f.evaluate h s = .ok d ∧ f.evaluate h s' = .ok d) ∧
    ∀ {i : Instance} {indices indices' : List Nat} {s s' : State}, i.Built v →
      State.Listed i indices s → State.Listed i indices' s' →
      (∀ (k : Nat) (a : Atom), i.atoms[k]? = some a → a.isStatic = false →
        (k ∈ indices ↔ k ∈ indices')) →
      ∃ d, f.evaluate h s = .ok d ∧ f.evaluate h s' = .ok d := by
  refine ⟨?_, exists_evaluate_same hv hf he, ?_⟩
  · intro s s' g hs hs' hg
    obtain ⟨d, hd, hd', -⟩ := exists_evaluate_rename hv hf he hs hs' hg
    exact ⟨d, hd, hd'⟩
  · intro i indices indices' s s' hi listed listed' members
    exact exists_evaluate_same hv hf he (listed.built hi) (listed'.built hi)
      (listed.problem.trans listed'.problem.symm) fun a => listed.holds_congr listed' members

end Evaluation

/-- Two instances that register the objects of one atom in different orders. -/
theorem evaluate_rename_on :
    let on : Predicate := ⟨"on", 2, false, 0⟩
    let v : Vocabulary := ⟨0, #[on], #[]⟩
    let n : Node Handle .role := ⟨.primitiveRole, .predicate on (.position 0 (.position 1 .nil))⟩
    let f := ((BuildM.make n).run (Factory.empty v)).2
    let s : State := ⟨0, ⟨v, #["a", "b"], #[⟨"on(a,b)", 0, [0, 1], false, 0⟩]⟩, [0]⟩
    let s' : State := ⟨1, ⟨v, #["b", "a"], #[⟨"on(a,b)", 0, [1, 0], false, 0⟩]⟩, [0]⟩
    v.Built ∧ Reachable v f ∧ s.Built v ∧ s'.Built v ∧ Renaming v s s' (1 - ·) ∧
      ∃ d, f.evaluate (⟨0⟩ : Handle .role) s = .ok d ∧
        f.evaluate (⟨0⟩ : Handle .role) s' = .ok (d.rename 2 (1 - ·)) := by
  intro on v n f s s'
  have added : (Vocabulary.empty 0).addPredicate "on" 2 false = .ok (on, v) := by decide
  have atom : (Instance.ofVocabulary v).addAtom "on" ["a", "b"] false =
      .ok (⟨"on(a,b)", 0, [0, 1], false, 0⟩, s.problem) := by decide +kernel
  have object : (Instance.ofVocabulary v).addObject "b" = .ok (0, ⟨v, #["b"], #[]⟩) := by
    decide +kernel
  have atom' : Instance.addAtom ⟨v, #["b"], #[]⟩ "on" ["a", "b"] false =
      .ok (⟨"on(a,b)", 0, [1, 0], false, 0⟩, s'.problem) := by decide +kernel
  have state : (State.ofIndices s.problem [0]).run 0 = .ok (s, 1) := by decide
  have state' : (State.ofIndices s'.problem [0]).run 1 = .ok (s', 2) := by decide
  have hv : v.Built := .addPredicate (.empty 0) added
  have hf : Reachable v f := .single (.make n)
  have hs : s.Built v := .ofIndices (.addAtom .ofVocabulary atom) state
  have hs' : s'.Built v := .ofIndices (.addAtom (.addObject .ofVocabulary object) atom') state'
  have he : f.get? (⟨0⟩ : Handle .role) = some _ := get?_make_empty rfl
  have holds : ∀ a, s.Holds a ↔ a = ⟨"on(a,b)", 0, [0, 1], false, 0⟩ :=
    fun a => State.mem_trueAtoms.symm.trans List.mem_singleton
  have holds' : ∀ a, s'.Holds a ↔ a = ⟨"on(a,b)", 0, [1, 0], false, 0⟩ :=
    fun a => State.mem_trueAtoms.symm.trans List.mem_singleton
  have hg : Renaming v s s' (1 - ·) := by
    refine ⟨⟨?_, ?_, ?_⟩, ?_, ?_⟩
    · intro x _
      exact Nat.lt_succ_of_le (Nat.sub_le 1 x)
    · intro x hx y hy same
      change x < 2 at hx
      change y < 2 at hy
      dsimp only at same
      omega
    · intro y hy
      change y < 2 at hy
      exact ⟨1 - y, Nat.lt_succ_of_le (Nat.sub_le 1 y), by dsimp only; omega⟩
    · intro k hk
      exact absurd hk (Array.not_mem_empty k)
    · intro p _ xs hxs
      have pair : [1, 0] = xs.map (1 - ·) ↔ [0, 1] = xs := by
        constructor
        · intro same
          have length : xs.length = 2 := by simpa using (congrArg List.length same).symm
          obtain ⟨x, y, rfl⟩ := List.length_eq_two.mp length
          have hx : x < 2 := hxs x (by simp)
          have hy : y < 2 := hxs y (by simp)
          simp only [List.map_cons, List.map_nil, List.cons.injEq, and_true] at same ⊢
          omega
        · rintro rfl
          rfl
      simp only [State.TrueOf, holds, holds', exists_eq_left, pair]
  exact ⟨hv, hf, hs, hs', hg, (evaluate_rename hv hf he).1 hs hs' hg⟩

end DescLogic
