import DescLogic.Evaluation.Meaning
import DescLogic.Proofs.Args
import DescLogic.Proofs.Problem
import DescLogic.Proofs.Semantics.Relations
import Mathlib.Data.Set.Basic
/-!
# Set semantics

A concept stands for a set of objects, a role for a relation between objects and a boolean for a
proposition. `Node.ideal` says what a node stands for in a state, in terms of sets and logic: no
listing, table or numbering of pairs occurs in it.

`represents_denote`: the denotation of a node represents what the node stands for, if the
denotations of its operands do. The state has to be of an instance that registrations built.
Numericals are no operands of other elements, and nothing is said of them here.
-/

namespace DescLogic

/-- What an element of a category stands for. -/
abbrev Ideal : Category → Type
  | .concept => Set Nat
  | .role => Nat → Nat → Prop
  | .numerical => Unit
  | .boolean => Prop

/-- What a node stands for in a state, where its operands stand for sets, relations and
propositions. -/
def Node.ideal (s : State) : {c : Category} → Node Ideal c → Ideal c
  | _, ⟨.primitiveConcept, .predicate p (.position i .nil)⟩ =>
    {x | ∃ a, s.Holds a ∧ a.predicate = p.index ∧ a.objects[i]? = some x}
  | _, ⟨.bot, .nil⟩ => ∅
  | _, ⟨.top, .nil⟩ => {x | x < s.objectCount}
  | _, ⟨.oneOf, .constant k .nil⟩ => {x | s.problem.objects[x]? = some k.name}
  | _, ⟨.notConcept, .element X .nil⟩ => {x | x < s.objectCount ∧ x ∉ X}
  | _, ⟨.andConcept, .element X (.element Y .nil)⟩ => {x | x ∈ X ∧ x ∈ Y}
  | _, ⟨.orConcept, .element X (.element Y .nil)⟩ => {x | x ∈ X ∨ x ∈ Y}
  | _, ⟨.diffConcept, .element X (.element Y .nil)⟩ => {x | x ∈ X ∧ x ∉ Y}
  | _, ⟨.someConcept, .element R (.element X .nil)⟩ => {x | ∃ y, R x y ∧ y ∈ X}
  | _, ⟨.allConcept, .element R (.element X .nil)⟩ =>
    {x | x < s.objectCount ∧ ∀ y, R x y → y ∈ X}
  | _, ⟨.subsetConcept, .element R (.element T .nil)⟩ =>
    {x | x < s.objectCount ∧ ∀ y, R x y → T x y}
  | _, ⟨.equalConcept, .element R (.element T .nil)⟩ =>
    {x | x < s.objectCount ∧ ∀ y, R x y ↔ T x y}
  | _, ⟨.projection, .element R (.position i .nil)⟩ =>
    if i = 0 then {x | ∃ y, R x y} else {y | ∃ x, R x y}
  | _, ⟨.primitiveRole, .predicate p (.position i (.position j .nil))⟩ => fun x y =>
    ∃ a, s.Holds a ∧ a.predicate = p.index ∧ a.objects[i]? = some x ∧ a.objects[j]? = some y
  | _, ⟨.topRole, .nil⟩ => fun x y => x < s.objectCount ∧ y < s.objectCount
  | _, ⟨.notRole, .element R .nil⟩ => fun x y =>
    x < s.objectCount ∧ y < s.objectCount ∧ ¬ R x y
  | _, ⟨.andRole, .element R (.element T .nil)⟩ => fun x y => R x y ∧ T x y
  | _, ⟨.orRole, .element R (.element T .nil)⟩ => fun x y => R x y ∨ T x y
  | _, ⟨.diffRole, .element R (.element T .nil)⟩ => fun x y => R x y ∧ ¬ T x y
  | _, ⟨.inverse, .element R .nil⟩ => fun x y => R y x
  | _, ⟨.compose, .element R (.element T .nil)⟩ => fun x z => ∃ y, R x y ∧ T y z
  | _, ⟨.restrict, .element R (.element X .nil)⟩ => fun x y => R x y ∧ y ∈ X
  | _, ⟨.identity, .element X .nil⟩ => fun x y => x ∈ X ∧ x = y
  | _, ⟨.transitiveClosure, .element R .nil⟩ => Relation.TransGen R
  | _, ⟨.transitiveReflexiveClosure, .element R .nil⟩ => fun x y =>
    Relation.TransGen R x y ∨ x < s.objectCount ∧ x = y
  | _, ⟨.nullary, .predicate p .nil⟩ => ∃ a, s.Holds a ∧ a.predicate = p.index
  | _, ⟨.conceptEmpty, .element X .nil⟩ => ∀ x, x ∉ X
  | _, ⟨.roleEmpty, .element R .nil⟩ => ∀ x y, ¬ R x y
  | _, ⟨.conceptInclusion, .element X (.element Y .nil)⟩ => ∀ x, x ∈ X → x ∈ Y
  | _, ⟨.roleInclusion, .element R (.element T .nil)⟩ => ∀ x y, R x y → T x y
  | .numerical, _ => ()

/-- The denotation has the members, the pairs or the truth value of what it represents, among `n`
objects. -/
def Represents (n : Nat) : {c : Category} → Meaning c → Ideal c → Prop
  | .concept, (d : ObjectSet), (X : Set Nat) =>
    d.objectCount = n ∧ (∀ x, d.contains x = true → x < n) ∧ ∀ x, d.contains x = true ↔ x ∈ X
  | .role, (r : ObjectRelation), (R : Nat → Nat → Prop) =>
    r.objectCount = n ∧ r.Valid ∧ ∀ x y, r.Relates x y ↔ R x y
  | .numerical, _, _ => True
  | .boolean, (b : Bool), (P : Prop) => b = true ↔ P

namespace ObjectSet

variable {d : ObjectSet} {r t : ObjectRelation} {a i : Nat}

variable {e : ObjectSet}

theorem contains_ofList {n : Nat} {l : List Nat} :
    (ofList n l).contains a = true ↔ a ∈ l := by
  simp [ofList, contains]

theorem contains_empty {n : Nat} : (empty n).contains a = true ↔ False := by
  simp [empty, contains]

theorem contains_full {n : Nat} : (full n).contains a = true ↔ a < n := by
  simp [full, contains]

theorem contains_complement :
    d.complement.contains a = true ↔ a < d.objectCount ∧ ¬ d.contains a = true := by
  simp [complement, contains]

theorem contains_inter :
    (d.inter e).contains a = true ↔ d.contains a = true ∧ e.contains a = true := by
  simp [inter, contains]

theorem contains_union :
    (d.union e).contains a = true ↔ d.contains a = true ∨ e.contains a = true := by
  simp [union, contains]

theorem contains_diff :
    (d.diff e).contains a = true ↔ d.contains a = true ∧ ¬ e.contains a = true := by
  simp [diff, contains]

theorem contains_withRow {p : NatSet → Bool} :
    (withRow r p).contains a = (decide (a < r.objectCount) && p (r.rows.getD a ∅)) :=
  contains_tabulate

theorem contains_withRows {p : NatSet → NatSet → Bool} :
    (withRows r t p).contains a =
      (decide (a < r.objectCount) && p (r.rows.getD a ∅) (t.rows.getD a ∅)) :=
  contains_tabulate

theorem contains_existsIn :
    (existsIn r d).contains a = true ↔ ∃ b, r.Relates a b ∧ d.contains b = true := by
  rw [existsIn, contains_withRow, Bool.and_eq_true, decide_eq_true_eq,
    NatSet.intersects_eq_true_iff]
  simp only [ObjectRelation.contains_getD_rows]
  constructor
  · exact And.right
  · rintro ⟨b, hab, hb⟩
    exact ⟨hab.1, b, hab, hb⟩

theorem contains_forallIn :
    (forallIn r d).contains a = true ↔
      a < r.objectCount ∧ ∀ b, r.Relates a b → d.contains b = true := by
  rw [forallIn, contains_withRow, Bool.and_eq_true, decide_eq_true_eq,
    NatSet.isSubset_eq_true_iff]
  simp only [ObjectRelation.contains_getD_rows]
  exact Iff.rfl

theorem contains_rowSubset :
    (rowSubset r t).contains a = true ↔
      a < r.objectCount ∧ ∀ b, r.Relates a b → t.Relates a b := by
  rw [rowSubset, contains_withRows, Bool.and_eq_true, decide_eq_true_eq,
    NatSet.isSubset_eq_true_iff]
  simp only [ObjectRelation.contains_getD_rows]

theorem contains_rowEqual :
    (rowEqual r t).contains a = true ↔
      a < r.objectCount ∧ ∀ b, r.Relates a b ↔ t.Relates a b := by
  rw [rowEqual, contains_withRows, Bool.and_eq_true, decide_eq_true_eq, NatSet.beq_eq_true_iff]
  simp only [ObjectRelation.contains_getD_rows]

theorem objectCount_projection : (projection r i).objectCount = r.objectCount := by
  unfold projection
  split <;> rfl

theorem contains_projection_zero :
    (projection r 0).contains a = true ↔ ∃ b, r.Relates a b := by
  rw [projection, if_pos rfl, contains_withRow, Bool.and_eq_true, decide_eq_true_eq,
    Bool.not_eq_true', ← Bool.not_eq_true, NatSet.isEmpty_eq_true_iff]
  simp only [← Bool.not_eq_true, ObjectRelation.contains_getD_rows, not_forall, not_not]
  constructor
  · exact And.right
  · rintro ⟨b, hab⟩
    exact ⟨hab.1, b, hab⟩

theorem contains_projection_of_ne (hi : i ≠ 0) :
    (projection r i).contains a = true ↔ ∃ b, r.Relates b a := by
  rw [projection, if_neg hi, contains, ObjectRelation.image, NatSet.contains_bind]
  simp only [ObjectRelation.contains_getD_rows]
  constructor
  · rintro ⟨b, -, hab⟩
    exact ⟨b, hab⟩
  · rintro ⟨b, hab⟩
    exact ⟨b, by simpa [full, NatSet.mem_iff] using hab.1, hab⟩

end ObjectSet

namespace ObjectRelation

variable {d : ObjectSet} {r t : ObjectRelation} {a b : Nat}

theorem compose_bounded (h : t.objectCount = r.objectCount) : ∀ a b,
    ((r.rows.getD a ∅).bind fun b => t.rows.getD b ∅).contains b = true → b < r.objectCount := by
  intro a b hb
  obtain ⟨c, -, hc⟩ := NatSet.contains_bind.mp hb
  rw [← h]
  exact lt_of_contains_getD_rows hc

theorem relates_compose (h : t.objectCount = r.objectCount) :
    (r.compose t).Relates a b ↔ ∃ c, r.Relates a c ∧ t.Relates c b := by
  rw [compose, relates_mapRows (f := fun row => row.bind fun b => t.rows.getD b ∅)
    (compose_bounded h), NatSet.contains_bind]
  simp only [NatSet.mem_iff, contains_getD_rows]
  constructor
  · exact And.right
  · rintro ⟨c, hac, hcb⟩
    exact ⟨hac.1, c, hac, hcb⟩

theorem restrict_bounded : ∀ a b,
    ((r.rows.getD a ∅).inter d.objects).contains b = true → b < r.objectCount := by
  intro a b hb
  rw [NatSet.contains_inter, Bool.and_eq_true] at hb
  exact lt_of_contains_getD_rows hb.1

theorem relates_restrict :
    (r.restrict d).Relates a b ↔ r.Relates a b ∧ d.contains b = true := by
  rw [restrict, relates_mapRows (f := fun row => row.inter d.objects) restrict_bounded,
    NatSet.contains_inter, Bool.and_eq_true, contains_getD_rows]
  constructor
  · exact And.right
  · rintro ⟨hab, hb⟩
    exact ⟨hab.1, hab, hb⟩

end ObjectRelation

/-! ## Atoms -/

namespace State

variable {v : Vocabulary} {s : State} {a : Atom}

theorem mem_trueAtomsOf {p : Nat} : a ∈ s.trueAtomsOf p ↔ s.Holds a ∧ a.predicate = p := by
  simp [trueAtomsOf, mem_trueAtoms]

/-- The objects of atoms that hold are objects of the instance. -/
theorem Holds.lt (ha : s.Holds a) (hs : s.problem.Valid v) {i x : Nat}
    (hx : a.objects[i]? = some x) : x < s.objectCount := by
  obtain ⟨k, hk, -⟩ := ha
  exact hs.atom_object (Array.mem_of_getElem? hk) x (List.mem_of_getElem? hx)

end State

/-! ## Nodes -/

section Nodes

variable {v : Vocabulary} {s : State} {n : Nat}

theorem represents_set {d : ObjectSet} {X : Set Nat} (hn : d.objectCount = n)
    (hlt : ∀ x, x ∈ X → x < n) (h : ∀ x, d.contains x = true ↔ x ∈ X) :
    Represents n (c := .concept) d X :=
  ⟨hn, fun x hx => hlt x ((h x).mp hx), h⟩

theorem represents_concept (hs : s.problem.Valid v) {o : Operator .concept}
    {ds : Args Meaning o.signature} {as : Args Ideal o.signature}
    (h : ds.Rel (Represents s.objectCount) as) :
    Represents s.objectCount (Node.denote s ⟨o, ds⟩) (Node.ideal s ⟨o, as⟩) := by
  cases o
  case primitiveConcept =>
    cases h with
    | predicate p h =>
      cases h with
      | position i h =>
        cases h
        refine represents_set rfl ?_ fun x => ?_
        · rintro x ⟨a, ha, -, hx⟩
          exact ha.lt hs hx
        · refine ObjectSet.contains_ofList.trans ?_
          simp only [List.mem_filterMap, State.mem_trueAtomsOf, and_assoc]
          exact Iff.rfl
  case bot =>
    cases h
    exact represents_set rfl (fun x hx => hx.elim) fun x => ObjectSet.contains_empty
  case top =>
    cases h
    exact represents_set rfl (fun x hx => hx) fun x => ObjectSet.contains_full
  case oneOf =>
    cases h with
    | constant k h =>
      cases h
      refine represents_set rfl ?_ fun x => ?_
      · intro x hx
        obtain ⟨hlt, -⟩ := Array.getElem?_eq_some_iff.mp hx
        exact hlt
      · exact ObjectSet.contains_ofList.trans hs.mem_objectIndex?
  case notConcept =>
    obtain ⟨d, X, rfl, rfl, hn, hlt, hX⟩ := h.of_one
    refine represents_set hn (fun x hx => hx.1) fun x => ?_
    refine ObjectSet.contains_complement.trans ?_
    rw [hn, hX]
    exact Iff.rfl
  case andConcept =>
    obtain ⟨d, e, X, Y, rfl, rfl, ⟨hn, hlt, hX⟩, -, -, hY⟩ := h.of_two
    refine represents_set hn (fun x hx => hlt x ((hX x).mpr hx.1)) fun x => ?_
    refine ObjectSet.contains_inter.trans ?_
    rw [hX, hY]
    exact Iff.rfl
  case orConcept =>
    obtain ⟨d, e, X, Y, rfl, rfl, ⟨hn, hlt, hX⟩, -, hlt', hY⟩ := h.of_two
    refine represents_set hn ?_ fun x => ?_
    · rintro x (hx | hx)
      · exact hlt x ((hX x).mpr hx)
      · exact hlt' x ((hY x).mpr hx)
    · refine ObjectSet.contains_union.trans ?_
      rw [hX, hY]
      exact Iff.rfl
  case diffConcept =>
    obtain ⟨d, e, X, Y, rfl, rfl, ⟨hn, hlt, hX⟩, -, -, hY⟩ := h.of_two
    refine represents_set hn (fun x hx => hlt x ((hX x).mpr hx.1)) fun x => ?_
    refine ObjectSet.contains_diff.trans ?_
    rw [hX, hY]
    exact Iff.rfl
  case someConcept =>
    obtain ⟨r, d, R, X, rfl, rfl, ⟨hn, hr, hR⟩, -, -, hX⟩ := h.of_two
    refine represents_set hn ?_ fun x => ?_
    · rintro x ⟨y, hxy, -⟩
      exact hn ▸ ((hR x y).mpr hxy).1
    · refine ObjectSet.contains_existsIn.trans ?_
      simp only [hR, hX]
      exact Iff.rfl
  case allConcept =>
    obtain ⟨r, d, R, X, rfl, rfl, ⟨hn, hr, hR⟩, -, -, hX⟩ := h.of_two
    refine represents_set hn (fun x hx => hx.1) fun x => ?_
    refine ObjectSet.contains_forallIn.trans ?_
    simp only [hn, hR, hX]
    exact Iff.rfl
  case subsetConcept =>
    obtain ⟨r, t, R, T, rfl, rfl, ⟨hn, hr, hR⟩, -, -, hT⟩ := h.of_two
    refine represents_set hn (fun x hx => hx.1) fun x => ?_
    refine ObjectSet.contains_rowSubset.trans ?_
    simp only [hn, hR, hT]
    exact Iff.rfl
  case equalConcept =>
    obtain ⟨r, t, R, T, rfl, rfl, ⟨hn, hr, hR⟩, -, -, hT⟩ := h.of_two
    refine represents_set hn (fun x hx => hx.1) fun x => ?_
    refine ObjectSet.contains_rowEqual.trans ?_
    simp only [hn, hR, hT]
    exact Iff.rfl
  case projection =>
    cases h with
    | @element _ _ _ _ r R hr h =>
      obtain ⟨hn, hr, hR⟩ := hr
      cases h with
      | position i h =>
        cases h
        by_cases hi : i = 0
        · subst hi
          refine represents_set hn ?_ fun x => ?_
          · rintro x ⟨y, hxy⟩
            exact hn ▸ ((hR x y).mpr hxy).1
          · refine ObjectSet.contains_projection_zero.trans ?_
            simp only [hR]
            exact Iff.rfl
        · have second : Node.ideal s ⟨.projection, .element R (.position i .nil)⟩ =
              {y | ∃ x, R x y} := if_neg hi
          rw [second]
          refine represents_set (ObjectSet.objectCount_projection.trans hn) ?_ fun x => ?_
          · rintro x ⟨y, hyx⟩
            exact hn ▸ ((hR y x).mpr hyx).2.1
          · refine (ObjectSet.contains_projection_of_ne hi).trans ?_
            simp only [hR]
            exact Iff.rfl

theorem represents_relation {r : ObjectRelation} {R : Nat → Nat → Prop} (hn : r.objectCount = n)
    (hr : r.Valid) (h : ∀ x y, r.Relates x y ↔ R x y) : Represents n (c := .role) r R :=
  ⟨hn, hr, h⟩

theorem represents_role (hs : s.problem.Valid v) {o : Operator .role}
    {ds : Args Meaning o.signature} {as : Args Ideal o.signature}
    (h : ds.Rel (Represents s.objectCount) as) :
    Represents s.objectCount (Node.denote s ⟨o, ds⟩) (Node.ideal s ⟨o, as⟩) := by
  cases o
  case primitiveRole =>
    cases h with
    | predicate p h =>
      cases h with
      | position i h =>
        cases h with
        | position j h =>
          cases h
          have objects : ∀ {a : Atom} {x y : Nat},
              (do return (← a.objects[i]?, ← a.objects[j]?) : Option (Nat × Nat)) = some (x, y) ↔
                a.objects[i]? = some x ∧ a.objects[j]? = some y := by
            intro a x y
            cases a.objects[i]? <;> cases a.objects[j]? <;> simp
          have bounded : ∀ q ∈ (s.trueAtomsOf p.index).filterMap fun a =>
              (do return (← a.objects[i]?, ← a.objects[j]?) : Option (Nat × Nat)),
              q.1 < s.objectCount ∧ q.2 < s.objectCount := by
            rintro ⟨x, y⟩ hq
            obtain ⟨a, ha, hxy⟩ := List.mem_filterMap.mp hq
            obtain ⟨hx, hy⟩ := objects.mp hxy
            have holds := (State.mem_trueAtomsOf.mp ha).1
            exact ⟨holds.lt hs hx, holds.lt hs hy⟩
          refine represents_relation rfl (ObjectRelation.valid_ofList bounded) fun x y => ?_
          refine (ObjectRelation.relates_ofList bounded).trans ?_
          simp only [List.mem_filterMap, State.mem_trueAtomsOf, objects, and_assoc]
          exact Iff.rfl
  case topRole =>
    cases h
    exact represents_relation rfl ObjectRelation.valid_full fun x y => ObjectRelation.relates_full
  case notRole =>
    obtain ⟨r, R, rfl, rfl, hn, hr, hR⟩ := h.of_one
    refine represents_relation hn .complement fun x y => ?_
    refine ObjectRelation.relates_complement.trans ?_
    rw [hn, hR]
    exact Iff.rfl
  case andRole =>
    obtain ⟨r, t, R, T, rfl, rfl, ⟨hn, hr, hR⟩, hn', -, hT⟩ := h.of_two
    refine represents_relation hn hr.inter fun x y => ?_
    refine (ObjectRelation.relates_inter (hn'.trans hn.symm)).trans ?_
    rw [hR, hT]
    exact Iff.rfl
  case orRole =>
    obtain ⟨r, t, R, T, rfl, rfl, ⟨hn, hr, hR⟩, hn', ht, hT⟩ := h.of_two
    refine represents_relation hn (hr.union ht (hn'.trans hn.symm)) fun x y => ?_
    refine (ObjectRelation.relates_union (hn'.trans hn.symm)).trans ?_
    rw [hR, hT]
    exact Iff.rfl
  case diffRole =>
    obtain ⟨r, t, R, T, rfl, rfl, ⟨hn, hr, hR⟩, hn', -, hT⟩ := h.of_two
    refine represents_relation hn hr.diff fun x y => ?_
    refine (ObjectRelation.relates_diff (hn'.trans hn.symm)).trans ?_
    rw [hR, hT]
    exact Iff.rfl
  case inverse =>
    obtain ⟨r, R, rfl, rfl, hn, hr, hR⟩ := h.of_one
    refine represents_relation hn (ObjectRelation.valid_inverse hr) fun x y => ?_
    exact (ObjectRelation.relates_inverse hr).trans (hR y x)
  case compose =>
    obtain ⟨r, t, R, T, rfl, rfl, ⟨hn, -, hR⟩, hn', -, hT⟩ := h.of_two
    have same := hn'.trans hn.symm
    refine represents_relation hn
      (ObjectRelation.valid_mapRows (ObjectRelation.compose_bounded same)) fun x y => ?_
    refine (ObjectRelation.relates_compose same).trans ?_
    simp only [hR, hT]
    exact Iff.rfl
  case restrict =>
    obtain ⟨r, d, R, X, rfl, rfl, ⟨hn, -, hR⟩, -, -, hX⟩ := h.of_two
    refine represents_relation hn
      (ObjectRelation.valid_mapRows ObjectRelation.restrict_bounded) fun x y => ?_
    refine ObjectRelation.relates_restrict.trans ?_
    rw [hR, hX]
    exact Iff.rfl
  case identity =>
    obtain ⟨d, X, rfl, rfl, hn, hlt, hX⟩ := h.of_one
    have bounded : ∀ a, d.contains a = true → a < d.objectCount := fun a ha => hn ▸ hlt a ha
    refine represents_relation hn (ObjectRelation.valid_identity bounded) fun x y => ?_
    refine (ObjectRelation.relates_identity bounded).trans ?_
    rw [hX]
    exact Iff.rfl
  case transitiveClosure =>
    obtain ⟨r, R, rfl, rfl, hn, hr, hR⟩ := h.of_one
    obtain rfl : r.Relates = R := by
      funext x y
      exact propext (hR x y)
    exact represents_relation hn ObjectRelation.valid_transitiveClosure fun x y =>
      ObjectRelation.relates_transitiveClosure
  case transitiveReflexiveClosure =>
    obtain ⟨r, R, rfl, rfl, hn, hr, hR⟩ := h.of_one
    obtain rfl : r.Relates = R := by
      funext x y
      exact propext (hR x y)
    refine represents_relation hn ObjectRelation.valid_reflexiveTransitiveClosure fun x y => ?_
    refine ObjectRelation.relates_reflexiveTransitiveClosure.trans ?_
    rw [hn]
    exact Iff.rfl

theorem represents_boolean {o : Operator .boolean} {ds : Args Meaning o.signature}
    {as : Args Ideal o.signature} (h : ds.Rel (Represents n) as) :
    Represents n (Node.denote s ⟨o, ds⟩) (Node.ideal s ⟨o, as⟩) := by
  cases o
  case nullary =>
    cases h with
    | predicate p h =>
      cases h
      show (!(s.trueAtomsOf p.index).isEmpty) = true ↔
        ∃ a, s.Holds a ∧ a.predicate = p.index
      rw [Bool.not_eq_true', List.isEmpty_eq_false_iff_exists_mem]
      simp only [State.mem_trueAtomsOf]
  case conceptEmpty =>
    obtain ⟨d, X, rfl, rfl, -, -, hX⟩ := h.of_one
    refine NatSet.isEmpty_eq_true_iff.trans ?_
    exact forall_congr' fun x => (Bool.not_eq_true _).symm.to_iff.trans (not_congr (hX x))
  case roleEmpty =>
    obtain ⟨r, R, rfl, rfl, hn, hr, hR⟩ := h.of_one
    refine (ObjectRelation.isEmpty_iff hr).trans ?_
    simp only [hR]
    exact Iff.rfl
  case conceptInclusion =>
    obtain ⟨d, e, X, Y, rfl, rfl, ⟨-, -, hX⟩, -, -, hY⟩ := h.of_two
    refine NatSet.isSubset_eq_true_iff.trans ?_
    exact forall_congr' fun x => imp_congr (hX x) (hY x)
  case roleInclusion =>
    obtain ⟨r, t, R, T, rfl, rfl, ⟨hn, hr, hR⟩, hn', -, hT⟩ := h.of_two
    refine (ObjectRelation.isSubset_iff hr (hn'.trans hn.symm)).trans ?_
    simp only [hR, hT]
    exact Iff.rfl

/-- The denotation of a node represents what the node stands for. -/
theorem represents_denote (hs : s.problem.Valid v) {c : Category} {o : Operator c}
    {ds : Args Meaning o.signature} {as : Args Ideal o.signature}
    (h : ds.Rel (Represents s.objectCount) as) :
    Represents s.objectCount (Node.denote s ⟨o, ds⟩) (Node.ideal s ⟨o, as⟩) := by
  cases c with
  | concept => exact represents_concept hs h
  | role => exact represents_role hs h
  | numerical => trivial
  | boolean => exact represents_boolean h

end Nodes

end DescLogic
