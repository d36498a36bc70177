import DescLogic.Vocabulary
/-!
# Vocabularies as they are built

Registrations build vocabularies from the empty one. In a vocabulary built so, an entry's index is
its place and no two predicates and no two constants share a name (`Vocabulary.Built.valid`).
-/

namespace DescLogic.Vocabulary

variable {v w : Vocabulary}

/-- A vocabulary that registrations build. -/
inductive Built : Vocabulary → Prop where
  /-- Without registrations. -/
  | empty (id : Nat) : Built (.empty id)
  /-- After the registration of a predicate. -/
  | addPredicate {v w : Vocabulary} {name : String} {arity : Nat} {isStatic : Bool}
      {p : Predicate} : Built v → v.addPredicate name arity isStatic = .ok (p, w) → Built w
  /-- After the registration of a constant. -/
  | addConstant {v w : Vocabulary} {name : String} {k : Constant} :
      Built v → v.addConstant name = .ok (k, w) → Built w

/-- Entries are at their indices, and names tell them apart. -/
structure Valid (v : Vocabulary) : Prop where
  /-- A predicate's index is its place. -/
  predicate_index : ∀ {i : Nat} {p : Predicate}, v.predicates[i]? = some p → p.index = i
  /-- Predicates are told apart by their names. -/
  predicate_name : ∀ {p q : Predicate},
    p ∈ v.predicates → q ∈ v.predicates → p.name = q.name → p = q
  /-- A constant's index is its place. -/
  constant_index : ∀ {i : Nat} {k : Constant}, v.constants[i]? = some k → k.index = i
  /-- Constants are told apart by their names. -/
  constant_name : ∀ {k l : Constant},
    k ∈ v.constants → l ∈ v.constants → k.name = l.name → k = l

theorem valid_empty (id : Nat) : (empty id).Valid := by
  constructor <;> simp [empty]

theorem addPredicate_eq_ok {name : String} {arity : Nat} {isStatic : Bool} {p : Predicate}
    (h : v.addPredicate name arity isStatic = .ok (p, w)) :
    (∀ q ∈ v.predicates, q.name ≠ name) ∧ p = ⟨name, arity, isStatic, v.predicates.size⟩ ∧
      w = { v with predicates := v.predicates.push p } := by
  unfold addPredicate at h
  cases hn : v.predicate? name with
  | some q =>
    rw [hn] at h
    cases h
  | none =>
    rw [hn] at h
    cases h
    refine ⟨?_, rfl, rfl⟩
    simpa [predicate?] using hn

theorem addConstant_eq_ok {name : String} {k : Constant} (h : v.addConstant name = .ok (k, w)) :
    (∀ l ∈ v.constants, l.name ≠ name) ∧ k = ⟨name, v.constants.size⟩ ∧
      w = { v with constants := v.constants.push k } := by
  unfold addConstant at h
  cases hn : v.constant? name with
  | some l =>
    rw [hn] at h
    cases h
  | none =>
    rw [hn] at h
    cases h
    refine ⟨?_, rfl, rfl⟩
    simpa [constant?] using hn

theorem Valid.addPredicate (hv : v.Valid) {name : String} {arity : Nat} {isStatic : Bool}
    {p : Predicate} (h : v.addPredicate name arity isStatic = .ok (p, w)) : w.Valid := by
  obtain ⟨new, rfl, rfl⟩ := addPredicate_eq_ok h
  refine ⟨?_, ?_, hv.constant_index, hv.constant_name⟩
  · intro i q hq
    rw [Array.getElem?_push] at hq
    by_cases hi : i = v.predicates.size
    · rw [if_pos hi] at hq
      cases hq
      exact hi.symm
    · rw [if_neg hi] at hq
      exact hv.predicate_index hq
  · intro q r hq hr hname
    rcases Array.mem_push.mp hq with hq | rfl <;> rcases Array.mem_push.mp hr with hr | rfl
    · exact hv.predicate_name hq hr hname
    · exact absurd hname (new q hq)
    · exact absurd hname.symm (new r hr)
    · rfl

theorem Valid.addConstant (hv : v.Valid) {name : String} {k : Constant}
    (h : v.addConstant name = .ok (k, w)) : w.Valid := by
  obtain ⟨new, rfl, rfl⟩ := addConstant_eq_ok h
  refine ⟨hv.predicate_index, hv.predicate_name, ?_, ?_⟩
  · intro i l hl
    rw [Array.getElem?_push] at hl
    by_cases hi : i = v.constants.size
    · rw [if_pos hi] at hl
      cases hl
      exact hi.symm
    · rw [if_neg hi] at hl
      exact hv.constant_index hl
  · intro l m hl hm hname
    rcases Array.mem_push.mp hl with hl | rfl <;> rcases Array.mem_push.mp hm with hm | rfl
    · exact hv.constant_name hl hm hname
    · exact absurd hname (new l hl)
    · exact absurd hname.symm (new m hm)
    · rfl

theorem Built.valid (h : v.Built) : v.Valid := by
  induction h with
  | empty id => exact valid_empty id
  | addPredicate _ hadd ih => exact ih.addPredicate hadd
  | addConstant _ hadd ih => exact ih.addConstant hadd

/-! ## Owned entries -/

theorem Valid.ownsPredicate_iff (hv : v.Valid) {p : Predicate} :
    v.ownsPredicate p = true ↔ p ∈ v.predicates := by
  rw [ownsPredicate, beq_iff_eq]
  constructor
  · exact Array.mem_of_getElem?
  · intro hp
    obtain ⟨i, hi⟩ := Array.mem_iff_getElem?.mp hp
    rw [hv.predicate_index hi, hi]

theorem Valid.ownsConstant_iff (hv : v.Valid) {k : Constant} :
    v.ownsConstant k = true ↔ k ∈ v.constants := by
  rw [ownsConstant, beq_iff_eq]
  constructor
  · exact Array.mem_of_getElem?
  · intro hk
    obtain ⟨i, hi⟩ := Array.mem_iff_getElem?.mp hk
    rw [hv.constant_index hi, hi]

theorem mem_of_predicate_eq_ok {name : String} {p : Predicate} (h : v.predicate name = .ok p) :
    p ∈ v.predicates := by
  unfold predicate at h
  cases hp : v.predicate? name with
  | none =>
    rw [hp] at h
    cases h
  | some q =>
    rw [hp] at h
    cases h
    exact Array.mem_of_find?_eq_some hp

/-- A name leads to the predicate that has it. -/
theorem Valid.predicate_eq_ok_iff (hv : v.Valid) {name : String} {p : Predicate} :
    v.predicate name = .ok p ↔ p ∈ v.predicates ∧ p.name = name := by
  have found : ∀ {q}, v.predicate? name = some q → q ∈ v.predicates ∧ q.name = name :=
    fun hq => ⟨Array.mem_of_find?_eq_some hq, by simpa using Array.find?_some hq⟩
  unfold predicate
  cases hq : v.predicate? name with
  | none =>
    simp only [reduceCtorEq, false_iff, not_and]
    intro hp
    simpa using Array.find?_eq_none.mp hq p hp
  | some q =>
    simp only [Except.ok.injEq]
    constructor
    · rintro rfl
      exact found hq
    · rintro ⟨hp, hname⟩
      exact hv.predicate_name (found hq).1 hp ((found hq).2.trans hname.symm)

/-- A name leads to the constant that has it. -/
theorem Valid.constant_eq_ok_iff (hv : v.Valid) {name : String} {k : Constant} :
    v.constant name = .ok k ↔ k ∈ v.constants ∧ k.name = name := by
  have found : ∀ {l}, v.constant? name = some l → l ∈ v.constants ∧ l.name = name :=
    fun hl => ⟨Array.mem_of_find?_eq_some hl, by simpa using Array.find?_some hl⟩
  unfold constant
  cases hl : v.constant? name with
  | none =>
    simp only [reduceCtorEq, false_iff, not_and]
    intro hk
    simpa using Array.find?_eq_none.mp hl k hk
  | some l =>
    simp only [Except.ok.injEq]
    constructor
    · rintro rfl
      exact found hl
    · rintro ⟨hk, hname⟩
      exact hv.constant_name (found hl).1 hk ((found hl).2.trans hname.symm)

theorem Valid.getElem?_index (hv : v.Valid) {p : Predicate} (hp : p ∈ v.predicates) :
    v.predicates[p.index]? = some p := by
  obtain ⟨i, hi⟩ := Array.mem_iff_getElem?.mp hp
  rw [hv.predicate_index hi, hi]

end DescLogic.Vocabulary
