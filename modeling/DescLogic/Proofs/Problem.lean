import DescLogic.Proofs.Vocabulary
import DescLogic.State
import Mathlib.Data.List.Basic
import Mathlib.Logic.ExistsUnique
/-!
# Instances and states as they are built

Registrations build the instances over a vocabulary, and states are made of indices or names of
their atoms. In an instance built so the objects are told apart by their names, every constant names
an object, and an atom has as many objects as its predicate has arguments.

* `Instance.Built.valid`: these facts, for every instance that is built.
* `State.mem_atoms_ofIndices`: a state keeps the listed atoms that are not static.
* `State.Drawn`: states that were drawn from one counter. `State.Drawn.eq_of_id_eq`: their
  identities tell them apart.
* `State.Holds`: the atoms that hold in a state. `State.mem_trueAtoms`: they are those that are
  listed.
* `twoPaths`, `onePath`: two states of a small instance.
-/

namespace DescLogic

variable {v : Vocabulary}

namespace Instance

variable {i j : Instance}

/-- An instance that registrations build over a vocabulary. -/
inductive Built (v : Vocabulary) : Instance → Prop where
  /-- Without registrations. -/
  | ofVocabulary : Built v (.ofVocabulary v)
  /-- After the registration of an object. -/
  | addObject {i j : Instance} {name : String} {k : Nat} :
      Built v i → i.addObject name = .ok (k, j) → Built v j
  /-- After the registration of an atom. -/
  | addAtom {i j : Instance} {predicate : String} {objects : List String} {isStatic : Bool}
      {a : Atom} : Built v i → i.addAtom predicate objects isStatic = .ok (a, j) → Built v j

/-- Names tell objects apart, constants name objects, and atoms fit their predicates. -/
structure Valid (v : Vocabulary) (i : Instance) : Prop where
  /-- The instance is over the vocabulary. -/
  vocabulary : i.vocabulary = v
  /-- Objects are told apart by their names. -/
  object_name : ∀ {x y : Nat} {name : String},
    i.objects[x]? = some name → i.objects[y]? = some name → x = y
  /-- Constants name objects. -/
  constant : ∀ {x : Nat} {k : Constant}, v.constants[x]? = some k → i.objects[x]? = some k.name
  /-- The objects of an atom are objects of the instance. -/
  atom_object : ∀ {a : Atom}, a ∈ i.atoms → ∀ x ∈ a.objects, x < i.objectCount
  /-- An atom has as many objects as its predicate has arguments. -/
  atom_arity : ∀ {a : Atom}, a ∈ i.atoms →
    ∃ p, v.predicates[a.predicate]? = some p ∧ a.objects.length = p.arity

theorem objectIndex?_eq_none {name : String} (h : i.objectIndex? name = none) {x : Nat} :
    i.objects[x]? ≠ some name := by
  intro hx
  have := Array.findIdx?_eq_none_iff.mp h name (Array.mem_of_getElem? hx)
  simp at this

theorem objectIndex?_eq_some {name : String} {x : Nat} (h : i.objectIndex? name = some x) :
    i.objects[x]? = some name := by
  obtain ⟨hlt, hx, -⟩ := Array.findIdx?_eq_some_iff_getElem.mp h
  rw [Array.getElem?_eq_getElem hlt, eq_of_beq hx]

/-- What the registration of an atom checks and does. -/
theorem addAtom_eq_ok {predicate : String} {objects : List String} {isStatic : Bool} {a : Atom}
    (h : i.addAtom predicate objects isStatic = .ok (a, j)) :
    ∃ p, i.vocabulary.predicate predicate = .ok p ∧ p.arity = objects.length ∧
      (i.atomIndex? (atomName predicate objects)).isSome = false ∧
      a = ⟨atomName predicate objects, p.index, (i.resolveObjects objects).1,
        isStatic || p.isStatic, (i.resolveObjects objects).2.atoms.size⟩ ∧
      j = { (i.resolveObjects objects).2 with
        atoms := (i.resolveObjects objects).2.atoms.push a } := by
  unfold addAtom at h
  cases hp : i.vocabulary.predicate predicate with
  | error e =>
    rw [hp] at h
    cases h
  | ok p =>
    rw [hp] at h
    simp only [bind, Except.bind, pure, Except.pure, throw, throwThe, MonadExceptOf.throw] at h
    by_cases arity : p.arity = objects.length
    · rw [if_neg (not_not_intro arity)] at h
      by_cases taken : (i.atomIndex? (atomName predicate objects)).isSome = true
      · rw [if_pos taken] at h
        cases h
      · rw [if_neg taken] at h
        cases h
        exact ⟨p, rfl, arity, by simpa using taken, rfl, rfl⟩
    · rw [if_pos arity] at h
      cases h

/-- The instance without registrations is valid. -/
theorem valid_ofVocabulary (hv : v.Valid) : (ofVocabulary v).Valid v where
  vocabulary := rfl
  object_name := by
    intro x y name hx hy
    simp only [ofVocabulary, Array.getElem?_map, Option.map_eq_some_iff] at hx hy
    obtain ⟨k, hk, rfl⟩ := hx
    obtain ⟨l, hl, hname⟩ := hy
    have same := hv.constant_name (Array.mem_of_getElem? hl) (Array.mem_of_getElem? hk) hname
    rw [← hv.constant_index hk, ← hv.constant_index hl, same]
  constant := by
    intro x k hk
    simp [ofVocabulary, hk]
  atom_object := by simp [ofVocabulary]
  atom_arity := by simp [ofVocabulary]

/-- An object with a new name may be registered. -/
theorem Valid.push_object (hi : i.Valid v) {name : String} (new : i.objectIndex? name = none) :
    ({ i with objects := i.objects.push name } : Instance).Valid v where
  vocabulary := hi.vocabulary
  object_name := by
    intro x y name' hx hy
    rw [Array.getElem?_push] at hx hy
    split at hx <;> split at hy
    · omega
    · cases hx
      exact absurd hy (objectIndex?_eq_none new)
    · cases hy
      exact absurd hx (objectIndex?_eq_none new)
    · exact hi.object_name hx hy
  constant := by
    intro x k hk
    have old := hi.constant hk
    obtain ⟨hlt, -⟩ := Array.getElem?_eq_some_iff.mp old
    rw [Array.getElem?_push, if_neg (by omega), old]
  atom_object := by
    intro a ha x hx
    have := hi.atom_object ha x hx
    simp only [objectCount, Array.size_push] at this ⊢
    omega
  atom_arity := hi.atom_arity

theorem Valid.addObject (hi : i.Valid v) {name : String} {k : Nat}
    (h : i.addObject name = .ok (k, j)) : j.Valid v := by
  unfold Instance.addObject at h
  cases new : i.objectIndex? name with
  | some x =>
    rw [new] at h
    cases h
  | none =>
    rw [new] at h
    cases h
    exact hi.push_object new

theorem Valid.resolveObject (hi : i.Valid v) (name : String) :
    (i.resolveObject name).2.Valid v ∧ (i.resolveObject name).2.atoms = i.atoms ∧
      (i.resolveObject name).1 < (i.resolveObject name).2.objectCount ∧
      i.objectCount ≤ (i.resolveObject name).2.objectCount := by
  unfold Instance.resolveObject
  cases found : i.objectIndex? name with
  | some x =>
    obtain ⟨hlt, -⟩ := Array.getElem?_eq_some_iff.mp (objectIndex?_eq_some found)
    exact ⟨hi, rfl, hlt, Nat.le_refl _⟩
  | none =>
    refine ⟨hi.push_object found, rfl, ?_, ?_⟩ <;> simp [objectCount]

/-- The indices of resolved objects are objects, as many as there are names. -/
theorem Valid.resolveObjects (hi : i.Valid v) (names : List String) :
    (i.resolveObjects names).2.Valid v ∧ (i.resolveObjects names).2.atoms = i.atoms ∧
      (∀ x ∈ (i.resolveObjects names).1, x < (i.resolveObjects names).2.objectCount) ∧
      (i.resolveObjects names).1.length = names.length ∧
      i.objectCount ≤ (i.resolveObjects names).2.objectCount := by
  induction names generalizing i with
  | nil => exact ⟨hi, rfl, by simp [Instance.resolveObjects], rfl, Nat.le_refl _⟩
  | cons name names ih =>
    obtain ⟨first, atoms, hlt, hle⟩ := hi.resolveObject name
    obtain ⟨rest, atoms', hlt', length, hle'⟩ := ih first
    refine ⟨rest, atoms'.trans atoms, ?_, congrArg (· + 1) length, Nat.le_trans hle hle'⟩
    intro x hx
    rcases List.mem_cons.mp hx with rfl | hx
    · exact Nat.lt_of_lt_of_le hlt hle'
    · exact hlt' x hx

theorem Valid.addAtom (hv : v.Valid) (hi : i.Valid v) {predicate : String} {objects : List String}
    {isStatic : Bool} {a : Atom} (h : i.addAtom predicate objects isStatic = .ok (a, j)) :
    j.Valid v := by
  obtain ⟨p, hp, arity, -, rfl, rfl⟩ := addAtom_eq_ok h
  obtain ⟨rest, atoms, hlt, length, hle⟩ := hi.resolveObjects objects
  rw [hi.vocabulary] at hp
  have owned := hv.getElem?_index (Vocabulary.mem_of_predicate_eq_ok hp)
  refine ⟨rest.vocabulary, rest.object_name, rest.constant, ?_, ?_⟩
  · intro b hb x hx
    rcases Array.mem_push.mp hb with hb | rfl
    · exact rest.atom_object hb x hx
    · exact hlt x hx
  · intro b hb
    rcases Array.mem_push.mp hb with hb | rfl
    · exact rest.atom_arity hb
    · exact ⟨p, owned, length.trans arity.symm⟩

theorem Built.valid (hv : v.Valid) (h : Built v i) : i.Valid v := by
  induction h with
  | ofVocabulary => exact valid_ofVocabulary hv
  | addObject _ hadd ih => exact ih.addObject hadd
  | addAtom _ hadd ih => exact ih.addAtom hv hadd

/-- The objects with a name: the one that is found, if one is. -/
theorem Valid.mem_objectIndex? (hi : i.Valid v) {name : String} {x : Nat} :
    x ∈ (i.objectIndex? name).toList ↔ i.objects[x]? = some name := by
  rw [Option.mem_toList]
  cases found : i.objectIndex? name with
  | none => simp [objectIndex?_eq_none found]
  | some y =>
    have hy := objectIndex?_eq_some found
    constructor
    · rintro ⟨⟩
      exact hy
    · intro hx
      rw [hi.object_name hx hy]

/-- A constant names exactly one object. -/
theorem Valid.existsUnique_constant (hi : i.Valid v) {k : Constant} (hk : k ∈ v.constants) :
    ∃! x : Nat, i.objects[x]? = some k.name := by
  obtain ⟨x, hx⟩ := Array.mem_iff_getElem?.mp hk
  exact ⟨x, hi.constant hx, fun y hy => hi.object_name hy (hi.constant hx)⟩

end Instance

namespace State

variable {s : State}

/-- A state of an instance that is built over a vocabulary. -/
inductive Built (v : Vocabulary) : State → Prop where
  /-- The state of listed indices. -/
  | ofIndices {i : Instance} {indices : List Nat} {next next' : Nat} {s : State} :
      Instance.Built v i → (ofIndices i indices).run next = .ok (s, next') → Built v s
  /-- The state of listed names. -/
  | ofNames {i : Instance} {names : List String} {next next' : Nat} {s : State} :
      Instance.Built v i → (ofNames i names).run next = .ok (s, next') → Built v s

/-- What the state of listed indices is. -/
theorem ofIndices_eq_ok {i : Instance} {indices : List Nat} {next next' : Nat}
    (h : (ofIndices i indices).run next = .ok (s, next')) :
    ∃ atoms, dynamicAtoms i indices = .ok atoms ∧
      s = ⟨next, i, (NatSet.ofList atoms).toList⟩ ∧ next' = next + 1 := by
  unfold ofIndices at h
  cases ha : dynamicAtoms i indices with
  | error e =>
    rw [ha] at h
    cases h
  | ok atoms =>
    rw [ha] at h
    cases h
    exact ⟨atoms, rfl, rfl, rfl⟩

/-- The state of listed names is that of their indices. -/
theorem ofNames_eq_ok {i : Instance} {names : List String} {next next' : Nat}
    (h : (ofNames i names).run next = .ok (s, next')) :
    ∃ indices, names.mapM (atomNamed i) = .ok indices ∧
      (ofIndices i indices).run next = .ok (s, next') := by
  unfold ofNames at h
  cases hn : names.mapM (atomNamed i) with
  | error e =>
    rw [hn] at h
    cases h
  | ok indices =>
    rw [hn] at h
    exact ⟨indices, rfl, h⟩

theorem problem_ofIndices {i : Instance} {indices : List Nat} {next next' : Nat}
    (h : (ofIndices i indices).run next = .ok (s, next')) : s.problem = i := by
  obtain ⟨atoms, -, rfl, -⟩ := ofIndices_eq_ok h
  rfl

theorem problem_ofNames {i : Instance} {names : List String} {next next' : Nat}
    (h : (ofNames i names).run next = .ok (s, next')) : s.problem = i := by
  obtain ⟨indices, -, h⟩ := ofNames_eq_ok h
  exact problem_ofIndices h

theorem Built.valid (hv : v.Valid) (h : Built v s) : s.problem.Valid v := by
  cases h with
  | ofIndices hi hs =>
    rw [problem_ofIndices hs]
    exact hi.valid hv
  | ofNames hi hs =>
    rw [problem_ofNames hs]
    exact hi.valid hv

theorem Built.problem (hs : s.Built v) : s.problem.Built v := by
  cases hs with
  | ofIndices hi h => rwa [problem_ofIndices h]
  | ofNames hi h => rwa [problem_ofNames h]

/-- The indices that a state keeps are those listed that are not of static atoms. -/
theorem mem_dynamicAtoms {i : Instance} {indices atoms : List Nat}
    (h : dynamicAtoms i indices = .ok atoms) {k : Nat} :
    k ∈ atoms ↔ k ∈ indices ∧ ∃ a, i.atoms[k]? = some a ∧ a.isStatic = false := by
  induction indices generalizing atoms with
  | nil =>
    cases h
    simp
  | cons index indices ih =>
    rw [dynamicAtoms] at h
    cases ha : i.atoms[index]? with
    | none =>
      rw [ha] at h
      cases h
    | some a =>
      rw [ha] at h
      cases hrest : dynamicAtoms i indices with
      | error err =>
        rw [hrest] at h
        cases h
      | ok rest =>
        rw [hrest] at h
        cases h
        have first : (∃ b, i.atoms[index]? = some b ∧ b.isStatic = false) ↔ a.isStatic = false := by
          simp [ha]
        have later := ih hrest
        rw [List.mem_cons, or_and_right, ← later]
        cases hs : a.isStatic with
        | true =>
          rw [if_pos rfl, or_iff_right]
          rintro ⟨rfl, dynamic⟩
          rw [first, hs] at dynamic
          cases dynamic
        | false =>
          rw [if_neg Bool.false_ne_true, List.mem_cons]
          refine or_congr_left ⟨?_, And.left⟩
          rintro rfl
          exact ⟨rfl, first.mpr hs⟩

theorem mem_atoms_ofIndices {i : Instance} {indices : List Nat} {next next' : Nat}
    (h : (ofIndices i indices).run next = .ok (s, next')) {k : Nat} :
    k ∈ s.atoms ↔ k ∈ indices ∧ ∃ a, i.atoms[k]? = some a ∧ a.isStatic = false := by
  obtain ⟨atoms, hatoms, rfl, -⟩ := ofIndices_eq_ok h
  rw [← mem_dynamicAtoms hatoms]
  simp [NatSet.mem_iff]

/-- A state lists only atoms that are not static. -/
theorem Built.not_isStatic (hs : s.Built v) :
    ∀ k ∈ s.atoms, ∃ a, s.problem.atoms[k]? = some a ∧ a.isStatic = false := by
  intro k hk
  cases hs with
  | ofIndices _ h =>
    rw [problem_ofIndices h]
    exact ((mem_atoms_ofIndices h).mp hk).2
  | ofNames _ h =>
    obtain ⟨indices, -, h⟩ := ofNames_eq_ok h
    rw [problem_ofIndices h]
    exact ((mem_atoms_ofIndices h).mp hk).2

theorem id_ofIndices {i : Instance} {indices : List Nat} {next next' : Nat}
    (h : (ofIndices i indices).run next = .ok (s, next')) : s.id = next ∧ next' = next + 1 := by
  obtain ⟨atoms, -, rfl, rfl⟩ := ofIndices_eq_ok h
  exact ⟨rfl, rfl⟩

theorem id_ofNames {i : Instance} {names : List String} {next next' : Nat}
    (h : (ofNames i names).run next = .ok (s, next')) : s.id = next ∧ next' = next + 1 := by
  obtain ⟨indices, -, h⟩ := ofNames_eq_ok h
  exact id_ofIndices h

/-- The states were drawn one after the other, the last one first, from a counter that stands at
`next` now. -/
inductive Drawn (v : Vocabulary) : List State → Nat → Prop where
  /-- No state was drawn. -/
  | nil (next : Nat) : Drawn v [] next
  /-- The counter went on for other states. -/
  | others {l : List State} {next next' : Nat} : Drawn v l next → next ≤ next' → Drawn v l next'
  /-- The state of listed indices was drawn. -/
  | ofIndices {l : List State} {i : Instance} {indices : List Nat} {next next' : Nat} {s : State} :
      Drawn v l next → Instance.Built v i → (ofIndices i indices).run next = .ok (s, next') →
      Drawn v (s :: l) next'
  /-- The state of listed names was drawn. -/
  | ofNames {l : List State} {i : Instance} {names : List String} {next next' : Nat} {s : State} :
      Drawn v l next → Instance.Built v i → (ofNames i names).run next = .ok (s, next') →
      Drawn v (s :: l) next'

theorem Drawn.built {l : List State} {next : Nat} (h : Drawn v l next) : ∀ s ∈ l, Built v s := by
  induction h with
  | nil => simp
  | others _ _ ih => exact ih
  | ofIndices _ hi hs ih => exact List.forall_mem_cons.mpr ⟨.ofIndices hi hs, ih⟩
  | ofNames _ hi hs ih => exact List.forall_mem_cons.mpr ⟨.ofNames hi hs, ih⟩

theorem Drawn.id_lt {l : List State} {next : Nat} (h : Drawn v l next) : ∀ s ∈ l, s.id < next := by
  induction h with
  | nil => simp
  | others _ le ih => exact fun s hs => Nat.lt_of_lt_of_le (ih s hs) le
  | ofIndices _ _ hs ih =>
    obtain ⟨id, rfl⟩ := id_ofIndices hs
    refine List.forall_mem_cons.mpr ⟨by omega, fun s hs => ?_⟩
    exact Nat.lt_succ_of_lt (ih s hs)
  | ofNames _ _ hs ih =>
    obtain ⟨id, rfl⟩ := id_ofNames hs
    refine List.forall_mem_cons.mpr ⟨by omega, fun s hs => ?_⟩
    exact Nat.lt_succ_of_lt (ih s hs)

/-- A state with a new identity is not taken for one drawn before. -/
theorem eq_of_id_eq_cons {l : List State} {s : State}
    (old : ∀ s₁ ∈ l, ∀ s₂ ∈ l, s₁.id = s₂.id → s₁ = s₂) (new : ∀ s' ∈ l, s'.id < s.id) :
    ∀ s₁ ∈ s :: l, ∀ s₂ ∈ s :: l, s₁.id = s₂.id → s₁ = s₂ := by
  intro s₁ h₁ s₂ h₂ same
  rcases List.mem_cons.mp h₁ with first₁ | later₁ <;>
    rcases List.mem_cons.mp h₂ with first₂ | later₂
  · rw [first₁, first₂]
  · have := new s₂ later₂
    rw [← same, first₁] at this
    omega
  · have := new s₁ later₁
    rw [same, first₂] at this
    omega
  · exact old s₁ later₁ s₂ later₂ same

/-- States are told apart by their identities. -/
theorem Drawn.eq_of_id_eq {l : List State} {next : Nat} (h : Drawn v l next) :
    ∀ s₁ ∈ l, ∀ s₂ ∈ l, s₁.id = s₂.id → s₁ = s₂ := by
  induction h with
  | nil => simp
  | others _ _ ih => exact ih
  | ofIndices hl _ hs ih =>
    obtain ⟨rfl, -⟩ := id_ofIndices hs
    exact eq_of_id_eq_cons ih hl.id_lt
  | ofNames hl _ hs ih =>
    obtain ⟨rfl, -⟩ := id_ofNames hs
    exact eq_of_id_eq_cons ih hl.id_lt

/-- The atom holds in the state: it is static or one of the state's own. -/
def Holds (s : State) (a : Atom) : Prop :=
  ∃ k : Nat, s.problem.atoms[k]? = some a ∧ (a.isStatic = true ∨ k ∈ s.atoms)

theorem mem_trueAtoms {a : Atom} : a ∈ s.trueAtoms ↔ s.Holds a := by
  simp only [trueAtoms, Instance.staticAtoms, List.mem_append, List.mem_filterMap, List.mem_filter,
    Array.mem_toList_iff]
  constructor
  · rintro (⟨k, hk, ha⟩ | ⟨ha, static⟩)
    · exact ⟨k, ha, .inr hk⟩
    · obtain ⟨k, hk⟩ := Array.mem_iff_getElem?.mp ha
      exact ⟨k, hk, .inl static⟩
  · rintro ⟨k, hk, static | own⟩
    · exact .inr ⟨Array.mem_of_getElem? hk, static⟩
    · exact .inl ⟨k, own, hk⟩

end State

/-! ## Two states of one instance -/

/-- A state in which two predicates hold of the same pairs of objects. -/
def twoPaths : State where
  id := 0
  problem :=
    { vocabulary := ⟨0, #[⟨"p", 2, false, 0⟩, ⟨"q", 2, false, 1⟩], #[]⟩
      objects := #["a", "b", "c"]
      atoms :=
        #[⟨"p(a,b)", 0, [0, 1], false, 0⟩, ⟨"p(b,c)", 0, [1, 2], false, 1⟩,
          ⟨"q(a,b)", 1, [0, 1], false, 2⟩, ⟨"q(b,c)", 1, [1, 2], false, 3⟩] }
  atoms := [0, 1, 2, 3]

/-- A state of the same instance with one of these atoms. -/
def onePath : State := { twoPaths with id := 1, atoms := [0] }

theorem built_twoPaths : twoPaths.vocabulary.Built := by
  let p : Predicate := ⟨"p", 2, false, 0⟩
  let q : Predicate := ⟨"q", 2, false, 1⟩
  have first : (Vocabulary.empty 0).addPredicate "p" 2 false = .ok (p, ⟨0, #[p], #[]⟩) := by
    decide
  have second : (⟨0, #[p], #[]⟩ : Vocabulary).addPredicate "q" 2 false =
      .ok (q, twoPaths.vocabulary) := by
    decide
  exact .addPredicate (.addPredicate (.empty 0) first) second

theorem drawn_twoPaths : State.Drawn twoPaths.vocabulary [twoPaths] 1 := by
  let pab : Atom := ⟨"p(a,b)", 0, [0, 1], false, 0⟩
  let pbc : Atom := ⟨"p(b,c)", 0, [1, 2], false, 1⟩
  let qab : Atom := ⟨"q(a,b)", 1, [0, 1], false, 2⟩
  let qbc : Atom := ⟨"q(b,c)", 1, [1, 2], false, 3⟩
  let i₁ : Instance := ⟨twoPaths.vocabulary, #["a", "b"], #[pab]⟩
  let i₂ : Instance := ⟨twoPaths.vocabulary, #["a", "b", "c"], #[pab, pbc]⟩
  let i₃ : Instance := ⟨twoPaths.vocabulary, #["a", "b", "c"], #[pab, pbc, qab]⟩
  have add₁ : (Instance.ofVocabulary twoPaths.vocabulary).addAtom "p" ["a", "b"] false =
      .ok (pab, i₁) := by
    decide +kernel
  have add₂ : i₁.addAtom "p" ["b", "c"] false = .ok (pbc, i₂) := by decide +kernel
  have add₃ : i₂.addAtom "q" ["a", "b"] false = .ok (qab, i₃) := by decide +kernel
  have add₄ : i₃.addAtom "q" ["b", "c"] false = .ok (qbc, twoPaths.problem) := by decide +kernel
  have state : (State.ofIndices twoPaths.problem [0, 1, 2, 3]).run 0 = .ok (twoPaths, 1) := by
    decide +kernel
  exact .ofIndices (.nil 0) (.addAtom (.addAtom (.addAtom (.addAtom .ofVocabulary add₁) add₂) add₃)
    add₄) state

theorem drawn_onePath : State.Drawn twoPaths.vocabulary [onePath, twoPaths] 2 := by
  have problem := (drawn_twoPaths.built twoPaths (List.mem_singleton_self _)).problem
  have state : (State.ofIndices twoPaths.problem [0]).run 1 = .ok (onePath, 2) := by
    decide +kernel
  exact .ofIndices drawn_twoPaths problem state

end DescLogic
