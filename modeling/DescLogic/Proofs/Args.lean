import DescLogic.Element.Node
import Mathlib.Tactic.CasesM
/-!
# Arguments and nodes, element by element

What stands in the places of the elements of a node may be replaced, and two nodes over one
operator may be compared place by place.

* `Args.All`, `Args.Rel`: a property of all elements, and a relation between the elements of two
  argument lists that agree in all else.
* `Args.rel_eq_iff`: argument lists are related by `f x = g y` if and only if `f` and `g` map them
  to the same arguments.
* `Args.mapM_eq_ok`: replacing the elements by something that may fail.
* `Node.map`, `Node.swap`: a node with its elements replaced, and one with its two operands
  exchanged if the operator is commutative. `Node.sorted_eq_or`: putting the operands in order is
  to exchange them or to do nothing.
* `Node.InRange`: what the check of positions asks for.
-/

namespace DescLogic

namespace Args

variable {χ ψ ω : Category → Type} {ps : List Parameter}

/-- All elements satisfy `P`. -/
inductive All (P : {c : Category} → χ c → Prop) : {ps : List Parameter} → Args χ ps → Prop where
  | nil : All P .nil
  | predicate {ps : List Parameter} {a : Args χ ps} (p : Predicate) :
      All P a → All P (.predicate p a)
  | constant {ps : List Parameter} {a : Args χ ps} (k : Constant) :
      All P a → All P (.constant k a)
  | position {ps : List Parameter} {a : Args χ ps} (i : Nat) : All P a → All P (.position i a)
  | element {ps : List Parameter} {c : Category} {a : Args χ ps} {x : χ c} :
      P x → All P a → All P (.element x a : Args χ (.element c :: ps))

/-- The elements are related by `R`, place by place, and all else is the same. -/
inductive Rel (R : {c : Category} → χ c → ψ c → Prop) :
    {ps : List Parameter} → Args χ ps → Args ψ ps → Prop where
  | nil : Rel R .nil .nil
  | predicate {ps : List Parameter} {a : Args χ ps} {b : Args ψ ps} (p : Predicate) :
      Rel R a b → Rel R (.predicate p a) (.predicate p b)
  | constant {ps : List Parameter} {a : Args χ ps} {b : Args ψ ps} (k : Constant) :
      Rel R a b → Rel R (.constant k a) (.constant k b)
  | position {ps : List Parameter} {a : Args χ ps} {b : Args ψ ps} (i : Nat) :
      Rel R a b → Rel R (.position i a) (.position i b)
  | element {ps : List Parameter} {c : Category} {a : Args χ ps} {b : Args ψ ps} {x : χ c}
      {y : ψ c} : R x y → Rel R a b →
      Rel R (.element x a : Args χ (.element c :: ps)) (.element y b : Args ψ (.element c :: ps))

/-! ## Properties of all elements -/

section All

variable {P Q : {c : Category} → χ c → Prop} {a : Args χ ps}

@[simp] theorem all_nil : (nil : Args χ []).All P := .nil

@[simp] theorem all_predicate {p : Predicate} : (predicate p a).All P ↔ a.All P :=
  ⟨fun h => by cases h; assumption, .predicate p⟩

@[simp] theorem all_constant {k : Constant} : (constant k a).All P ↔ a.All P :=
  ⟨fun h => by cases h; assumption, .constant k⟩

@[simp] theorem all_position {i : Nat} : (position i a).All P ↔ a.All P :=
  ⟨fun h => by cases h; assumption, .position i⟩

@[simp] theorem all_element {c : Category} {x : χ c} : (element x a).All P ↔ P x ∧ a.All P :=
  ⟨fun h => by cases h; exact ⟨‹_›, ‹_›⟩, fun h => .element h.1 h.2⟩

theorem all_pair_comm {c : Category} {x y : χ c} :
    (element y (element x nil)).All P ↔ (element x (element y nil)).All P := by
  simp [and_comm]

theorem all_of_forall (h : ∀ {c : Category} (x : χ c), P x) (a : Args χ ps) : a.All P := by
  induction a with
  | nil => exact .nil
  | predicate p _ ih => exact .predicate p ih
  | constant k _ ih => exact .constant k ih
  | position i _ ih => exact .position i ih
  | element x _ ih => exact .element (h x) ih

theorem All.imp (imp : ∀ {c : Category} {x : χ c}, P x → Q x) (h : a.All P) : a.All Q := by
  induction h with
  | nil => exact .nil
  | predicate p _ ih => exact .predicate p ih
  | constant k _ ih => exact .constant k ih
  | position i _ ih => exact .position i ih
  | element hx _ ih => exact .element (imp hx) ih

theorem All.and (h : a.All P) (h' : a.All Q) : a.All fun x => P x ∧ Q x := by
  induction h with
  | nil => exact .nil
  | predicate p _ ih => exact .predicate p (ih (all_predicate.mp h'))
  | constant k _ ih => exact .constant k (ih (all_constant.mp h'))
  | position i _ ih => exact .position i (ih (all_position.mp h'))
  | element hx _ ih =>
    obtain ⟨hx', h'⟩ := all_element.mp h'
    exact .element ⟨hx, hx'⟩ (ih h')

theorem All.of_one {c : Category} {a : Args χ [.element c]} (h : a.All P) :
    ∃ x, a = .element x .nil ∧ P x := by
  cases h with
  | element hx h =>
    cases h
    exact ⟨_, rfl, hx⟩

theorem All.of_two {c d : Category} {a : Args χ [.element c, .element d]} (h : a.All P) :
    ∃ x y, a = .element x (.element y .nil) ∧ P x ∧ P y := by
  cases h with
  | element hx h =>
    obtain ⟨y, rfl, hy⟩ := h.of_one
    exact ⟨_, _, rfl, hx, hy⟩

theorem All.of_three {c d e : Category} {a : Args χ [.element c, .element d, .element e]}
    (h : a.All P) : ∃ x y z, a = .element x (.element y (.element z .nil)) ∧ P x ∧ P y ∧ P z := by
  cases h with
  | element hx h =>
    obtain ⟨y, z, rfl, hy, hz⟩ := h.of_two
    exact ⟨_, _, _, rfl, hx, hy, hz⟩

/-- What all listed values satisfy, the elements satisfy. -/
theorem all_iff_elements {α : Type} {e : {c : Category} → χ c → α} {p : α → Prop} :
    (a.All fun x => p (e x)) ↔ ∀ y ∈ a.elements e, p y := by
  induction a <;> simp_all [elements]

end All

/-! ## Replacing elements -/

section Map

variable {a : Args χ ps} {f : {c : Category} → ψ c → ω c} {g : {c : Category} → χ c → ψ c}

@[simp] theorem map_map : (a.map g).map f = a.map fun x => f (g x) := by
  induction a <;> simp_all [map]

@[simp] theorem map_id : (a.map fun x => x) = a := by
  induction a <;> simp_all [map]

theorem map_congr {g' : {c : Category} → χ c → ψ c} (h : a.All fun x => g x = g' x) :
    a.map g = a.map g' := by
  induction a <;> simp_all [map]

theorem elements_congr {α : Type} {e e' : {c : Category} → χ c → α}
    (h : a.All fun x => e x = e' x) : a.elements e = a.elements e' := by
  induction a <;> simp_all [elements]

@[simp] theorem elements_map {α : Type} {e : {c : Category} → ψ c → α} :
    (a.map g).elements e = a.elements fun x => e (g x) := by
  induction a <;> simp_all [map, elements]

@[simp] theorem texts_map {e : {c : Category} → ψ c → String} :
    (a.map g).texts e = a.texts fun x => e (g x) := by
  induction a <;> simp_all [map, texts]

@[simp] theorem predicatesStatic_map : (a.map g).predicatesStatic = a.predicatesStatic := by
  induction a <;> simp_all [map, predicatesStatic]

@[simp] theorem checkNames_map {v : Vocabulary} :
    (a.map g).checkNames v = a.checkNames v := by
  induction a <;> simp_all [map, checkNames]

@[simp] theorem all_map {P : {c : Category} → ψ c → Prop} :
    (a.map g).All P ↔ a.All fun x => P (g x) := by
  induction a <;> simp_all [map]

end Map

theorem checkNames_predicate {v : Vocabulary} {p : Predicate} {a : Args χ ps} :
    (predicate p a).checkNames v = .ok () ↔ v.ownsPredicate p = true ∧ a.checkNames v = .ok () := by
  rw [checkNames]
  split <;> simp_all

theorem checkNames_constant {v : Vocabulary} {k : Constant} {a : Args χ ps} :
    (constant k a).checkNames v = .ok () ↔ v.ownsConstant k = true ∧ a.checkNames v = .ok () := by
  rw [checkNames]
  split <;> simp_all

/-! ## Relations between elements -/

section Rel

variable {R : {c : Category} → χ c → ψ c → Prop} {a : Args χ ps} {b : Args ψ ps}

theorem Rel.imp {S : {c : Category} → χ c → ψ c → Prop}
    (imp : ∀ {c : Category} {x : χ c} {y : ψ c}, R x y → S x y) (h : a.Rel R b) : a.Rel S b := by
  induction h with
  | nil => exact .nil
  | predicate p _ ih => exact .predicate p ih
  | constant k _ ih => exact .constant k ih
  | position i _ ih => exact .position i ih
  | element hx _ ih => exact .element (imp hx) ih

theorem Rel.of_predicate {a : Args χ (.predicate :: ps)} {p : Predicate} {b : Args ψ ps}
    (h : a.Rel R (.predicate p b)) : ∃ a', a = .predicate p a' ∧ a'.Rel R b := by
  cases h with
  | predicate _ h => exact ⟨_, rfl, h⟩

theorem Rel.of_position {a : Args χ (.position :: ps)} {i : Nat} {b : Args ψ ps}
    (h : a.Rel R (.position i b)) : ∃ a', a = .position i a' ∧ a'.Rel R b := by
  cases h with
  | position _ h => exact ⟨_, rfl, h⟩

theorem Rel.of_one {c : Category} {a : Args χ [.element c]} {b : Args ψ [.element c]}
    (h : a.Rel R b) : ∃ x x', a = .element x .nil ∧ b = .element x' .nil ∧ R x x' := by
  cases h with
  | element hx h =>
    cases h
    exact ⟨_, _, rfl, rfl, hx⟩

theorem Rel.of_two {c d : Category} {a : Args χ [.element c, .element d]}
    {b : Args ψ [.element c, .element d]} (h : a.Rel R b) :
    ∃ x y x' y', a = .element x (.element y .nil) ∧ b = .element x' (.element y' .nil) ∧
      R x x' ∧ R y y' := by
  cases h with
  | element hx h =>
    obtain ⟨y, y', rfl, rfl, hy⟩ := h.of_one
    exact ⟨_, _, _, _, rfl, rfl, hx, hy⟩

theorem Rel.of_three {c d e : Category} {a : Args χ [.element c, .element d, .element e]}
    {b : Args ψ [.element c, .element d, .element e]} (h : a.Rel R b) :
    ∃ x y z x' y' z', a = .element x (.element y (.element z .nil)) ∧
      b = .element x' (.element y' (.element z' .nil)) ∧ R x x' ∧ R y y' ∧ R z z' := by
  cases h with
  | element hx h =>
    obtain ⟨y, z, y', z', rfl, rfl, hy, hz⟩ := h.of_two
    exact ⟨_, _, _, _, _, _, rfl, rfl, hx, hy, hz⟩

/-- A relation may be replaced where the elements on the left satisfy a property. -/
theorem Rel.imp_of_all {P : {c : Category} → χ c → Prop}
    {S : {c : Category} → χ c → ψ c → Prop} (h : a.Rel R b) (all : a.All P)
    (imp : ∀ {c : Category} {x : χ c} {y : ψ c}, P x → R x y → S x y) : a.Rel S b := by
  induction h with
  | nil => exact .nil
  | predicate p _ ih => exact .predicate p (ih (all_predicate.mp all))
  | constant k _ ih => exact .constant k (ih (all_constant.mp all))
  | position i _ ih => exact .position i (ih (all_position.mp all))
  | element hx _ ih =>
    obtain ⟨hP, all⟩ := all_element.mp all
    exact .element (imp hP hx) (ih all)

theorem Rel.symm (h : a.Rel R b) : b.Rel (fun y x => R x y) a := by
  induction h with
  | nil => exact .nil
  | predicate p _ ih => exact .predicate p ih
  | constant k _ ih => exact .constant k ih
  | position i _ ih => exact .position i ih
  | element hx _ ih => exact .element hx ih

theorem Rel.all_left {P : {c : Category} → χ c → Prop} (h : a.Rel R b)
    (imp : ∀ {c : Category} {x : χ c} {y : ψ c}, R x y → P x) : a.All P := by
  induction h with
  | nil => exact .nil
  | predicate p _ ih => exact .predicate p ih
  | constant k _ ih => exact .constant k ih
  | position i _ ih => exact .position i ih
  | element hx _ ih => exact .element (imp hx) ih

/-- A relation may be replaced where the elements on the right satisfy a property. -/
theorem Rel.imp_of_all_right {P : {c : Category} → ψ c → Prop}
    {S : {c : Category} → χ c → ψ c → Prop} (h : a.Rel R b) (all : b.All P)
    (imp : ∀ {c : Category} {x : χ c} {y : ψ c}, P y → R x y → S x y) : a.Rel S b :=
  (h.symm.imp_of_all (S := fun y x => S x y) all imp).symm

theorem Rel.all_right {P : {c : Category} → ψ c → Prop} (h : a.Rel R b)
    (imp : ∀ {c : Category} {x : χ c} {y : ψ c}, R x y → P y) : b.All P :=
  h.symm.all_left imp

theorem Rel.trans {S : {c : Category} → ψ c → ω c → Prop} {T : {c : Category} → χ c → ω c → Prop}
    {d : Args ω ps} (h : a.Rel R b) (h' : b.Rel S d)
    (imp : ∀ {c : Category} {x : χ c} {y : ψ c} {z : ω c}, R x y → S y z → T x z) :
    a.Rel T d := by
  induction h with
  | nil => cases h'; exact .nil
  | predicate p _ ih => cases h' with | predicate _ h' => exact .predicate p (ih h')
  | constant k _ ih => cases h' with | constant _ h' => exact .constant k (ih h')
  | position i _ ih => cases h' with | position _ h' => exact .position i (ih h')
  | element hx _ ih => cases h' with | element hy h' => exact .element (imp hx hy) (ih h')

/-- A property of each element is a relation of the arguments to themselves. -/
theorem rel_diagonal {S : {c : Category} → χ c → χ c → Prop} (h : a.All fun x => S x x) :
    a.Rel S a := by
  induction h with
  | nil => exact .nil
  | predicate p _ ih => exact .predicate p ih
  | constant k _ ih => exact .constant k ih
  | position i _ ih => exact .position i ih
  | element hx _ ih => exact .element hx ih

/-- Elements that are related through others are related through arguments made of these. -/
theorem Rel.exists_between {S : {c : Category} → ψ c → ω c → Prop} {d : Args ω ps}
    (h : a.Rel (fun x z => ∃ y, R x y ∧ S y z) d) : ∃ b : Args ψ ps, a.Rel R b ∧ b.Rel S d := by
  induction h with
  | nil => exact ⟨.nil, .nil, .nil⟩
  | predicate p _ ih =>
    obtain ⟨b, hb, hb'⟩ := ih
    exact ⟨_, .predicate p hb, .predicate p hb'⟩
  | constant k _ ih =>
    obtain ⟨b, hb, hb'⟩ := ih
    exact ⟨_, .constant k hb, .constant k hb'⟩
  | position i _ ih =>
    obtain ⟨b, hb, hb'⟩ := ih
    exact ⟨_, .position i hb, .position i hb'⟩
  | element hx _ ih =>
    obtain ⟨y, hy, hy'⟩ := hx
    obtain ⟨b, hb, hb'⟩ := ih
    exact ⟨_, .element hy hb, .element hy' hb'⟩

theorem exists_rel (h : a.All fun x => ∃ y, R x y) : ∃ b : Args ψ ps, a.Rel R b := by
  have through : a.Rel (fun x x' => ∃ y, R x y ∧ R x' y) a := by
    refine rel_diagonal (h.imp ?_)
    rintro c x ⟨y, hy⟩
    exact ⟨y, hy, hy⟩
  obtain ⟨b, hb, -⟩ := through.exists_between
  exact ⟨b, hb⟩

/-- Being mapped to the same is a relation between the elements. -/
theorem rel_eq_iff {f : {c : Category} → χ c → ω c} {g : {c : Category} → ψ c → ω c} :
    a.Rel (fun x y => f x = g y) b ↔ a.map f = b.map g := by
  constructor
  · intro h
    induction h <;> simp_all [map]
  · intro h
    induction a with
    | nil => cases b; exact .nil
    | predicate p _ ih => cases b with | predicate => simp_all [map, Rel.predicate]
    | constant k _ ih => cases b with | constant => simp_all [map, Rel.constant]
    | position i _ ih => cases b with | position => simp_all [map, Rel.position]
    | element x _ ih => cases b with | element => simp_all [map, Rel.element]

theorem Rel.eq {a b : Args χ ps} (h : a.Rel (fun x y => x = y) b) : a = b := by
  simpa using rel_eq_iff.mp h

theorem rel_map {f : {c : Category} → χ c → ψ c} : a.Rel (fun x y => f x = y) (a.map f) :=
  rel_eq_iff.mpr (by simp)

/-- Mapping on the left may be moved into the relation. -/
theorem rel_map_left {S : {c : Category} → ω c → ψ c → Prop} {f : {c : Category} → χ c → ω c} :
    (a.map f).Rel S b ↔ a.Rel (fun x y => S (f x) y) b := by
  constructor
  · intro h
    exact rel_map.trans h (fun hx hy => hx ▸ hy)
  · intro h
    exact rel_map.symm.trans h (fun hx hy => hx ▸ hy)

theorem rel_map_right {S : {c : Category} → χ c → ω c → Prop} {f : {c : Category} → ψ c → ω c} :
    a.Rel S (b.map f) ↔ a.Rel (fun x y => S x (f y)) b := by
  constructor
  · intro h
    exact (rel_map_left.mp h.symm).symm
  · intro h
    exact (rel_map_left.mpr h.symm).symm

theorem Rel.checkNames_eq {v : Vocabulary} (h : a.Rel R b) : a.checkNames v = b.checkNames v := by
  induction h <;> simp_all [checkNames]

/-- Replacing the elements succeeds if and only if each single replacement does. -/
theorem mapM_eq_ok {ε : Type} {f : {c : Category} → χ c → Except ε (ψ c)} :
    a.mapM f = .ok b ↔ a.Rel (fun x y => f x = .ok y) b := by
  constructor
  · intro h
    induction a with
    | nil => cases b; exact .nil
    | predicate p rest ih =>
      cases hr : rest.mapM f <;> simp [mapM, hr, bind, Except.bind, pure, Except.pure] at h
      subst h
      exact .predicate p (ih hr)
    | constant k rest ih =>
      cases hr : rest.mapM f <;> simp [mapM, hr, bind, Except.bind, pure, Except.pure] at h
      subst h
      exact .constant k (ih hr)
    | position i rest ih =>
      cases hr : rest.mapM f <;> simp [mapM, hr, bind, Except.bind, pure, Except.pure] at h
      subst h
      exact .position i (ih hr)
    | element x rest ih =>
      cases hx : f x <;> cases hr : rest.mapM f <;>
        simp [mapM, hx, hr, bind, Except.bind, pure, Except.pure] at h
      subst h
      exact .element hx (ih hr)
  · intro h
    induction h with
    | nil => rfl
    | predicate p _ ih => simp [mapM, ih, bind, Except.bind, pure, Except.pure]
    | constant k _ ih => simp [mapM, ih, bind, Except.bind, pure, Except.pure]
    | position i _ ih => simp [mapM, ih, bind, Except.bind, pure, Except.pure]
    | element hx _ ih => simp [mapM, hx, ih, bind, Except.bind, pure, Except.pure]

end Rel

end Args

/-! ## Nodes -/

namespace Node

variable {χ ψ : Category → Type} {c : Category} {n : Node χ c}

/-- The node with its elements replaced. -/
def map (f : {d : Category} → χ d → ψ d) (n : Node χ c) : Node ψ c := ⟨n.operator, n.args.map f⟩

variable {f : {d : Category} → χ d → ψ d}

@[simp] theorem operator_map : (n.map f).operator = n.operator := rfl

@[simp] theorem args_map : (n.map f).args = n.args.map f := rfl

@[simp] theorem map_map {ω : Category → Type} {g : {d : Category} → ψ d → ω d} :
    (n.map f).map g = n.map fun x => g (f x) := by
  simp [map]

@[simp] theorem text_map {e : {d : Category} → ψ d → String} :
    (n.map f).text e = n.text fun x => e (f x) := by
  simp [text]

@[simp] theorem summary_map {e : {d : Category} → ψ d → Summary} :
    (n.map f).summary e = n.summary fun x => e (f x) := by
  simp [summary]

/-- Operands are less complex than the node. -/
theorem complexity_lt (infoOf : {d : Category} → χ d → Summary) (n : Node χ c) :
    n.args.All fun x => (infoOf x).complexity < (n.summary infoOf).complexity := by
  have bounded : ∀ {infos : List Summary}, ∀ s ∈ infos,
      s.complexity < infos.foldr (fun s n => s.complexity + n) 1 := by
    intro infos s hs
    induction infos with
    | nil => cases hs
    | cons s' infos ih =>
      have positive : 1 ≤ infos.foldr (fun s n => s.complexity + n) 1 := by
        generalize infos = l
        induction l with
        | nil => exact Nat.le_refl 1
        | cons s l ih => exact Nat.le_trans ih (Nat.le_add_left _ _)
      rw [List.foldr_cons]
      rcases List.mem_cons.mp hs with rfl | hs
      · omega
      · have := ih hs
        omega
  exact Args.all_iff_elements.mpr bounded

@[simp] theorem checkPositions_map : (n.map f).checkPositions = n.checkPositions := by
  obtain ⟨o, a⟩ := n
  cases o <;> casesm* Args _ _ <;> rfl

/-- Positions do not depend on the elements. -/
theorem checkPositions_eq {o : Operator c} {a : Args χ o.signature} {b : Args ψ o.signature}
    {R : {d : Category} → χ d → ψ d → Prop} (h : a.Rel R b) :
    (⟨o, a⟩ : Node χ c).checkPositions = (⟨o, b⟩ : Node ψ c).checkPositions := by
  have blank : (⟨o, a⟩ : Node χ c).map (fun _ => ()) = (⟨o, b⟩ : Node ψ c).map fun _ => () :=
    congrArg (Node.mk o) (Args.rel_eq_iff.mp (h.imp fun _ => rfl))
  rw [← checkPositions_map, blank, checkPositions_map]

/-- The node with its two operands exchanged if the operator is commutative. -/
def swap : {c : Category} → Node χ c → Node χ c
  | _, ⟨.andConcept, .element x (.element y .nil)⟩ => ⟨.andConcept, .element y (.element x .nil)⟩
  | _, ⟨.orConcept, .element x (.element y .nil)⟩ => ⟨.orConcept, .element y (.element x .nil)⟩
  | _, ⟨.equalConcept, .element x (.element y .nil)⟩ =>
    ⟨.equalConcept, .element y (.element x .nil)⟩
  | _, ⟨.andRole, .element x (.element y .nil)⟩ => ⟨.andRole, .element y (.element x .nil)⟩
  | _, ⟨.orRole, .element x (.element y .nil)⟩ => ⟨.orRole, .element y (.element x .nil)⟩
  | _, n => n

/-- The operators are the same, and the elements are related place by place. -/
inductive Rel (R : {c : Category} → χ c → ψ c → Prop) :
    {c : Category} → Node χ c → Node ψ c → Prop where
  | intro {c : Category} {o : Operator c} {a : Args χ o.signature} {b : Args ψ o.signature} :
      a.Rel R b → Rel R ⟨o, a⟩ ⟨o, b⟩

/-- Nodes stay related when their operands are exchanged. -/
theorem Rel.swap {R : {c : Category} → χ c → ψ c → Prop} {n : Node χ c} {m : Node ψ c}
    (h : n.Rel R m) : n.swap.Rel R m.swap := by
  cases h with
  | @intro o a b h =>
    cases o with
    | andConcept | orConcept | equalConcept | andRole | orRole =>
      obtain ⟨x, y, x', y', rfl, rfl, hx, hy⟩ := h.of_two
      exact .intro (.element hy (.element hx .nil))
    | _ => exact .intro h

/-! ## Operands in order -/

section Sorted

variable {le : {d : Category} → χ d → χ d → Bool}

theorem inOrder_eq_or (x y : χ c) :
    inOrder le x y = .element x (.element y .nil) ∨
      inOrder le x y = .element y (.element x .nil) := by
  unfold inOrder
  by_cases h : le x y = true
  · exact .inl (if_pos h)
  · exact .inr (if_neg h)

theorem inOrder_map {le : {d : Category} → ψ d → ψ d → Bool} (x y : χ c) :
    inOrder le (f x) (f y) = (inOrder (fun x y => le (f x) (f y)) x y).map f := by
  unfold inOrder
  split <;> rfl

theorem inOrder_comm {le : χ c → χ c → Bool} (total : ∀ x y, le x y = true ∨ le y x = true)
    (antisymm : ∀ {x y}, le x y = true → le y x = true → x = y) (x y : χ c) :
    inOrder le x y = inOrder le y x := by
  unfold inOrder
  by_cases hxy : le x y = true <;> by_cases hyx : le y x = true
  · rw [antisymm hxy hyx]
  · rw [if_pos hxy, if_neg hyx]
  · rw [if_neg hxy, if_pos hyx]
  · exact absurd (total x y) (by simp [hxy, hyx])

@[simp] theorem operator_sorted : (n.sorted le).operator = n.operator := by
  obtain ⟨o, a⟩ := n
  cases o <;> casesm* Args _ _ <;> rfl

@[simp] theorem swap_swap : n.swap.swap = n := by
  obtain ⟨o, a⟩ := n
  cases o <;> casesm* Args _ _ <;> rfl

@[simp] theorem swap_map : (n.map f).swap = n.swap.map f := by
  obtain ⟨o, a⟩ := n
  cases o <;> casesm* Args _ _ <;> rfl

theorem sorted_eq_or (n : Node χ c) (le : {d : Category} → χ d → χ d → Bool) :
    n.sorted le = n ∨ n.sorted le = n.swap := by
  obtain ⟨o, a⟩ := n
  cases o <;> casesm* Args _ _ <;> first
    | exact .inl rfl
    | exact (inOrder_eq_or _ _).imp (congrArg (Node.mk _)) (congrArg (Node.mk _))

theorem sorted_map {le : {d : Category} → ψ d → ψ d → Bool} :
    (n.map f).sorted le = (n.sorted fun x y => le (f x) (f y)).map f := by
  obtain ⟨o, a⟩ := n
  cases o <;> casesm* Args _ _ <;> first
    | rfl
    | exact congrArg (Node.mk _) (inOrder_map _ _)

theorem text_sorted_map (f : {d : Category} → χ d → ψ d)
    (le : {d : Category} → ψ d → ψ d → Bool) (e : {d : Category} → ψ d → String) :
    ((n.map f).sorted le).text e =
      (n.sorted fun x y => le (f x) (f y)).text fun x => e (f x) := by
  rw [sorted_map, text_map]

theorem summary_sorted_map (f : {d : Category} → χ d → ψ d)
    (le : {d : Category} → ψ d → ψ d → Bool) (e : {d : Category} → ψ d → Summary) :
    ((n.map f).sorted le).summary e =
      (n.sorted fun x y => le (f x) (f y)).summary fun x => e (f x) := by
  rw [sorted_map, summary_map]

/-- Exchanged operands come into the same order. -/
theorem sorted_swap (total : ∀ {d : Category} (x y : χ d), le x y = true ∨ le y x = true)
    (antisymm : ∀ {d : Category} {x y : χ d}, le x y = true → le y x = true → x = y) :
    n.swap.sorted le = n.sorted le := by
  obtain ⟨o, a⟩ := n
  cases o <;> casesm* Args _ _ <;> first
    | rfl
    | exact congrArg (Node.mk _) (inOrder_comm total antisymm _ _)

@[simp] theorem all_args_swap {P : {d : Category} → χ d → Prop} :
    n.swap.args.All P ↔ n.args.All P := by
  obtain ⟨o, a⟩ := n
  cases o <;> casesm* Args _ _ <;> first
    | exact Iff.rfl
    | exact Args.all_pair_comm

@[simp] theorem all_args_sorted {P : {d : Category} → χ d → Prop} :
    (n.sorted le).args.All P ↔ n.args.All P := by
  rcases sorted_eq_or n le with h | h <;> rw [h]
  exact all_args_swap

@[simp] theorem checkNames_swap {v : Vocabulary} :
    n.swap.args.checkNames v = n.args.checkNames v := by
  obtain ⟨o, a⟩ := n
  cases o <;> casesm* Args _ _ <;> rfl

@[simp] theorem checkPositions_swap : n.swap.checkPositions = n.checkPositions := by
  obtain ⟨o, a⟩ := n
  cases o <;> casesm* Args _ _ <;> rfl

@[simp] theorem checkNames_sorted {v : Vocabulary} :
    (n.sorted le).args.checkNames v = n.args.checkNames v := by
  rcases sorted_eq_or n le with h | h <;> rw [h]
  exact checkNames_swap

@[simp] theorem checkPositions_sorted : (n.sorted le).checkPositions = n.checkPositions := by
  rcases sorted_eq_or n le with h | h <;> rw [h]
  exact checkPositions_swap

/-- The two operands are in order if the operator is commutative. -/
def Ordered (le : {d : Category} → χ d → χ d → Bool) : {c : Category} → Node χ c → Prop
  | _, ⟨.andConcept, .element x (.element y .nil)⟩ => le x y = true
  | _, ⟨.orConcept, .element x (.element y .nil)⟩ => le x y = true
  | _, ⟨.equalConcept, .element x (.element y .nil)⟩ => le x y = true
  | _, ⟨.andRole, .element x (.element y .nil)⟩ => le x y = true
  | _, ⟨.orRole, .element x (.element y .nil)⟩ => le x y = true
  | _, _ => True

theorem ordered_map (f : {d : Category} → χ d → ψ d) (le : {d : Category} → ψ d → ψ d → Bool) :
    (n.map f).Ordered le ↔ n.Ordered fun x y => le (f x) (f y) := by
  obtain ⟨o, a⟩ := n
  cases o <;> casesm* Args _ _ <;> exact Iff.rfl

/-- What holds of two operands in either order, if that is their order, holds of them in order. -/
theorem inOrder_cases {le : χ c → χ c → Bool} {x y : χ c}
    {motive : Args χ [.element c, .element c] → Prop}
    (total : ∀ x y, le x y = true ∨ le y x = true)
    (stay : le x y = true → motive (.element x (.element y .nil)))
    (swap : le y x = true → motive (.element y (.element x .nil))) :
    motive (inOrder le x y) := by
  unfold inOrder
  by_cases h : le x y = true
  · rw [if_pos h]
    exact stay h
  · rw [if_neg h]
    exact swap ((total x y).resolve_left h)

theorem ordered_sorted (total : ∀ {d : Category} (x y : χ d), le x y = true ∨ le y x = true) :
    (n.sorted le).Ordered le := by
  obtain ⟨o, a⟩ := n
  cases o <;> casesm* Args _ _ <;> first
    | exact trivial
    | exact inOrder_cases (motive := fun a => Ordered le ⟨.andConcept, a⟩) total id id
    | exact inOrder_cases (motive := fun a => Ordered le ⟨.orConcept, a⟩) total id id
    | exact inOrder_cases (motive := fun a => Ordered le ⟨.equalConcept, a⟩) total id id
    | exact inOrder_cases (motive := fun a => Ordered le ⟨.andRole, a⟩) total id id
    | exact inOrder_cases (motive := fun a => Ordered le ⟨.orRole, a⟩) total id id

theorem Ordered.sorted_eq (h : n.Ordered le) : n.sorted le = n := by
  obtain ⟨o, a⟩ := n
  cases o <;> casesm* Args _ _ <;> first
    | rfl
    | exact congrArg (Node.mk _) (if_pos h)

end Sorted

/-! ## Positions in range -/

section Positions

variable {p : Predicate} {i j : Nat}

theorem checkPosition_eq_ok : checkPosition p i = .ok () ↔ i < p.arity := by
  unfold checkPosition
  split <;> simp_all

theorem checkPositions_primitiveConcept :
    (⟨.primitiveConcept, .predicate p (.position i .nil)⟩ : Node χ _).checkPositions = .ok () ↔
      i < p.arity :=
  checkPosition_eq_ok

theorem checkPositions_primitiveRole :
    (⟨.primitiveRole, .predicate p (.position i (.position j .nil))⟩ :
      Node χ _).checkPositions = .ok () ↔ i < p.arity ∧ j < p.arity := by
  show (checkPosition p i >>= fun _ => checkPosition p j) = .ok () ↔ _
  rw [← checkPosition_eq_ok, ← checkPosition_eq_ok]
  cases checkPosition p i with
  | error e => simp [bind, Except.bind]
  | ok u => simp [bind, Except.bind]

theorem checkPositions_nullary :
    (⟨.nullary, .predicate p .nil⟩ : Node χ _).checkPositions = .ok () ↔ p.arity = 0 := by
  show (if p.arity = 0 then Except.ok () else Except.error _) = _ ↔ _
  split <;> simp_all

theorem checkPositions_projection {x : χ .role} :
    (⟨.projection, .element x (.position i .nil)⟩ : Node χ _).checkPositions = .ok () ↔ i ≤ 1 := by
  show (if i ≤ 1 then Except.ok () else Except.error _) = _ ↔ _
  split <;> simp_all

/-- Positions lie inside the predicate or the pair that they point into, and predicates without a
place for arguments have none. -/
def InRange : {c : Category} → Node χ c → Prop
  | _, ⟨.primitiveConcept, .predicate p (.position i .nil)⟩ => i < p.arity
  | _, ⟨.primitiveRole, .predicate p (.position i (.position j .nil))⟩ =>
    i < p.arity ∧ j < p.arity
  | _, ⟨.nullary, .predicate p .nil⟩ => p.arity = 0
  | _, ⟨.projection, .element _ (.position i .nil)⟩ => i ≤ 1
  | _, _ => True

theorem checkPositions_eq_ok_iff {n : Node χ c} : n.checkPositions = .ok () ↔ n.InRange := by
  obtain ⟨o, a⟩ := n
  cases o <;> casesm* Args _ _ <;> first
    | exact iff_of_true rfl trivial
    | exact checkPositions_primitiveConcept
    | exact checkPositions_primitiveRole
    | exact checkPositions_nullary
    | exact checkPositions_projection

end Positions

end Node

end DescLogic
