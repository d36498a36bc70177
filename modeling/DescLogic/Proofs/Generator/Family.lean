import DescLogic.Generator.Config
import DescLogic.Proofs.Term
/-!
# The terms that rules form

`Family k v` is the least family of terms that the enabled rules form within the limits: a rule
takes names of the vocabulary, positions in range and members of the family, and adds the canonical
form of the term if its complexity is within the limit of its category. Operands differ where a
rule takes two of one category, the end points of a distance differ, and the positions of a
primitive role increase (`Node.Proper`).

`Forms k v A` is one step of it: what an enabled rule forms of operands that satisfy `A`.

* `Node.Rel.proper_iff`: what is proper does not depend on what stands in the place of the elements,
  as long as the same elements are told apart.
* `Term.complexity_canon`, `Term.rule_canon`: canonical forms keep complexity and rule.
-/

namespace DescLogic

variable {χ ψ : Category → Type} {c : Category}

namespace Node

/-! ## Proper nodes -/

/-- The operands differ where two of one category are taken, the end points of a distance differ,
and the positions of a primitive role increase. -/
def Proper : {c : Category} → Node χ c → Prop
  | _, ⟨.primitiveRole, .predicate _ (.position i (.position j .nil))⟩ => i < j
  | _, ⟨.andConcept, .element x (.element y .nil)⟩
  | _, ⟨.orConcept, .element x (.element y .nil)⟩
  | _, ⟨.diffConcept, .element x (.element y .nil)⟩
  | _, ⟨.conceptInclusion, .element x (.element y .nil)⟩ => x ≠ y
  | _, ⟨.subsetConcept, .element x (.element y .nil)⟩
  | _, ⟨.equalConcept, .element x (.element y .nil)⟩
  | _, ⟨.andRole, .element x (.element y .nil)⟩
  | _, ⟨.orRole, .element x (.element y .nil)⟩
  | _, ⟨.diffRole, .element x (.element y .nil)⟩
  | _, ⟨.compose, .element x (.element y .nil)⟩
  | _, ⟨.roleInclusion, .element x (.element y .nil)⟩ => x ≠ y
  | _, ⟨.conceptDistance, .element x (.element _ (.element z .nil))⟩
  | _, ⟨.sumConceptDistance, .element x (.element _ (.element z .nil))⟩ => x ≠ z
  | _, ⟨.roleDistance, .element x (.element _ (.element z .nil))⟩
  | _, ⟨.sumRoleDistance, .element x (.element _ (.element z .nil))⟩ => x ≠ z
  | _, _ => True

/-- Related nodes are both proper or both not, if the same elements are told apart. -/
theorem Rel.proper_iff {R : {c : Category} → χ c → ψ c → Prop} {n : Node χ c} {m : Node ψ c}
    (h : n.Rel R m)
    (apart : ∀ {d : Category} {x x' : χ d} {y y' : ψ d}, R x y → R x' y' → (x = x' ↔ y = y')) :
    n.Proper ↔ m.Proper := by
  cases h with
  | @intro o a b h =>
    cases o <;> casesm* Args.Rel _ _ _ <;> first
      | exact Iff.rfl
      | exact not_congr (apart ‹_› ‹_›)

/-- Exchanging the operands keeps nodes proper. -/
theorem proper_swap {n : Node χ c} : n.swap.Proper ↔ n.Proper := by
  obtain ⟨o, args⟩ := n
  cases o <;> casesm* Args _ _ <;> first
    | exact Iff.rfl
    | exact ne_comm

end Node

namespace Term

/-- The rule that forms the term from its operands. -/
def rule (t : Term c) : Rule := t.node.operator.rule

theorem category_rule (t : Term c) : t.rule.category = c := Operator.category_rule _

theorem weight_swap (n : Node Term c) : weight n.swap.args = weight n.args := by
  obtain ⟨o, args⟩ := n
  cases o <;> casesm* Args _ _ <;> first
    | rfl
    | exact Nat.add_left_comm _ _ _

theorem complexity_canon (t : Term c) : t.canon.complexity = t.complexity := by
  induction t using Term.induction with
  | mk o args ih =>
    have operands : weight (args.map canon) = weight args := by
      rw [weight, weight, Args.elements_map, Args.elements_congr ih]
    show (ofNode ⟨o, args⟩).canon.complexity = (ofNode ⟨o, args⟩).complexity
    rw [canon_ofNode, complexity_ofNode, complexity_ofNode]
    rcases Node.sorted_eq_or ((⟨o, args⟩ : Node Term _).map canon) textLe with h | h
    · rw [h, Node.map, operands]
    · rw [h, weight_swap, Node.map, operands]

theorem rule_canon (t : Term c) : t.canon.rule = t.rule := by
  rw [← ofNode_node (t := t), canon_ofNode, rule, rule, node_ofNode, node_ofNode,
    Node.operator_sorted, Node.operator_map]

end Term

/-! ## The family -/

namespace Generator

/-- The least family that the enabled rules form within the limits. -/
inductive Family (k : Config) (v : Vocabulary) : {c : Category} → Term c → Prop where
  /-- A rule adds the canonical form of what it forms of names, positions and members. -/
  | form {c : Category} (n : Node Term c) :
      n.operator.rule ∈ k.rules → n.args.checkNames v = .ok () → n.checkPositions = .ok () →
      n.Proper → n.args.All (Family k v) → (Term.ofNode n).complexity ≤ k.limit c →
      Family k v (Term.ofNode n).canon

variable {k : Config} {v : Vocabulary} {A B : {c : Category} → Term c → Prop} {t : Term c}

/-- An enabled rule forms the term of operands that satisfy `A`, within the limits. -/
inductive Forms (k : Config) (v : Vocabulary) (A : {c : Category} → Term c → Prop) :
    {c : Category} → Term c → Prop where
  | intro {c : Category} (n : Node Term c) :
      n.operator.rule ∈ k.rules → n.args.checkNames v = .ok () → n.checkPositions = .ok () →
      n.Proper → n.args.All A → (Term.ofNode n).complexity ≤ k.limit c →
      Forms k v A (Term.ofNode n).canon

/-- What is formed is within the limits. -/
theorem Forms.complexity_le (ht : Forms k v A t) : t.complexity ≤ k.limit c := by
  cases ht with
  | intro n _ _ _ _ _ limit =>
    rw [Term.complexity_canon]
    exact limit

theorem Forms.rule_mem (ht : Forms k v A t) : t.rule ∈ k.rules := by
  cases ht with
  | intro n enabled _ _ _ _ _ =>
    rw [Term.rule_canon]
    exact enabled

/-- Only operands that are less complex than the term matter. -/
theorem Forms.imp (ht : Forms k v A t)
    (h : ∀ {d : Category} {u : Term d}, A u → u.complexity < t.complexity → B u) :
    Forms k v B t := by
  cases ht with
  | intro n enabled names positions proper operands limit =>
    refine .intro n enabled names positions proper ?_ limit
    refine (operands.and (Term.complexity_lt n)).imp fun {_ u} hu => h hu.1 ?_
    rw [Term.complexity_canon]
    exact hu.2

/-- The family holds what is formed of members. -/
theorem Forms.family (ht : Forms k v (Family k v) t) : Family k v t := by
  cases ht with
  | intro n enabled names positions proper operands limit =>
    exact .form n enabled names positions proper operands limit

/-- Every member is formed of members. -/
theorem Family.forms (ht : Family k v t) : Forms k v (Family k v) t := by
  cases ht with
  | form n enabled names positions proper operands limit =>
    exact .intro n enabled names positions proper operands limit

theorem Family.complexity_le (ht : Family k v t) : t.complexity ≤ k.limit c :=
  ht.forms.complexity_le

/-- More rules and greater limits leave no member out. -/
theorem Family.mono {k' : Config} (rules : k.rules ⊆ k'.rules)
    (limits : ∀ c, k.limit c ≤ k'.limit c) (ht : Family k v t) : Family k' v t := by
  generalize size : t.complexity = i
  induction i using Nat.strongRecOn generalizing c t with
  | _ i ih =>
    have hform : Forms k v (Family k' v) t :=
      ht.forms.imp fun {_ u} hu less => ih _ (by omega) hu rfl
    cases hform with
    | intro n enabled names positions proper operands limit =>
      exact .form n (rules enabled) names positions proper operands
        (Nat.le_trans limit (limits _))

/-- Whether denotations are compared does not matter to the family. -/
theorem Family.of_deduplicates {b b' : Bool} (ht : Family { k with deduplicates := b } v t) :
    Family { k with deduplicates := b' } v t := by
  apply ht.mono
  · exact List.Subset.refl _
  · intro c
    cases c <;> exact Nat.le_refl _

end Generator

end DescLogic
