import DescLogic.Proofs.Args
/-!
# Terms

A `Term c` is an element of category `c` written out: an operator whose operands are terms, down to
the vocabulary. Stored elements, denotations and the generator all speak of terms, so a fact on
terms is proved by induction on them and carried over.

* `Term.fold`: the value of a term under an interpretation of nodes.
* `Term.induction`: what holds of a term whenever it holds of its operands holds of all terms.
* `Term.canon`: the term with the operands of commutative operators in the order of their texts,
  everywhere. `Term.text_canon`: its text is computed from the texts of the operands alone.
-/

namespace DescLogic

/-- An element written out. -/
inductive Term : Category → Type where
  /-- The operator `operator` applied to `args`. -/
  | mk {c : Category} (operator : Operator c) (args : Args Term operator.signature) : Term c

namespace Term

variable {χ : Category → Type} {c : Category}

/-- The node at the head. -/
def node : Term c → Node Term c
  | mk o args => ⟨o, args⟩

/-- The term of a node over terms. -/
def ofNode (n : Node Term c) : Term c := .mk n.operator n.args

@[simp] theorem node_ofNode {n : Node Term c} : (ofNode n).node = n := rfl

@[simp] theorem ofNode_node {t : Term c} : ofNode t.node = t := by
  cases t
  rfl

/-- What holds of a term whenever it holds of its operands holds of all terms. -/
theorem induction {P : {c : Category} → Term c → Prop}
    (mk : ∀ {c : Category} (o : Operator c) (args : Args Term o.signature),
      args.All P → P (.mk o args)) {c : Category} (t : Term c) : P t := by
  refine Term.rec (motive_1 := fun _ t => P t) (motive_2 := fun _ args => args.All P)
    ?_ ?_ ?_ ?_ ?_ ?_ t
  · intro c o args ih
    exact mk o args ih
  · exact .nil
  · intro ps p rest ih
    exact .predicate p ih
  · intro ps k rest ih
    exact .constant k ih
  · intro ps i rest ih
    exact .position i ih
  · intro ps c x rest hx ih
    exact .element hx ih

/-! ## Interpretations -/

mutual

/-- The value of a term, where `f` gives the value of a node from those of its operands. -/
def fold (f : {c : Category} → Node χ c → χ c) : {c : Category} → Term c → χ c
  | _, .mk o args => f ⟨o, foldArgs f args⟩

/-- The values of arguments. -/
def foldArgs (f : {c : Category} → Node χ c → χ c) :
    {ps : List Parameter} → Args Term ps → Args χ ps
  | _, .nil => .nil
  | _, .predicate p rest => .predicate p (foldArgs f rest)
  | _, .constant k rest => .constant k (foldArgs f rest)
  | _, .position i rest => .position i (foldArgs f rest)
  | _, .element x rest => .element (fold f x) (foldArgs f rest)

end

theorem foldArgs_eq {f : {c : Category} → Node χ c → χ c} {ps : List Parameter}
    (args : Args Term ps) : foldArgs f args = args.map (fold f) := by
  induction args <;> simp_all [foldArgs, Args.map]

theorem fold_mk (f : {c : Category} → Node χ c → χ c) (o : Operator c)
    (args : Args Term o.signature) : fold f (.mk o args) = f ⟨o, args.map (fold f)⟩ := by
  rw [fold, foldArgs_eq]

theorem fold_ofNode (f : {c : Category} → Node χ c → χ c) (n : Node Term c) :
    fold f (ofNode n) = f (n.map (fold f)) :=
  fold_mk f n.operator n.args

/-- What is known of the term from its construction. -/
def summary (t : Term c) : Summary := fold (fun n => n.summary fun s => s) t

/-- The written form. -/
def text (t : Term c) : String := t.summary.text

/-- The number of nodes. -/
def complexity (t : Term c) : Nat := t.summary.complexity

theorem summary_ofNode (n : Node Term c) : (ofNode n).summary = n.summary summary := by
  rw [summary, fold_ofNode]
  exact Node.summary_map

theorem text_ofNode (n : Node Term c) : (ofNode n).text = n.text text := by
  rw [text, summary_ofNode]
  rfl

/-- The number of nodes of all elements among the arguments. -/
def weight {ps : List Parameter} (args : Args Term ps) : Nat :=
  (args.elements complexity).foldr (· + ·) 0

theorem complexity_ofNode (n : Node Term c) : (ofNode n).complexity = weight n.args + 1 := by
  have total : ∀ {ps : List Parameter} (a : Args Term ps),
      (a.elements summary).foldr (fun s k => s.complexity + k) 1 = weight a + 1 := by
    intro ps a
    induction a with
    | nil => rfl
    | predicate _ _ ih | constant _ _ ih | position _ _ ih => exact ih
    | element t rest ih =>
      show t.complexity + _ = t.complexity + weight rest + 1
      rw [ih]
      omega
  rw [complexity, summary_ofNode]
  exact total n.args

/-- Arguments whose elements are not more complex have no greater weight. -/
theorem weight_le {ps : List Parameter} {ts us : Args Term ps}
    (h : ts.Rel (fun t u => u.complexity ≤ t.complexity) us) : weight us ≤ weight ts := by
  induction h with
  | nil => exact Nat.le_refl _
  | predicate _ _ ih | constant _ _ ih | position _ _ ih => exact ih
  | element le _ ih => exact Nat.add_le_add le ih

theorem one_le_complexity (t : Term c) : 1 ≤ t.complexity := by
  rw [← ofNode_node (t := t), complexity_ofNode]
  omega

/-- A term with two operands has three nodes or more. -/
theorem three_le_complexity {d e : Category} {o : Operator c}
    (h : o.signature = [.element d, .element e]) (args : Args Term o.signature) :
    3 ≤ (ofNode ⟨o, args⟩).complexity := by
  rw [complexity_ofNode]
  show 3 ≤ weight args + 1
  revert args
  rw [h]
  intro args
  casesm* Args _ _
  rename_i x y
  have := x.one_le_complexity
  have := y.one_le_complexity
  show 3 ≤ x.complexity + (y.complexity + 0) + 1
  omega

/-- Operands are less complex than the term. -/
theorem complexity_lt (n : Node Term c) :
    n.args.All fun t => t.complexity < (ofNode n).complexity := by
  rw [complexity, summary_ofNode]
  exact Node.complexity_lt summary n

/-- The names in the term are entries of the vocabulary, and its positions are in range. -/
inductive Fits (v : Vocabulary) : {c : Category} → Term c → Prop where
  | mk {c : Category} {o : Operator c} {args : Args Term o.signature} :
      args.checkNames v = .ok () → (⟨o, args⟩ : Node Term c).checkPositions = .ok () →
      args.All (Fits v) → Fits v (.mk o args)

theorem fits_ofNode {v : Vocabulary} {n : Node Term c} :
    (ofNode n).Fits v ↔
      n.args.checkNames v = .ok () ∧ n.checkPositions = .ok () ∧ n.args.All (Fits v) := by
  constructor
  · intro h
    obtain ⟨o, args⟩ := n
    cases h with
    | mk names positions operands => exact ⟨names, positions, operands⟩
  · rintro ⟨names, positions, operands⟩
    exact .mk names positions operands

/-! ## Canonical form -/

/-- Is the text of the one term at most that of the other? -/
def textLe (x y : Term c) : Bool := decide (x.text ≤ y.text)

/-- The term with the operands of commutative operators in the order of their texts. -/
def canon (t : Term c) : Term c := fold (fun n => ofNode (n.sorted textLe)) t

theorem canon_ofNode (n : Node Term c) :
    (ofNode n).canon = ofNode ((n.map canon).sorted textLe) := by
  rw [canon, fold_ofNode]
  rfl

theorem Fits.canon {v : Vocabulary} {t : Term c} (h : t.Fits v) : t.canon.Fits v := by
  induction t using Term.induction with
  | mk o args ih =>
    change (ofNode ⟨o, args⟩).Fits v at h
    show (ofNode ⟨o, args⟩).canon.Fits v
    obtain ⟨names, positions, operands⟩ := fits_ofNode.mp h
    rw [canon_ofNode, fits_ofNode]
    refine ⟨?_, ?_, ?_⟩
    · simpa using names
    · simpa using positions
    · simpa using (ih.and operands).imp fun h => h.1 h.2

/-- A text for each element. -/
abbrev Texts : Category → Type := fun _ => String

/-- The text of the canonical form, computed from those of the operands. -/
def canonText (t : Term c) : String :=
  fold (fun n : Node Texts _ => (n.sorted fun x y => decide (x ≤ y)).text fun s => s) t

theorem canonText_ofNode (n : Node Term c) :
    (ofNode n).canonText =
      ((n.map canonText : Node Texts c).sorted fun x y => decide (x ≤ y)).text fun s => s := by
  rw [canonText, fold_ofNode]
  rfl

theorem text_canon (t : Term c) : t.canon.text = t.canonText := by
  induction t using Term.induction with
  | mk o args ih =>
    let n : Node Term _ := ⟨o, args⟩
    have texts : ((n.map canon).map text : Node Texts _) = n.map canonText := by
      rw [Node.map_map]
      exact congrArg (Node.mk o) (Args.map_congr ih)
    calc (ofNode n).canon.text
        = ((n.map canon).sorted textLe).text text := by
          rw [canon_ofNode, text_ofNode]
      _ = (((n.map canon).map text : Node Texts _).sorted fun x y => decide (x ≤ y)).text
            fun s => s :=
          (Node.text_sorted_map text (fun x y => decide (x ≤ y)) fun s => s).symm
      _ = (ofNode n).canonText := by
          rw [texts, canonText_ofNode]

end Term

end DescLogic
