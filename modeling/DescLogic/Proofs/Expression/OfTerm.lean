import DescLogic.Proofs.Description
import DescLogic.Proofs.Expression.Printing
/-!
# Terms written as expressions

`Term.expression t` is the tree that is printed as the text of the term `t`. If some expression
describes `t` then `t.expression` does too: the two differ in how positions are spelled.

* `Term.render_expression`: the written form is the text of the term.
* `Term.Exchange.expression`: exchanging operands exchanges arguments.
* `Expression.Describes.expression`: what is described can be written, as legibly and as deeply
  nested as in the expression that describes it.
-/

namespace DescLogic

open Token

/-! ## Positions in decimal notation -/

theorem decimal_toDigits (i : Nat) : decimal (Nat.toDigits 10 i) = i := by
  have digit : ∀ d < 10, d.digitChar.toNat - '0'.toNat = d := by decide
  induction i using Nat.strongRecOn with
  | _ i ih =>
    rw [Nat.toDigits_eq_if (by decide)]
    split_ifs with hi
    · simpa [decimal] using digit i hi
    · rw [decimal_append, ih _ (by omega), digit _ (by omega)]
      omega

/-- A position is spelled by its decimal digits. -/
theorem spellsPosition_toString {i : Nat} (h : i < positionBound) :
    SpellsPosition (toString i) i := by
  refine ⟨Nat.toDigits 10 i, .inl Nat.toList_repr, ?_, ?_, decimal_toDigits i, h⟩
  · exact Nat.toDigits_ne_nil
  · intro d hd
    exact digits_of_position d (Nat.toList_repr ▸ hd)

theorem SpellsPosition.lt {s : String} {i : Nat} (h : SpellsPosition s i) : i < positionBound := by
  obtain ⟨_, _, _, _, _, h⟩ := h
  exact h

/-! ## Expressions of terms -/

/-- An expression for each element. -/
abbrev Expressions : Category → Type := fun _ => Expression

/-- The arguments as expressions. -/
def Args.expressions : {ps : List Parameter} → Args Expressions ps → List Expression
  | _, .nil => []
  | _, .predicate p rest => .leaf p.name :: rest.expressions
  | _, .constant k rest => .leaf k.name :: rest.expressions
  | _, .position i rest => .leaf (toString i) :: rest.expressions
  | _, .element e rest => e :: rest.expressions

theorem Args.render_expressions {ps : List Parameter} (a : Args Expressions ps) :
    a.expressions.map Expression.render = a.texts Expression.render := by
  induction a <;> simp_all [Args.expressions, Args.texts, Expression.leaf]

namespace Term

variable {c : Category} {t u : Term c}

/-- The tree that is printed as the text of the term. -/
def expression (t : Term c) : Expression :=
  fold (fun n : Node Expressions _ => .node n.operator.keyword n.args.expressions) t

theorem expression_ofNode (n : Node Term c) :
    (ofNode n).expression =
      .node n.operator.keyword (n.args.map expression : Args Expressions _).expressions := by
  rw [expression, fold_ofNode]
  rfl

theorem expression_mk (o : Operator c) (ts : Args Term o.signature) :
    (mk o ts).expression = .node o.keyword (ts.map expression : Args Expressions _).expressions :=
  expression_ofNode ⟨o, ts⟩

/-- The tree of a term is printed as its text. -/
theorem render_expression (t : Term c) : t.expression.render = t.text := by
  induction t using Term.induction with
  | mk o ts ih =>
    show (ofNode ⟨o, ts⟩).expression.render = (ofNode ⟨o, ts⟩).text
    rw [expression_ofNode, text_ofNode, Expression.render_node, Node.text]
    have texts : (ts.map fun t => t.expression.render : Args Texts _) = ts.map text :=
      Args.map_congr ih
    have printed := congrArg (fun a : Args Texts _ => a.texts fun s => s) texts
    rw [Args.render_expressions]
    simpa using congrArg (Text.applied o.keyword) printed

theorem exchangeAll_expressions {ps : List Parameter} {ts us : Args Term ps}
    (h : ts.Rel (fun t u => t.expression.Exchange u.expression) us) :
    Expression.ExchangeAll (ts.map expression : Args Expressions ps).expressions
      (us.map expression : Args Expressions ps).expressions := by
  induction h with
  | nil => exact .nil
  | predicate _ _ ih | constant _ _ ih | position _ _ ih => exact .cons (.arguments .nil) ih
  | element he _ ih => exact .cons he ih

/-- Exchanging operands exchanges the arguments of the trees. -/
theorem Exchange.expression (h : t.Exchange u) : t.expression.Exchange u.expression := by
  have refl : ∀ {c : Category} (t : Term c), t.expression.Exchange t.expression := by
    intro c t
    induction t using Term.induction with
    | mk o ts ih =>
      rw [expression_mk]
      exact .arguments (exchangeAll_expressions (Args.rel_diagonal ih))
  refine h.induction (P := fun t u => t.expression.Exchange u.expression) ?_ ?_ ?_
  · intro c o ts us h
    rw [expression_mk, expression_mk]
    exact .arguments (exchangeAll_expressions h)
  · rintro c ⟨o, ts⟩
    cases o with
    | andConcept | orConcept | equalConcept | andRole | orRole =>
      casesm* Args _ _
      rw [expression_ofNode, expression_ofNode]
      exact .swap _ _ (by dsimp only; decide)
    | _ => exact refl _
  · intro c t u w h h'
    exact .trans h h'

end Term

namespace Expression

variable {c : Category} {v : Vocabulary} {e e' : Expression} {t : Term c}

/-- Exchanging arguments does not change the depth. -/
theorem Exchange.depth_eq (h : e.Exchange e') : e.depth = e'.depth := by
  induction h using Exchange.rec (motive_2 := fun es es' _ => depthAll es = depthAll es') with
  | arguments _ ih => rw [depth, depth, ih]
  | swap e e' _ => simp only [depth, depthAll]; omega
  | trans _ _ ih ih' => rw [ih, ih']
  | nil => rfl
  | cons _ _ ih ih' => rw [depthAll, depthAll, ih, ih']

/-- Exchanging arguments changes no name. -/
theorem Exchange.legible (h : e.Exchange e') (he : e.Legible) : e'.Legible := by
  induction h using Exchange.rec
    (motive_2 := fun es es' _ => (∀ e ∈ es, e.Legible) → ∀ e ∈ es', e.Legible) with
  | arguments _ ih =>
    cases he with
    | node hw hs hes => exact .node hw hs (ih hes)
  | swap e e' _ =>
    cases he with
    | node hw hs hes => exact .node hw hs fun x hx => hes x (by simp_all [or_comm])
  | trans _ _ ih ih' => exact ih' (ih he)
  | nil => simp_all
  | cons _ _ ih ih' => grind

/-- `e` can be written in the place of `e'`: it is nested as deeply, and legible if `e'` is. -/
def Rewrites (e e' : Expression) : Prop := e.depth = e'.depth ∧ (e'.Legible → e.Legible)

theorem Rewrites.refl (e : Expression) : e.Rewrites e := ⟨rfl, id⟩

theorem rewrites_node {s : String} {es es' : List Expression} (h : List.Forall₂ Rewrites es es') :
    (node s es).Rewrites (node s es') := by
  constructor
  · have : depthAll es = depthAll es' := by
      induction h with
      | nil => rfl
      | cons he _ ih => rw [depthAll, depthAll, he.1, ih]
    rw [depth, depth, this]
  · rintro ⟨hw, hs, hes⟩
    refine .node hw hs ?_
    induction h with
    | nil => exact hes
    | cons he _ ih =>
      rw [List.forall_mem_cons] at hes ⊢
      exact ⟨he.2 hes.1, ih hes.2⟩

/-- A number is a legible name. -/
theorem legible_position (i : Nat) : (leaf (toString i)).Legible := by
  have digits := digits_of_position (i := i)
  obtain ⟨d, ds, hds⟩ : ∃ d ds, (toString i).toList = d :: ds :=
    List.exists_cons_of_ne_nil fun h => Nat.toDigits_ne_nil (Nat.toList_repr.symm.trans h)
  rw [hds, List.forall_mem_cons] at digits
  have spelled := Spelled.integer digits.1 digits.2
  rw [← hds, String.ofList_toList] at spelled
  exact .node spelled (.integer _) (by simp)

/-- What is described can be written, with the same depth, and legibly if the expression is. -/
theorem Describes.expression (h : e.Describes v t) :
    t.expression.Describes v t ∧ t.expression.Rewrites e := by
  induction h using Describes.rec
    (motive_2 := fun {ps} es ts _ =>
      DescribeAll v (ts.map Term.expression : Args Expressions ps).expressions ts ∧
        List.Forall₂ Rewrites (ts.map Term.expression : Args Expressions ps).expressions es) with
  | node hts range ih =>
    rw [Term.expression_mk]
    exact ⟨.node ih.1 range, rewrites_node ih.2⟩
  | nil => exact ⟨.nil, .nil⟩
  | predicate hp hts ih => exact ⟨.predicate hp ih.1, .cons (.refl _) ih.2⟩
  | constant hk hts ih => exact ⟨.constant hk ih.1, .cons (.refl _) ih.2⟩
  | position hi hts ih =>
    exact ⟨.position (spellsPosition_toString hi.lt) ih.1,
      .cons ⟨rfl, fun _ => legible_position _⟩ ih.2⟩
  | element ht hts ih ih' => exact ⟨.element ih.1 ih'.1, .cons ih.2 ih'.2⟩

end Expression

end DescLogic
