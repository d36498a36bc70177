import DescLogic.Proofs.Term
/-!
# Exchanging operands

`Term.Exchange t u` says that `t` becomes `u` when operands of commutative operators are exchanged,
at any depth and any number of times. It is an equivalence, every term is related to its canonical
form, and an interpretation that does not see the order of such operands does not tell related terms
apart (`Exchange.fold_eq`).
-/

namespace DescLogic.Term

variable {c : Category} {t u w : Term c}

/-- The terms are equal up to exchanging operands of commutative operators. -/
inductive Exchange : {c : Category} → Term c → Term c → Prop where
  /-- Exchanges inside the operands. -/
  | operands {c : Category} {o : Operator c} {ts us : Args Term o.signature} :
      ts.Rel Exchange us → Exchange (.mk o ts) (.mk o us)
  /-- The exchange of the two operands of a commutative operator. -/
  | swap {c : Category} (n : Node Term c) : Exchange (ofNode n) (ofNode n.swap)
  /-- One exchange after the other. -/
  | trans {c : Category} {t u w : Term c} : Exchange t u → Exchange u w → Exchange t w

theorem Exchange.refl (t : Term c) : t.Exchange t := by
  induction t using Term.induction with
  | mk o args ih => exact .operands (Args.rel_diagonal ih)

/-- What holds of the three ways to exchange holds of all exchanges. -/
theorem Exchange.induction {P : {c : Category} → Term c → Term c → Prop}
    (operands : ∀ {c : Category} (o : Operator c) {ts us : Args Term o.signature},
      ts.Rel P us → P (.mk o ts) (.mk o us))
    (swap : ∀ {c : Category} (n : Node Term c), P (ofNode n) (ofNode n.swap))
    (trans : ∀ {c : Category} {t u w : Term c}, P t u → P u w → P t w)
    (h : t.Exchange u) : P t u := by
  refine Exchange.rec (motive_1 := fun t u _ => P t u) (motive_2 := fun ts us _ => ts.Rel P us)
    ?_ ?_ ?_ ?_ ?_ ?_ ?_ ?_ h
  · intro c o ts us _ ih
    exact operands o ih
  · intro c n
    exact swap n
  · intro c t u w _ _ ih ih'
    exact trans ih ih'
  · exact .nil
  · intro ps a b p _ ih
    exact .predicate p ih
  · intro ps a b k _ ih
    exact .constant k ih
  · intro ps a b i _ ih
    exact .position i ih
  · intro ps c a b x y _ _ hx ih
    exact .element hx ih

theorem Exchange.symm (h : t.Exchange u) : u.Exchange t := by
  refine h.induction (P := fun t u => Exchange u t) ?_ ?_ ?_
  · intro c o ts us h
    exact .operands h.symm
  · intro c n
    have back := Exchange.swap n.swap
    rwa [Node.swap_swap] at back
  · intro c t u w h h'
    exact .trans h' h

/-- What does not see the order of exchangeable operands does not tell the terms apart. -/
theorem Exchange.fold_eq {χ : Category → Type} {f : {c : Category} → Node χ c → χ c}
    (swap : ∀ {c : Category} (n : Node χ c), f n.swap = f n) (h : t.Exchange u) :
    t.fold f = u.fold f := by
  refine h.induction (P := fun t u => t.fold f = u.fold f) ?_ ?_ ?_
  · intro c o ts us h
    rw [fold_mk, fold_mk, Args.rel_eq_iff.mp h]
  · intro c n
    rw [fold_ofNode, fold_ofNode, ← Node.swap_map, swap]
  · intro c t u w h h'
    exact h.trans h'

theorem Exchange.canonText_eq (h : t.Exchange u) : t.canonText = u.canonText := by
  refine h.fold_eq fun n => ?_
  rw [Node.sorted_swap]
  · intro d x y
    simpa using String.le_total x y
  · intro d x y hxy hyx
    exact String.le_antisymm (of_decide_eq_true hxy) (of_decide_eq_true hyx)

/-- The canonical form is reached by exchanges. -/
theorem exchange_canon (t : Term c) : t.Exchange t.canon := by
  induction t using Term.induction with
  | mk o args ih =>
    have inner : Exchange (ofNode ⟨o, args⟩) (ofNode ⟨o, args.map canon⟩) :=
      .operands (Args.rel_map_right.mpr (Args.rel_diagonal ih))
    refine inner.trans ?_
    show Exchange _ (ofNode ⟨o, args⟩).canon
    rw [canon_ofNode]
    rcases Node.sorted_eq_or ((⟨o, args⟩ : Node Term _).map canon) textLe with h | h
    · rw [h]
      exact .refl _
    · rw [h]
      exact .swap _

end DescLogic.Term
