import DescLogic.Proofs.Exchange
import DescLogic.Proofs.Semantics.Evaluation
/-!
# Terms that denote the same

Concepts, roles and booleans denote the same in a state exactly if they stand for the same set,
relation or proposition there (`Term.denote_eq_iff`). So equations between sets carry over to
denotations, and exchanging operands keeps the denotation (`Term.Exchange.denote_eq`). Numericals
are no operands, and they denote the same if their operands do.
-/

namespace DescLogic

variable {c : Category} {v : Vocabulary} {s : State} {n : Nat}

/-! ## Representing -/

/-- A denotation represents one thing. -/
theorem Represents.unique {d : Meaning c} {X Y : Ideal c} (hX : Represents n d X)
    (hY : Represents n d Y) : X = Y := by
  cases c with
  | concept => exact Set.ext fun x => (hX.2.2 x).symm.trans (hY.2.2 x)
  | role => exact funext₂ fun x y => propext ((hX.2.2 x y).symm.trans (hY.2.2 x y))
  | numerical => rfl
  | boolean => exact propext (Iff.symm hX |>.trans hY)

/-- What is represented determines the denotation. -/
theorem Represents.eq {d e : Meaning c} {X : Ideal c} (hc : c ≠ .numerical)
    (hd : Represents n d X) (he : Represents n e X) : d = e := by
  cases c with
  | concept =>
    obtain ⟨count, -, mem⟩ := hd
    obtain ⟨count', -, mem'⟩ := he
    have objects : d.objects = e.objects :=
      NatSet.ext_contains fun x => Bool.eq_iff_iff.mpr ((mem x).trans (mem' x).symm)
    obtain ⟨k, xs⟩ := d
    obtain ⟨l, ys⟩ := e
    exact congrArg₂ ObjectSet.mk (count.trans count'.symm) objects
  | role =>
    obtain ⟨count, valid, relates⟩ := hd
    obtain ⟨count', valid', relates'⟩ := he
    apply ObjectRelation.ext_relates valid valid' (count.trans count'.symm)
    exact fun x y => (relates x y).trans (relates' x y).symm
  | numerical => exact absurd rfl hc
  | boolean => exact Bool.eq_iff_iff.mpr (Iff.trans hd he.symm)

/-! ## Denotations of terms -/

theorem Term.ideal_ofNode (s : State) (m : Node Term c) :
    (ofNode m).ideal s = (m.map (ideal s)).ideal s :=
  fold_ofNode (Node.ideal s) m

/-- Except for numericals, terms denote the same if they stand for the same. -/
theorem Term.denote_eq_iff (hs : s.problem.Valid v) (hc : c ≠ .numerical) {t u : Term c} :
    t.denote s = u.denote s ↔ t.ideal s = u.ideal s := by
  have ht := represents_term hs t
  have hu := represents_term hs u
  constructor
  · intro same
    rw [same] at ht
    exact ht.unique hu
  · intro same
    rw [same] at ht
    exact ht.eq hc hu

/-- What a node denotes depends on what its operands denote. -/
theorem Term.denote_congr {o : Operator c} {ts us : Args Term o.signature}
    (h : ts.Rel (fun t u => t.denote s = u.denote s) us) :
    (ofNode ⟨o, ts⟩).denote s = (ofNode ⟨o, us⟩).denote s := by
  rw [denote_ofNode, denote_ofNode, Node.map, Node.map, Args.rel_eq_iff.mp h]

/-- Exchanging the operands does not change what a node stands for. -/
theorem Node.ideal_swap (s : State) (n : Node Ideal c) : n.swap.ideal s = n.ideal s := by
  obtain ⟨o, args⟩ := n
  cases o <;> casesm* Args _ _ <;> try rfl
  case andConcept => exact Set.ext fun x => And.comm
  case orConcept => exact Set.ext fun x => Or.comm
  case equalConcept =>
    exact Set.ext fun x => and_congr_right fun _ => forall_congr' fun y => Iff.comm
  case andRole => exact funext fun x => funext fun y => propext And.comm
  case orRole => exact funext fun x => funext fun y => propext Or.comm

theorem Term.Exchange.ideal_eq (s : State) {t u : Term c} (h : t.Exchange u) :
    t.ideal s = u.ideal s :=
  h.fold_eq (Node.ideal_swap s)

/-- Operands of numericals are not exchanged. -/
theorem Node.swap_numerical {χ : Category → Type} (m : Node χ .numerical) : m.swap = m := by
  obtain ⟨o, as⟩ := m
  cases o <;> rfl

/-- **Exchanging operands keeps the denotation.** -/
theorem Term.Exchange.denote_eq (hs : s.problem.Valid v) {t u : Term c} (h : t.Exchange u) :
    t.denote s = u.denote s := by
  refine h.induction (P := fun t u => t.denote s = u.denote s) ?_ ?_ ?_
  · intro c o ts us h
    exact denote_congr h
  · intro c m
    by_cases hc : c = .numerical
    · subst hc
      rw [Node.swap_numerical]
    · exact (denote_eq_iff hs hc).mpr ((Exchange.swap m).ideal_eq s)
  · intro c t u w h h'
    exact h.trans h'

theorem Term.denote_canon (hs : s.problem.Valid v) (t : Term c) : t.canon.denote s = t.denote s :=
  ((exchange_canon t).denote_eq hs).symm

end DescLogic
