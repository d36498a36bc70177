import DescLogic.Evaluation.Cached
import DescLogic.Proofs.Procedure
import DescLogic.Proofs.Factory.Spelled
/-!
# Denotations of terms

The denotation of a term is read off its nodes, operands first. Nothing is remembered on the way and
nothing is left out, so this is what evaluation is measured by.

* `Term.denote`: the denotation of a term in a state.
* `Factory.Denotes`: the denotation of a stored element, which stays when the factory grows.
* `EvalM.answers_ofNode`: a node is evaluated to its denotation if its operands are. Operands that
  are left out do not matter.
-/

namespace DescLogic

open Procedure

variable {c : Category}

/-- The denotation of a term in a state. -/
def Term.denote (s : State) (t : Term c) : Meaning c := fold (Node.denote s) t

theorem Term.denote_ofNode (s : State) (n : Node Term c) :
    (ofNode n).denote s = (n.map (denote s)).denote s :=
  fold_ofNode (Node.denote s) n

/-- The term of the stored element at `h` denotes `d` in the state. -/
def Factory.Denotes (f : Factory) (h : Handle c) (s : State) (d : Meaning c) : Prop :=
  ∃ t, f.Spells h t ∧ t.denote s = d

theorem Factory.Extends.denotes {f g : Factory} (hfg : f.Extends g) {h : Handle c} {s : State}
    {d : Meaning c} (hd : f.Denotes h s d) : g.Denotes h s d := by
  obtain ⟨t, ht, rfl⟩ := hd
  exact ⟨t, hfg.spells ht, rfl⟩

namespace EvalM

variable {s : State} {I : Caches → Prop} {go : {d : Category} → Handle d → EvalM (Meaning d)}

theorem answers_mapM {ps : List Parameter} {hs : Args Handle ps} {ts : Args Term ps}
    (h : hs.Rel (fun h t => Answers I (go h) (.ok (t.denote s))) ts) :
    Answers I (hs.mapM go) (.ok (ts.map (Term.denote s))) := by
  induction h with
  | nil => exact .pure
  | predicate p _ ih => exact .bind ih .pure
  | constant k _ ih => exact .bind ih .pure
  | position i _ ih => exact .bind ih .pure
  | element hx _ ih => exact .bind hx (.bind ih .pure)

/-- The role of a distance is evaluated last, and only if the end points leave the value open. -/
theorem answers_distance {d e f : Category} {x : Handle d} {r : Handle e} {y : Handle f}
    {t : Term d} {q : Term e} {u : Term f} {settled : Meaning d → Meaning f → Prop}
    [∀ a b, Decidable (settled a b)] {value : Nat} {rest : Meaning d → Meaning e → Meaning f → Nat}
    (hx : Answers I (go x) (.ok (t.denote s))) (hr : Answers I (go r) (.ok (q.denote s)))
    (hy : Answers I (go y) (.ok (u.denote s))) :
    Answers I
      (do
        let a ← go x
        let b ← go y
        if settled a b then return value
        return rest a (← go r) b)
      (.ok (if settled (t.denote s) (u.denote s) then value
        else rest (t.denote s) (q.denote s) (u.denote s))) := by
  refine .bind hx (.bind hy ?_)
  by_cases h : settled (t.denote s) (u.denote s)
  · rw [if_pos h, if_pos h]
    exact .pure
  · rw [if_neg h, if_neg h]
    exact .bind hr .pure

/-- A node is evaluated to its denotation if its operands are. -/
theorem answers_ofNode {n : Node Handle c} {ts : Args Term n.operator.signature}
    (h : n.args.Rel (fun h t => Answers I (go h) (.ok (t.denote s))) ts) :
    Answers I (ofNode s go n) (.ok ((Term.ofNode (⟨n.operator, ts⟩ : Node Term c)).denote s)) := by
  rw [Term.denote_ofNode]
  have all := answers_mapM h
  have whole := all.bind (g := fun ds => pure (Node.denote s ⟨n.operator, ds⟩)) .pure
  obtain ⟨o, hs⟩ := n
  cases o
  case conceptDistance =>
    obtain ⟨x, r, y, t, q, u, rfl, rfl, hx, hr, hy⟩ := h.of_three
    refine .bind hx (.bind hy ?_)
    show Answers I _ (.ok ((settledDistance? (t.denote s) (u.denote s)).getD
      (setDistance (t.denote s) (q.denote s) (u.denote s))))
    cases settledDistance? (t.denote s) (u.denote s) with
    | some value => exact .pure
    | none => exact .bind hr .pure
  case sumConceptDistance =>
    obtain ⟨x, r, y, t, q, u, rfl, rfl, hx, hr, hy⟩ := h.of_three
    exact answers_distance hx hr hy
  case roleDistance =>
    obtain ⟨x, r, y, t, q, u, rfl, rfl, hx, hr, hy⟩ := h.of_three
    exact answers_distance hx hr hy
  case sumRoleDistance =>
    obtain ⟨x, r, y, t, q, u, rfl, rfl, hx, hr, hy⟩ := h.of_three
    exact answers_distance hx hr hy
  all_goals exact whole

end EvalM

end DescLogic
