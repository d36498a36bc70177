import DescLogic.Proofs.Evaluation.Caching
/-!
# Evaluations that succeed

The evaluation of a stored element never fails in states that are not refused. This holds of any
factory that is valid and of any caches, also of caches that remember what is wrong.

* `EvalM.succeeds_meaning`: one state, by induction on the term of the element.
* `EvalM.succeeds_evaluateBatch`: a list of states.
-/

namespace DescLogic

open Procedure Factory

namespace EvalM

variable {c : Category} {f : Factory} {h : Handle c} {s : State} {t : Term c}
  {go : {d : Category} → Handle d → EvalM (Meaning d)}

theorem succeeds_mapM {ps : List Parameter} {hs : Args Handle ps} {ts : Args Term ps}
    (h : hs.Rel (fun x _ => Succeeds (go x)) ts) : Succeeds (hs.mapM go) := by
  induction h with
  | nil => exact succeeds_pure
  | predicate p _ ih => exact .bind ih fun _ => succeeds_pure
  | constant k _ ih => exact .bind ih fun _ => succeeds_pure
  | position i _ ih => exact .bind ih fun _ => succeeds_pure
  | element hx _ ih => exact .bind hx fun _ => .bind ih fun _ => succeeds_pure

/-- A distance is evaluated, with or without its role. -/
theorem succeeds_distance {d e f : Category} {x : Handle d} {r : Handle e} {y : Handle f}
    {settled : Meaning d → Meaning f → Prop} [∀ a b, Decidable (settled a b)] {value : Nat}
    {rest : Meaning d → Meaning e → Meaning f → Nat} (hx : Succeeds (go x)) (hr : Succeeds (go r))
    (hy : Succeeds (go y)) :
    Succeeds (do
      let a ← go x
      let b ← go y
      if settled a b then return value
      return rest a (← go r) b) := by
  refine .bind hx fun a => .bind hy fun b => ?_
  split
  · exact succeeds_pure
  · exact .bind hr fun _ => succeeds_pure

/-- A node is evaluated if its operands are. -/
theorem succeeds_ofNode {n : Node Handle c} {ts : Args Term n.operator.signature}
    (h : n.args.Rel (fun x _ => Succeeds (go x)) ts) : Succeeds (ofNode s go n) := by
  have whole := (succeeds_mapM h).bind (g := fun ds => pure (Node.denote s ⟨n.operator, ds⟩))
    fun _ => succeeds_pure
  obtain ⟨o, hs⟩ := n
  cases o
  case conceptDistance =>
    obtain ⟨x, r, y, _, _, _, rfl, rfl, hx, hr, hy⟩ := h.of_three
    refine .bind hx fun a => .bind hy fun b => ?_
    cases settledDistance? a b with
    | some value => exact succeeds_pure
    | none => exact .bind hr fun _ => succeeds_pure
  case sumConceptDistance | roleDistance | sumRoleDistance =>
    obtain ⟨x, r, y, _, _, _, rfl, rfl, hx, hr, hy⟩ := h.of_three
    exact succeeds_distance hx hr hy
  all_goals exact whole

/-- An element that is written out is evaluated if the recursion may go deep enough. -/
theorem succeeds_meaning (ht : f.Spells h t) {fuel : Nat} (hfuel : t.complexity ≤ fuel) :
    Succeeds (meaning f s fuel h) := by
  induction t using Term.induction generalizing fuel with
  | mk o ts ih =>
    cases fuel with
    | zero =>
      have := Term.one_le_complexity (.mk o ts)
      omega
    | succ fuel =>
      cases ht with
      | @intro _ _ _ hs info _ he hts =>
        have operands : hs.Rel (fun x _ => Succeeds (meaning f s fuel x)) ts := by
          refine hts.imp_of_all_right (ih.and (Term.complexity_lt ⟨o, ts⟩)) ?_
          rintro _ h t ⟨ih, hlt⟩ ht
          exact ih ht (Nat.le_of_lt_succ (Nat.lt_of_lt_of_le hlt hfuel))
        have stored : f.entry h = .ok ⟨⟨o, hs⟩, info⟩ := by
          rw [Factory.entry, he]
        have computed : Succeeds (ofNode s (meaning f s fuel) ⟨o, hs⟩ >>= fun d =>
            remember h s d >>= fun _ => pure d) :=
          .bind (succeeds_ofNode operands) fun d => .bind succeeds_modifyGet fun _ => succeeds_pure
        unfold meaning
        rw [stored]
        refine .bind succeeds_modifyGet fun found => ?_
        cases found with
        | some d => exact succeeds_pure
        | none =>
          intro k hk
          rw [run_lift_bind_ok rfl]
          exact computed k hk

/-! ## States that are refused -/

section Refused

variable {v : Vocabulary} {states : List State}

/-- States over the vocabulary are not refused. -/
theorem forM_checkVocabulary (hf : f.vocabulary = v) (hs : ∀ s ∈ states, s.vocabulary.id = v.id) :
    states.forM (checkVocabulary f) = .ok ⟨⟩ := by
  refine forM_eq_ok_iff.mpr fun s hmem => ?_
  rw [checkVocabulary, if_pos (hf ▸ hs s hmem)]

/-- States are refused if one of them is over another vocabulary. -/
theorem forM_checkVocabulary_of_foreign (hf : f.vocabulary = v)
    (foreign : ∃ s ∈ states, s.vocabulary.id ≠ v.id) :
    states.forM (checkVocabulary f) = .error .vocabularyMismatch := by
  subst hf
  induction states with
  | nil => simp at foreign
  | cons s states ih =>
    show (checkVocabulary f s >>= fun _ => states.forM (checkVocabulary f)) = _
    unfold checkVocabulary
    by_cases own : s.vocabulary.id = f.vocabulary.id
    · rw [if_pos own]
      refine ih ?_
      simpa [own] using foreign
    · rw [if_neg own]
      rfl

end Refused

/-- The denotations of a stored element in states that are not refused. -/
theorem succeeds_evaluateBatch (hf : f.Valid) (ht : f.Spells h t) {states : List State}
    (checked : states.forM (checkVocabulary f) = .ok ⟨⟩) :
    Succeeds (evaluateBatch f h states) := by
  unfold evaluateBatch
  refine .bind (.lift checked fun _ hk => hk) fun _ => .bind succeeds_modifyGet fun number => ?_
  refine .bind succeeds_modifyGet fun found => ?_
  cases found with
  | some ds => exact succeeds_pure
  | none =>
    have each : ∀ s ∈ states, Succeeds (meaning f s (depthBound f h) h) :=
      fun s _ => succeeds_meaning ht (Nat.le_of_eq (depthBound_eq hf ht).symm)
    exact .bind (.mapM each) fun ds => .bind succeeds_modifyGet fun _ => succeeds_pure

end EvalM

end DescLogic
