import DescLogic.Proofs.Factory.Invariant
import DescLogic.Proofs.Semantics.Evaluation
/-!
# Static elements

An atom is static if it was registered as static or if its predicate is, and a state stores only
atoms that are not. So all states of an instance have the same atoms of a static predicate, and
elements over such predicates denote the same in all of them.

* `Instance.Built.isStatic_of_predicate`: the atoms of a static predicate are static.
* `State.Built.trueAtomsOf_eq_staticAtoms`: the atoms of a static predicate in a state are those of
  its instance.
* `Node.denote_congr`: what a node reads of a state.
* `evaluate_eq_of_isStatic`: a static element has one value in all states of an instance.
-/

namespace DescLogic

open Factory

variable {c : Category} {v : Vocabulary} {f : Factory} {h : Handle c} {s s' : State}

/-! ## Static atoms -/

theorem Instance.atoms_addObject {i j : Instance} {name : String} {k : Nat}
    (h : i.addObject name = .ok (k, j)) : j.atoms = i.atoms := by
  unfold Instance.addObject at h
  cases found : i.objectIndex? name with
  | some x =>
    rw [found] at h
    cases h
  | none =>
    rw [found] at h
    cases h
    rfl

/-- The atoms of a static predicate are static, whether they were registered as static or not. -/
theorem Instance.Built.isStatic_of_predicate {i : Instance} (hv : v.Valid) (hi : Instance.Built v i)
    {a : Atom} (ha : a ∈ i.atoms) {p : Predicate} (hp : v.predicates[a.predicate]? = some p)
    (static : p.isStatic = true) : a.isStatic = true := by
  induction hi with
  | ofVocabulary => simp [Instance.ofVocabulary] at ha
  | addObject _ added ih => exact ih (Instance.atoms_addObject added ▸ ha)
  | @addAtom i j predicate objects _ b hi added ih =>
    obtain ⟨q, hq, -, -, rfl, rfl⟩ := Instance.addAtom_eq_ok added
    obtain ⟨-, atoms, -⟩ := (hi.valid hv).resolveObjects objects
    rcases Array.mem_push.mp ha with old | rfl
    · exact ih (atoms ▸ old)
    · rw [(hi.valid hv).vocabulary] at hq
      have owned := hv.getElem?_index (Vocabulary.mem_of_predicate_eq_ok hq)
      obtain rfl : q = p := Option.some.inj (owned.symm.trans hp)
      simp [static]

namespace State

/-- The atoms of a static predicate in a state are those of the instance. -/
theorem Built.trueAtomsOf_eq_staticAtoms (hv : v.Valid) (hs : s.Built v) {p : Predicate}
    (hp : p ∈ v.predicates) (static : p.isStatic = true) :
    s.trueAtomsOf p.index = s.problem.staticAtoms.filter fun a => a.predicate == p.index := by
  have none_listed : (s.atoms.filterMap (s.problem.atoms[·]?)).filter
      (fun a => a.predicate == p.index) = [] := by
    rw [List.filter_eq_nil_iff]
    intro a ha hpa
    obtain ⟨k, hk, ha⟩ := List.mem_filterMap.mp ha
    obtain ⟨a', ha', dynamic⟩ := hs.not_isStatic k hk
    obtain rfl : a = a' := Option.some.inj (ha.symm.trans ha')
    have owned := hv.getElem?_index hp
    rw [← eq_of_beq hpa] at owned
    have := hs.problem.isStatic_of_predicate hv (Array.mem_of_getElem? ha) owned static
    rw [dynamic] at this
    cases this
  rw [trueAtomsOf, trueAtoms, List.filter_append, none_listed, List.nil_append]

end State

/-! ## What nodes read -/

/-- The denotation of a node depends on the instance of the state and on its atoms of the predicates
in the node. -/
theorem Node.denote_congr (same : s.problem = s'.problem) (n : Node Meaning c)
    (atoms : ∀ p ∈ n.args.predicates, s.trueAtomsOf p.index = s'.trueAtomsOf p.index) :
    n.denote s = n.denote s' := by
  obtain ⟨id, i, listed⟩ := s
  obtain ⟨id', i', listed'⟩ := s'
  obtain rfl : i = i' := same
  obtain ⟨o, as⟩ := n
  cases o
  case nullary =>
    casesm* Args _ _
    rw [Node.denote, Node.denote, atoms _ (List.mem_cons_self ..)]
  case primitiveConcept | primitiveRole =>
    casesm* Args _ _
    rw [Node.denote, Node.denote, atoms _ (List.mem_cons_self ..)]
    rfl
  all_goals
    casesm* Args _ _
    rfl

theorem Args.mem_of_checkNames (hv : v.Valid) {χ : Category → Type} {ps : List Parameter}
    {as : Args χ ps} (h : as.checkNames v = .ok ()) : ∀ p ∈ as.predicates, p ∈ v.predicates := by
  induction as with
  | nil => simp [Args.predicates]
  | predicate p rest ih =>
    obtain ⟨owned, h⟩ := Args.checkNames_predicate.mp h
    exact List.forall_mem_cons.mpr ⟨hv.ownsPredicate_iff.mp owned, ih h⟩
  | constant k rest ih => exact ih (Args.checkNames_constant.mp h).2
  | position _ _ ih | element _ _ ih => exact ih h

/-- A static term denotes the same in all states of an instance. -/
theorem Term.denote_eq_of_isStatic (hv : v.Valid) (hs : s.Built v) (hs' : s'.Built v)
    (same : s.problem = s'.problem) {t : Term c} (fits : t.Fits v)
    (static : t.summary.isStatic = true) : t.denote s = t.denote s' := by
  induction t using Term.induction with
  | mk o ts ih =>
    change (Term.ofNode ⟨o, ts⟩).Fits v at fits
    change (Term.ofNode ⟨o, ts⟩).summary.isStatic = true at static
    obtain ⟨names, -, operands⟩ := Term.fits_ofNode.mp fits
    rw [Term.summary_ofNode, Node.isStatic_summary_iff] at static
    obtain ⟨predicates, parts⟩ := static
    have denoted : ts.map (Term.denote s) = ts.map (Term.denote s') :=
      Args.map_congr ((ih.and (operands.and parts)).imp fun h => h.1 h.2.1 h.2.2)
    show (Term.ofNode ⟨o, ts⟩).denote s = (Term.ofNode ⟨o, ts⟩).denote s'
    rw [Term.denote_ofNode, Term.denote_ofNode, Node.map, Node.map, denoted]
    refine Node.denote_congr same _ fun p hp => ?_
    replace hp : p ∈ ts.predicates := (Args.rel_map (f := Term.denote s')).predicates_eq ▸ hp
    have owned := Args.mem_of_checkNames hv names p hp
    rw [hs.trueAtomsOf_eq_staticAtoms hv owned (predicates p hp),
      hs'.trueAtomsOf_eq_staticAtoms hv owned (predicates p hp), same]

/-- **Staticness is sound.** The evaluation of a stored element whose flag says that it is static
succeeds with one value in all states of an instance. -/
theorem evaluate_eq_of_isStatic (hv : v.Built) (hf : Reachable v f) (hs : s.Built v)
    (hs' : s'.Built v) (same : s.problem = s'.problem) {e : Entry c} (he : f.get? h = some e)
    (static : e.summary.isStatic = true) :
    ∃ d, f.evaluate h s = .ok d ∧ f.evaluate h s' = .ok d := by
  obtain ⟨t, ht, summary⟩ := hf.valid.exists_spells he
  have fits := hf.valid.fits ht
  rw [hf.vocabulary] at fits
  have check := checkVocabulary_of_built hf hs hv.valid
  have check' := checkVocabulary_of_built hf hs' hv.valid
  refine ⟨t.denote s, evaluate_of_spells hf.valid check ht, ?_⟩
  rw [Term.denote_eq_of_isStatic hv.valid hs hs' same fits (summary ▸ static)]
  exact evaluate_of_spells hf.valid check' ht

/-- A role over a static predicate, in a state with a movable atom and in one without. -/
theorem evaluate_eq_of_isStatic_road :
    let road : Predicate := ⟨"road", 2, true, 0⟩
    let at' : Predicate := ⟨"at", 1, false, 1⟩
    let v : Vocabulary := ⟨0, #[road, at'], #[]⟩
    let n : Node Handle .role := ⟨.primitiveRole, .predicate road (.position 0 (.position 1 .nil))⟩
    let f := ((BuildM.make n).run (Factory.empty v)).2
    let i : Instance :=
      ⟨v, #["a", "b"], #[⟨"road(a,b)", 0, [0, 1], true, 0⟩, ⟨"at(a)", 1, [0], false, 1⟩]⟩
    let s : State := ⟨0, i, [1]⟩
    let s' : State := ⟨1, i, []⟩
    v.Built ∧ Reachable v f ∧ s.Built v ∧ s'.Built v ∧
      ∃ d, f.evaluate (⟨0⟩ : Handle .role) s = .ok d ∧
        f.evaluate (⟨0⟩ : Handle .role) s' = .ok d := by
  intro road at' v n f i s s'
  have added : (Vocabulary.empty 0).addPredicate "road" 2 true = .ok (road, ⟨0, #[road], #[]⟩) := by
    decide
  have added' : Vocabulary.addPredicate ⟨0, #[road], #[]⟩ "at" 1 false = .ok (at', v) := by decide
  have hv : v.Built := .addPredicate (.addPredicate (.empty 0) added) added'
  have hf : Reachable v f := .single (.make n)
  -- The atom of the static predicate is static, though it was not registered as static.
  have first : (Instance.ofVocabulary v).addAtom "road" ["a", "b"] false =
      .ok (⟨"road(a,b)", 0, [0, 1], true, 0⟩,
        ⟨v, #["a", "b"], #[⟨"road(a,b)", 0, [0, 1], true, 0⟩]⟩) := by decide +kernel
  have second : Instance.addAtom ⟨v, #["a", "b"], #[⟨"road(a,b)", 0, [0, 1], true, 0⟩]⟩ "at" ["a"]
      false = .ok (⟨"at(a)", 1, [0], false, 1⟩, i) := by decide +kernel
  have hi : i.Built v := .addAtom (.addAtom .ofVocabulary first) second
  have state : (State.ofIndices i [1, 0]).run 0 = .ok (s, 1) := by decide
  have state' : (State.ofIndices i []).run 1 = .ok (s', 2) := by decide
  have hs : s.Built v := .ofIndices hi state
  have hs' : s'.Built v := .ofIndices hi state'
  have he : f.get? (⟨0⟩ : Handle .role) = some _ := get?_make_empty rfl
  exact ⟨hv, hf, hs, hs', evaluate_eq_of_isStatic hv hf hs hs' rfl he rfl⟩

end DescLogic
