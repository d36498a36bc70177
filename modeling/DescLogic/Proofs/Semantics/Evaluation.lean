import DescLogic.Proofs.Evaluation.Caching
import DescLogic.Proofs.Semantics.Ideal
/-!
# Evaluation is set semantics

Evaluating a stored element gives the sets, relations and truth values that its term stands for,
node by node (`evaluate_represents`). This holds in every reachable factory and in every state of an
instance over its vocabulary, with any number of objects.
-/

namespace DescLogic

open Factory

variable {c : Category} {v : Vocabulary} {f : Factory} {h : Handle c} {s : State}

/-- What a term stands for in a state. -/
def Term.ideal (s : State) (t : Term c) : Ideal c := fold (Node.ideal s) t

theorem Term.ideal_mk (s : State) (o : Operator c) (args : Args Term o.signature) :
    (mk o args).ideal s = Node.ideal s ⟨o, args.map (ideal s)⟩ :=
  fold_mk (Node.ideal s) o args

/-- The denotation of a term represents what the term stands for. -/
theorem represents_term (hs : s.problem.Valid v) (t : Term c) :
    Represents s.objectCount (t.denote s) (t.ideal s) := by
  induction t using Term.induction with
  | mk o args ih =>
    rw [Term.ideal_mk, show Term.mk o args = Term.ofNode ⟨o, args⟩ from rfl, Term.denote_ofNode]
    refine represents_denote hs ?_
    exact Args.rel_map_left.mpr (Args.rel_map_right.mpr (Args.rel_diagonal ih))

/-- A state over the factory's vocabulary is not refused. -/
theorem checkVocabulary_of_valid (hs : s.problem.Valid f.vocabulary) :
    EvalM.checkVocabulary f s = .ok () := by
  rw [EvalM.checkVocabulary, State.vocabulary, hs.vocabulary, if_pos rfl]

theorem checkVocabulary_of_built (hf : Reachable v f) (hs : State.Built v s) (hv : v.Valid) :
    EvalM.checkVocabulary f s = .ok () := by
  rw [← hf.vocabulary] at hs hv
  exact checkVocabulary_of_valid (hs.valid hv)

/-- **Evaluation is set semantics.** In a reachable factory, the evaluation of a stored element
succeeds in every state over the vocabulary, and its value represents what the element's term stands
for. Every constant names one object there. -/
theorem evaluate_represents (hv : v.Built) (hf : Reachable v f) (hs : State.Built v s)
    {e : Entry c} (he : f.get? h = some e) :
    (∃ t d, f.Spells h t ∧ f.evaluate h s = .ok d ∧ Represents s.objectCount d (t.ideal s)) ∧
      ∀ k ∈ v.constants, ∃! x : Nat, s.problem.objects[x]? = some k.name := by
  have problem := hs.valid hv.valid
  have check := checkVocabulary_of_built hf hs hv.valid
  obtain ⟨t, ht, -⟩ := hf.valid.exists_spells he
  refine ⟨⟨t, t.denote s, ht, evaluate_of_spells hf.valid check ht, represents_term problem t⟩, ?_⟩
  exact fun k hk => problem.existsUnique_constant hk

/-- The pairs of a predicate in the state with one atom. -/
theorem evaluate_represents_on :
    let on : Predicate := ⟨"on", 2, false, 0⟩
    let v : Vocabulary := ⟨0, #[on], #[]⟩
    let n : Node Handle .role := ⟨.primitiveRole, .predicate on (.position 0 (.position 1 .nil))⟩
    let f := ((BuildM.make n).run (Factory.empty v)).2
    let s : State := ⟨0, ⟨v, #["a", "b"], #[⟨"on(a,b)", 0, [0, 1], false, 0⟩]⟩, [0]⟩
    v.Built ∧ Reachable v f ∧ s.Built v ∧
      ∃ t d, f.Spells (⟨0⟩ : Handle .role) t ∧ f.evaluate (⟨0⟩ : Handle .role) s = .ok d ∧
        Represents 2 d (t.ideal s) := by
  intro on v n f s
  have added : (Vocabulary.empty 0).addPredicate "on" 2 false = .ok (on, v) := by decide
  have atom : (Instance.ofVocabulary v).addAtom "on" ["a", "b"] false =
      .ok (⟨"on(a,b)", 0, [0, 1], false, 0⟩, s.problem) := by decide +kernel
  have state : (State.ofIndices s.problem [0]).run 0 = .ok (s, 1) := by decide
  have hv : v.Built := .addPredicate (.empty 0) added
  have hf : Reachable v f := .single (.make n)
  have hs : s.Built v := .ofIndices (.addAtom .ofVocabulary atom) state
  have he : f.get? (⟨0⟩ : Handle .role) = some _ := get?_make_empty rfl
  exact ⟨hv, hf, hs, (evaluate_represents hv hf hs he).1⟩

end DescLogic
