import DescLogic.Proofs.Evaluation.Success
import DescLogic.Proofs.Semantics.Checked
/-!
# When an evaluation fails, and what this leaves

An evaluation fails for two reasons: the state is over another vocabulary than the factory, or the
handle is past its table. Nothing else goes wrong on the way. Lists and tables are read where they
hold something, and objects and pairs that are put into a denotation are those of the instance.

* `Factory.Outcome`: the three ways in which an evaluation ends.
* `EvalM.aborts_evaluate`, `EvalM.aborts_evaluateBatch`: what an evaluation that fails leaves of the
  denotations in the caches, whatever these remember.
* `Session.evaluate_outcome`: in every session, evaluations end in the way that the vocabulary and
  the handle decide, and what the caches remember is within the objects of the states.
-/

namespace DescLogic

open Procedure

variable {c : Category} {v : Vocabulary} {f : Factory} {h : Handle c} {s : State} {k k' : Caches}

/-! ## Caches with the same denotations -/

/-- The caches remember the same denotations. They may have been asked a different number of
times. -/
structure Caches.Agree (k k' : Caches) : Prop where
  /-- The denotations in single states are the same. -/
  states : ∀ c, (k'.states.get c).entries = (k.states.get c).entries
  /-- The denotations in batches are the same. -/
  batches : ∀ c, (k'.batches.get c).entries = (k.batches.get c).entries

instance : IsPreorder Caches Caches.Agree where
  refl _ := ⟨fun _ => rfl, fun _ => rfl⟩
  trans _ _ _ hk hk' :=
    ⟨fun c => (hk'.states c).trans (hk.states c), fun c => (hk'.batches c).trans (hk.batches c)⟩

namespace EvalM

open Caches

variable {number : Nat} {l : List State}

theorem moves_lookUp : Moves Agree (lookUp h s) := by
  intro k
  rw [run_lookUp]
  exact ⟨fun _ => entries_modify_lookup, fun _ => rfl⟩

theorem moves_lookUpBatch : Moves Agree (lookUpBatch h number) := by
  intro k
  rw [run_lookUpBatch]
  exact ⟨fun _ => rfl, fun _ => entries_modify_lookup⟩

/-- A batch that gets a number is not yet remembered. -/
theorem moves_batchNumber (ids : List Nat) :
    Moves Agree (modifyGet fun k => k.batchNumber ids : EvalM Nat) := by
  intro k
  rw [run_modifyGet, Caches.batchNumber]
  cases k.batchNumbers[ids]? with
  | none => exact ⟨fun _ => rfl, fun _ => rfl⟩
  | some number => exact refl_of Agree k

/-! ## Evaluations that fail -/

/-- Nothing is remembered of an element that is not stored. -/
theorem moves_meaning_foreign (hh : f.get? h = none) (fuel : Nat) :
    Moves Agree (meaning f s fuel h) := by
  cases fuel with
  | zero => exact .throw
  | succ fuel =>
    have foreign : f.entry h = .error (.foreignElement c h.index) := by
      rw [Factory.entry, hh]
    refine .bind moves_lookUp fun found => ?_
    cases found with
    | some d => exact .pure
    | none =>
      rw [foreign]
      exact fun k => refl_of Agree k

theorem succeeds_meaning_stored (hf : f.Valid) {e : Entry c} (he : f.get? h = some e) :
    Succeeds (meaning f s (depthBound f h) h) := by
  obtain ⟨t, ht, -⟩ := hf.exists_spells he
  exact succeeds_meaning ht (Nat.le_of_eq (depthBound_eq hf ht).symm)

/-- The evaluation of a stored element does not fail once it has begun, and that of an element that
is not stored remembers nothing. -/
theorem aborts_evaluate (hf : f.Valid) : Aborts Agree (evaluate f h s) := by
  refine .bind .lift fun _ => ?_
  cases he : f.get? h with
  | none => exact (moves_meaning_foreign he _).aborts
  | some e => exact (succeeds_meaning_stored hf he).aborts

theorem aborts_evaluateBatch (hf : f.Valid) : Aborts Agree (evaluateBatch f h l) := by
  refine .bind .lift fun _ => .bind (moves_batchNumber _) fun number => ?_
  refine .bind moves_lookUpBatch fun found => ?_
  have remembered : ∀ ds : List (Meaning c),
      Succeeds (rememberBatch h number ds >>= fun _ => pure ds) :=
    fun ds => .bind succeeds_modifyGet fun _ => succeeds_pure
  cases found with
  | some ds => exact Moves.pure.aborts
  | none =>
    cases he : f.get? h with
    | none =>
      -- Only in the empty batch does this lead to anything that is remembered.
      have nothing := Moves.mapM (l := l) fun s =>
        moves_meaning_foreign (s := s) he (depthBound f h)
      exact .bind nothing fun ds => (remembered ds).aborts
    | some e =>
      have each : ∀ s ∈ l, Succeeds (meaning f s (depthBound f h) h) :=
        fun _ _ => succeeds_meaning_stored hf he
      exact Ensures.aborts (.bind (.mapM each) remembered)

/-- A foreign state is refused before the caches are touched. -/
theorem run_evaluateBatch_of_foreign (foreign : ∃ s ∈ l, s.vocabulary.id ≠ f.vocabulary.id) :
    (evaluateBatch f h l).run k = (.error .vocabularyMismatch, k) := by
  unfold evaluateBatch
  rw [forM_checkVocabulary_of_foreign rfl foreign]
  exact run_bind_error run_lift

end EvalM

/-! ## Outcomes -/

/-- A state of an instance over some vocabulary. No vocabulary but `v` itself has the identity
of `v`. -/
def State.BuiltBeside (v : Vocabulary) (s : State) : Prop :=
  ∃ w : Vocabulary, w.Built ∧ s.Built w ∧ (w.id = v.id → w = v)

namespace Factory

/-- The ways in which the evaluation of the element at `h` in the state ends. -/
inductive Outcome (f : Factory) {c : Category} (h : Handle c) (s : State) :
    Except Error (Meaning c) → Prop where
  /-- The state is over another vocabulary. -/
  | mismatch : s.vocabulary.id ≠ f.vocabulary.id → Outcome f h s (.error .vocabularyMismatch)
  /-- The handle is past its table. -/
  | structural : s.vocabulary.id = f.vocabulary.id → f.count c ≤ h.index →
      Outcome f h s (.error (.foreignElement c h.index))
  /-- The element is stored. No check fails in its term, whose denotation is within the objects of
  the state. -/
  | inside {t : Term c} {d : Meaning c} : s.vocabulary.id = f.vocabulary.id → h.index < f.count c →
      f.Spells h t → t.denote? s = some d → d.Within s.objectCount → Outcome f h s (.ok d)

/-- The vocabulary and the handle decide how an evaluation ends. -/
theorem outcome_evaluate (hv : v.Built) (hf : Reachable v f) (hs : s.BuiltBeside v) :
    f.Outcome h s (f.evaluate h s) := by
  obtain ⟨w, hw, hs, only⟩ := hs
  have valid := hf.valid
  have vocabulary := hf.vocabulary
  subst vocabulary
  have problem := hs.valid hw.valid
  by_cases own : s.vocabulary.id = f.vocabulary.id
  · obtain rfl : w = f.vocabulary := by
      refine only ?_
      rw [← own, State.vocabulary, problem.vocabulary]
    have check := checkVocabulary_of_valid problem
    cases he : f.get? h with
    | none =>
      rw [evaluate_of_foreign check he]
      exact .structural own (get?_eq_none_iff.mp he)
    | some e =>
      obtain ⟨t, ht, -⟩ := valid.exists_spells he
      rw [evaluate_of_spells valid check ht]
      exact .inside own (index_lt_count he) ht (Term.denote?_eq_some problem (valid.fits ht))
        (within_denote problem t)
  · rw [evaluate_of_mismatch (by rw [EvalM.checkVocabulary, if_neg own])]
    exact .mismatch own

end Factory

namespace Session

open Caches

variable {S : State → Prop} {x y : Session}

theorem Step.calls (step : x.Step S y) : x.factory.Calls y.factory := by
  cases step with
  | evaluate | evaluateBatch | clear => exact .refl
  | call hg => exact .single hg

theorem Run.calls (run : x.Run S y) : x.factory.Calls y.factory := by
  induction run with
  | refl => exact .refl
  | tail _ step ih => exact ih.trans step.calls

/-- What the caches remember for states and batches is within the objects of the states. -/
structure Within (S : State → Prop) (k : Caches) : Prop where
  /-- The denotations in single states. -/
  states : ∀ {c : Category} {h : Handle c} {s : State} {d : Meaning c}, S s →
    (k.states.get c).entries[(h, s.id)]? = some d → d.Within s.objectCount
  /-- The denotations in batches. -/
  batches : ∀ {c : Category} {h : Handle c} {n : Nat} {ds : List (Meaning c)} {l : List State},
    (∀ s ∈ l, S s) → k.batchNumbers[l.map State.id]? = some n →
      (k.batches.get c).entries[(h, n)]? = some ds →
        List.Forall₂ (fun s d => Meaning.Within s.objectCount d) l ds

/-- Caches that are right remember nothing beyond the objects of the states. -/
theorem within_of_coherent (built : ∀ s, S s → s.BuiltBeside v) (hk : k.Coherent f S) :
    Within S k := by
  have denoted : ∀ {c : Category} {h : Handle c} {s : State} {d : Meaning c}, S s →
      f.Denotes h s d → d.Within s.objectCount := by
    rintro c h s _ hs ⟨t, -, rfl⟩
    obtain ⟨w, hw, hs, -⟩ := built s hs
    exact within_denote (hs.valid hw.valid) t
  constructor
  · intro c h s d hs found
    exact denoted hs (hk.states hs found)
  · intro c h n ds l hl numbered found
    have both := (List.forall₂_and_left l ds).mpr ⟨hl, hk.batches.denotes hl numbered found⟩
    exact both.imp fun _ _ h => denoted h.1 h.2

/-- **Evaluation fails exactly when it should.** Whatever calls came before in a session, with the
caches or without, an evaluation is refused if the state is over another vocabulary than the
factory, fails if the handle is past its table, and otherwise succeeds: no check fails on the way,
and the denotation is within the objects of the state. A batch with a foreign state is refused
before the caches are touched, and any other batch has the outcomes of its states. A call that fails
leaves the denotations in the caches as they were, and all of them are within the objects of their
states. -/
theorem evaluate_outcome (hv : v.Built) (hf : Factory.Reachable v f) (distinct : Distinct S)
    (built : ∀ s, S s → s.BuiltBeside v) (run : Run S ⟨f, ∅⟩ x) :
    (∀ {c : Category} (h : Handle c) {s : State}, S s →
      x.factory.Outcome h s (x.factory.evaluate h s) ∧
        x.factory.Outcome h s ((EvalM.evaluate x.factory h s).run x.caches).1) ∧
    (∀ {c : Category} (h : Handle c) {l : List State},
      ((∃ s ∈ l, s.vocabulary.id ≠ v.id) → ∀ k : Caches,
        (EvalM.evaluateBatch x.factory h l).run k = (.error .vocabularyMismatch, k)) ∧
      ((∀ s ∈ l, S s ∧ s.vocabulary.id = v.id) →
        ((EvalM.evaluateBatch x.factory h l).run x.caches).1 = l.mapM (x.factory.evaluate h))) ∧
    (∀ {c : Category} (h : Handle c),
      (∀ s, Aborts Agree (EvalM.evaluate x.factory h s)) ∧
        ∀ l, Aborts Agree (EvalM.evaluateBatch x.factory h l)) ∧
    Within S x.caches := by
  have reachable : Factory.Reachable v x.factory := Relation.ReflTransGen.trans hf run.calls
  have coherent := run.coherent distinct ⟨hf.valid, coherent_empty⟩
  refine ⟨?_, ?_, ?_, within_of_coherent built coherent.caches⟩
  · intro c h s hs
    have plain := Factory.outcome_evaluate (h := h) hv reachable (built s hs)
    refine ⟨plain, ?_⟩
    rwa [(EvalM.answers_evaluate distinct coherent.valid hs _ coherent.caches).1]
  · intro c h l
    rw [← reachable.vocabulary]
    refine ⟨fun foreign k => EvalM.run_evaluateBatch_of_foreign foreign, fun own => ?_⟩
    have answer := EvalM.answers_evaluateBatch (h := h) distinct coherent.valid
      (fun s hs => (own s hs).1) _ coherent.caches
    rw [answer.1, EvalM.forM_checkVocabulary rfl fun s hs => (own s hs).2]
    rfl
  · exact fun h => ⟨fun s => EvalM.aborts_evaluate coherent.valid,
      fun l => EvalM.aborts_evaluateBatch coherent.valid⟩

/-- A stored element and a handle past the table, in a session that goes on. -/
theorem evaluate_outcome_on :
    let on : Predicate := ⟨"on", 2, false, 0⟩
    let v : Vocabulary := ⟨0, #[on], #[]⟩
    let n : Node Handle .role := ⟨.primitiveRole, .predicate on (.position 0 (.position 1 .nil))⟩
    let f := ((BuildM.make n).run (Factory.empty v)).2
    let s : State := ⟨0, ⟨v, #["a", "b"], #[⟨"on(a,b)", 0, [0, 1], false, 0⟩]⟩, [0]⟩
    let k := ((EvalM.evaluate f (⟨0⟩ : Handle .role) s).run ∅).2
    v.Built ∧ Factory.Reachable v f ∧ s.BuiltBeside v ∧ Run (· = s) ⟨f, ∅⟩ ⟨f, k⟩ ∧
      0 < f.count .role ∧ ∀ h : Handle .role, f.Outcome h s ((EvalM.evaluate f h s).run k).1 := by
  intro on v n f s k
  have added : (Vocabulary.empty 0).addPredicate "on" 2 false = .ok (on, v) := by decide
  have atom : (Instance.ofVocabulary v).addAtom "on" ["a", "b"] false =
      .ok (⟨"on(a,b)", 0, [0, 1], false, 0⟩, s.problem) := by decide +kernel
  have state : (State.ofIndices s.problem [0]).run 0 = .ok (s, 1) := by decide
  have hv : v.Built := .addPredicate (.empty 0) added
  have hf : Factory.Reachable v f := .single (.make n)
  have hs : s.BuiltBeside v := ⟨v, hv, .ofIndices (.addAtom .ofVocabulary atom) state, fun _ => rfl⟩
  have alone : Distinct (· = s) := by
    rintro s₁ s₂ rfl rfl _
    rfl
  have built : ∀ s', s' = s → s'.BuiltBeside v := by
    rintro _ rfl
    exact hs
  have run : Run (· = s) ⟨f, ∅⟩ ⟨f, k⟩ := .single (.evaluate ⟨0⟩ rfl)
  obtain ⟨single, -⟩ := evaluate_outcome hv hf alone built run
  have stored : 0 < f.count .role := Factory.index_lt_count (Factory.get?_make_empty rfl)
  exact ⟨hv, hf, hs, run, stored, fun h => (single h rfl).2⟩

end Session

end DescLogic
