import DescLogic.Proofs.Factory.Reachable
import DescLogic.Proofs.Generator.Rounds
import DescLogic.Proofs.Semantics.Evaluation
/-!
# Runs find the family

A run that compares no denotations and has no limit on elements and time finds the members of the
family that its rules form within the limits on complexity, and nothing else.

* `Gathered`: every member of the family up to a complexity was kept. To such a run every term looks
  like itself alone, so what is covered is kept.
* `run_lists_family`: the result of a whole run.
-/

namespace DescLogic.Generator

open Procedure

variable {c : Category} {v : Vocabulary} {k : Config} {n : Nat} {K : List AnyTerm} {p : Progress}
  {rule : Rule} {S : Set AnyTerm}

/-! ## Runs that compare no denotations -/

/-- Nothing cuts the run short, and elements are not compared by what they denote. -/
structure Task.Unlimited (t : Task) : Prop where
  /-- There is no limit on the number of elements. -/
  maxElements : t.config.maxElements = none
  /-- There is no limit on the time. -/
  timeLimit : t.config.timeLimit = none
  /-- Denotations are not compared. -/
  deduplicates : t.deduplicates = false

variable {task : Task}

theorem Task.Unlimited.endless (ht : task.Unlimited) : task.Endless :=
  ⟨ht.maxElements, ht.timeLimit⟩

/-- To a run that compares no denotations a term looks like itself alone. -/
theorem judges_self (hd : task.deduplicates = false) :
    Judges task v (fun t => t) fun _ _ _ _ => True where
  grows _ _ := trivial
  admits {K p c h t} _ _ _ new := by
    refine ⟨true, p.caches, p.seen, ?_, ?_, trivial⟩
    · rw [RunM.isNew, hd]
      rfl
    · rintro u hu rfl
      exact new hu

/-- The run has kept a list of members of complexity up to `n`, in which are all members among the
terms `S`. -/
def Gathered (k : Config) (v : Vocabulary) (n : Nat) (S : Set AnyTerm) (p : Progress) : Prop :=
  ∃ K, Ledger k v n K ∧ Records v K p ∧ ∀ x ∈ S, Family k v x.2 → x ∈ K

theorem Gathered.unlimited (hp : Gathered k v n S p) : p.result.limitReached = false := by
  obtain ⟨K, -, records, -⟩ := hp
  exact records.unlimited

/-- Where terms look like themselves alone, the members that are covered are kept. -/
theorem Selected.gathered {B : List AnyTerm}
    (hp : Selected k v (fun t => t) (fun _ _ _ _ => True) B n (upTo n) p) :
    Gathered k v n (upTo n) p := by
  obtain ⟨K, -, hK, hp, -⟩ := hp
  have kept {d : Category} {t : Term d} (member : Family k v t) (bound : t.complexity ≤ n) :
      ⟨d, t⟩ ∈ K := by
    generalize size : t.complexity = i
    induction i using Nat.strongRecOn generalizing d t with
    | _ i ih =>
      have hform : Forms k v (fun u => ⟨_, u⟩ ∈ K) t :=
        member.forms.imp fun {_ u} hu less => ih _ (by omega) hu (by omega) rfl
      obtain ⟨u, hu, rfl, -⟩ := hK.covered bound bound hform
      exact hu
  exact ⟨K, hK.ledger, hp, fun x bound member => kept member bound⟩

/-! ## What is listed -/

/-- The result lists the members of the family: in each category once each, in the order of their
complexities. A rule is counted once for each member that it forms. -/
def Result.Lists (r : Result) (k : Config) (v : Vocabulary) : Prop :=
  ∀ c, ∃ ts : List (Term c), r.texts c = ts.map Term.text ∧ (r.texts c).Nodup ∧
    (ts.Pairwise fun t u => t.complexity ≤ u.complexity) ∧ (∀ t, t ∈ ts ↔ Family k v t) ∧
      ∀ rule : Rule, rule.category = c → r.count rule = ts.countP fun t => t.rule = rule

theorem Gathered.lists (hp : Gathered k v n (upTo n) p) (limits : ∀ c, k.limit c ≤ n) :
    p.result.Lists k v := by
  obtain ⟨K, hK, records, mem⟩ := hp
  intro c
  refine ⟨K.filterMap (AnyTerm.as? c), texts_eq records.kept, records.nodup_texts hK.nodup, ?_, ?_,
    ?_⟩
  · apply hK.sorted.filterMap
    intro x y le t ht u hu
    rw [AnyTerm.as?_eq_some.mp ht, AnyTerm.as?_eq_some.mp hu] at le
    exact le
  · intro t
    rw [AnyTerm.mem_filterMap_as?]
    constructor
    · exact hK.member
    · intro member
      have bound : t.complexity ≤ n := Nat.le_trans member.complexity_le (limits c)
      exact mem ⟨c, t⟩ bound member
  · exact fun rule hc => count_eq records.kept hc

/-! ## Whole runs -/

/-- A run that compares no denotations and has no limit on elements and time keeps the members of
the family. -/
theorem exists_gathered {f : Factory} (config : Config) (states : List State) (clock : Clock)
    (hv : v.Built)
    (readable : v.Readable) (hf : Factory.Reachable v f) (hs : ∀ s ∈ states, State.Built v s)
    (elements : config.maxElements = none) (time : config.timeLimit = none)
    (plain : config.deduplicates = false ∨ states = []) :
    ∃ n p, (∀ c, config.limit c ≤ n) ∧
      (RunM.generate ⟨config, states, clock⟩).run (.start f) = (.ok p.result, p) ∧
      Gathered config v n (upTo n) p := by
  obtain rfl := hf.vocabulary
  have unlimited : Task.Unlimited ⟨config, states, clock⟩ := by
    refine ⟨elements, time, ?_⟩
    rcases plain with h | h <;> simp [Task.deduplicates, h]
  have checked : states.forM (EvalM.checkVocabulary f) = .ok ⟨⟩ :=
    forM_eq_ok_iff.mpr fun s hmem => checkVocabulary_of_built hf (hs s hmem) hv.valid
  obtain ⟨n, limits, ensured⟩ := RunM.ensures_generate_selected unlimited.endless
    (judges_self unlimited.deduplicates) hf.valid hv.valid readable trivial checked
  obtain ⟨_, p, run, rfl, selected⟩ := ensured _ rfl
  exact ⟨n, p, limits, run, selected.gathered⟩

/-- **Runs are exact.** In a reachable factory over a vocabulary whose names hold no closing
parenthesis, a run without limits on elements and time that compares no denotations succeeds, and
its result lists the members of the family that the enabled rules form within the limits on
complexity: in each category exactly once each, in the order of their complexities, and counted by
the rules that form them. -/
theorem run_lists_family {f : Factory} (config : Config) (states : List State) (clock : Clock)
    (hv : v.Built)
    (readable : v.Readable) (hf : Factory.Reachable v f) (hs : ∀ s ∈ states, State.Built v s)
    (elements : config.maxElements = none) (time : config.timeLimit = none)
    (plain : config.deduplicates = false ∨ states = []) :
    ∃ r, (run config states f clock).result = .ok r ∧ r.limitReached = false ∧
      r.Lists config v := by
  obtain ⟨n, p, limits, hrun, gathered⟩ :=
    exists_gathered config states clock hv readable hf hs elements time plain
  refine ⟨p.result, ?_, gathered.unlimited, gathered.lists limits⟩
  unfold run
  rw [hrun]

/-- The negation of the empty concept is found beside what the rules form of a predicate. -/
theorem run_lists_negation :
    let on : Predicate := ⟨"on", 2, false, 0⟩
    let v : Vocabulary := ⟨0, #[on], #[]⟩
    let s : State := ⟨0, .ofVocabulary v, []⟩
    let config : Config := { deduplicates := false }
    ∃ r, (run config [s] (.empty v) id).result = .ok r ∧ r.Lists config v ∧
      "c_not(c_bot)" ∈ r.texts .concept := by
  intro on v s config
  have added : (Vocabulary.empty 0).addPredicate "on" 2 false = .ok (on, v) := by decide
  have state : (State.ofIndices (.ofVocabulary v) []).run 0 = .ok (s, 1) := rfl
  have hv : v.Built := .addPredicate (.empty 0) added
  have readable : v.Readable := by constructor <;> simp [v, on]
  have hs : ∀ s' ∈ [s], State.Built v s' := by
    intro s' hmem
    rw [List.mem_singleton.mp hmem]
    exact .ofIndices .ofVocabulary state
  obtain ⟨r, hr, -, lists⟩ :=
    run_lists_family config [s] id hv readable .refl hs rfl rfl (.inl rfl)
  refine ⟨r, hr, lists, ?_⟩
  obtain ⟨ts, texts, -, -, mem, -⟩ := lists .concept
  let bot : Term .concept := .mk .bot .nil
  let negation : Term .concept := .mk .notConcept (.element bot .nil)
  have hbot : Family config v bot :=
    .form ⟨.bot, .nil⟩ (by decide) rfl rfl trivial .nil (by decide)
  have hnegation : Family config v negation :=
    .form ⟨.notConcept, .element bot .nil⟩ (by decide) rfl rfl trivial (.element hbot .nil)
      (by decide)
  rw [texts]
  exact List.mem_map.mpr ⟨negation, (mem negation).mpr hnegation, by decide +kernel⟩

end DescLogic.Generator
