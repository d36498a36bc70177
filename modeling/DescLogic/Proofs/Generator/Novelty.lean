import DescLogic.Proofs.Factory.Reachable
import DescLogic.Proofs.Generator.Rounds
import DescLogic.Proofs.Semantics.Evaluation
/-!
# Runs that compare denotations

A run that compares denotations keeps an element if no element that it has kept denotes the same in
all sample states. To it a term looks like the list of its denotations, which it reads from its
caches and notes among those that it has seen.

* `Samples`: the caches are right, and what was seen are the denotations of the terms kept. With
  this the run tells new terms from others (`judges_values`).
* `Outcome.Saturated`, `run_saturated`: what is listed differs in some state, and what the rules
  form of it adds nothing to it.
-/

namespace DescLogic

open Procedure Factory

variable {c : Category} {v : Vocabulary} {f g : Factory} {h : Handle c} {states : List State}

/-- The denotations of the term in the states. -/
def Term.values (states : List State) (t : Term c) : List (Meaning c) :=
  states.map fun s => t.denote s

theorem Term.values_eq_iff {t u : Term c} :
    t.values states = u.values states ↔ ∀ s ∈ states, t.denote s = u.denote s :=
  List.map_inj_left

/-- The outcome of the evaluation of a batch are the denotations of the element's term. -/
theorem mapM_evaluate_of_spells (hf : f.Valid)
    (checks : ∀ s ∈ states, EvalM.checkVocabulary f s = .ok ()) {t : Term c} (ht : f.Spells h t) :
    states.mapM (f.evaluate h) = .ok (t.values states) := by
  rw [mapM_eq_ok_iff, Term.values, List.forall₂_map_right_iff, List.forall₂_same]
  exact fun s hs => evaluate_of_spells hf (checks s hs) ht

namespace Generator

variable {task : Task} {p : Progress} {K : List AnyTerm}

/-! ## Noting denotations -/

/-- The caches are right about the sample states, and the denotations seen are those of the terms
kept. -/
structure Samples (states : List State) (K : List AnyTerm) (f : Factory) (caches : Caches)
    (seen : Seen) : Prop where
  /-- What the caches remember is right. -/
  coherent : caches.Coherent f (· ∈ states)
  /-- What was seen are the denotations of the terms kept. -/
  mem_seen : ∀ {c : Category} {ds : List (Meaning c)},
    ds ∈ seen.get c ↔ ∃ t, ⟨c, t⟩ ∈ K ∧ t.values states = ds

theorem samples_start : Samples states [] f ∅ (.ofFn fun _ => ∅) where
  coherent := Caches.coherent_empty
  mem_seen := by simp

/-- Seeing the denotations of one more term. -/
theorem Samples.insert {caches caches' : Caches} {seen : Seen}
    (notes : Samples states K f caches seen) (hk : caches'.Coherent f (· ∈ states)) (t : Term c) :
    Samples states (K ++ [⟨c, t⟩]) f caches' (seen.modify c (·.insert (t.values states))) where
  coherent := hk
  mem_seen {d ds} := by
    by_cases hcd : c = d
    · subst hcd
      rw [exists_mem_append_self, ← notes.mem_seen]
      simp only [PerCategory.get_modify_self, Std.HashSet.mem_insert, beq_iff_eq]
      exact or_comm
    · rw [exists_mem_append_of_ne hcd, ← notes.mem_seen]
      simp only [PerCategory.get_modify_of_ne hcd]

namespace RunM

/-- The denotations are new if they were not seen, and then they are noted. -/
theorem run_isNovel (task : Task) {ds : List (Meaning c)} {caches : Caches}
    (evaluated : (EvalM.evaluateBatch p.factory h task.states).run p.caches = (.ok ds, caches)) :
    (isNovel task h).run p =
      if ds ∈ p.seen.get c then (.ok false, { p with caches })
      else (.ok true, { p with caches, seen := p.seen.modify c (·.insert ds) }) := by
  have run : (inCaches (EvalM.evaluateBatch p.factory h task.states)).run p =
      (.ok ds, { p with caches }) := by
    show (let (r, k) := (EvalM.evaluateBatch p.factory h task.states).run p.caches
      (r, { p with caches := k })) = _
    rw [evaluated]
  unfold isNovel
  rw [run_bind_ok run_get, run_bind_ok run, run_bind_ok run_get]
  by_cases hds : ds ∈ p.seen.get c
  · rw [if_pos (Std.HashSet.contains_iff_mem.mpr hds), if_pos hds]
    rfl
  · rw [if_neg (mt Std.HashSet.contains_iff_mem.mp hds), if_neg hds]
    rfl

end RunM

/-- Whether the element of a term is novel is told by the denotations of the terms noted, and then
the term is noted. -/
theorem Samples.exists_isNovel (task : Task)
    (notes : Samples task.states K p.factory p.caches p.seen)
    (hf : p.factory.Valid) (problems : ∀ s ∈ task.states, s.problem.Valid p.factory.vocabulary)
    (distinct : Caches.Distinct (· ∈ task.states)) {t : Term c} (spells : p.factory.Spells h t) :
    ∃ new caches seen, (RunM.isNovel task h).run p = (.ok new, { p with caches, seen }) ∧
      if new then (∀ u, ⟨c, u⟩ ∈ K → u.values task.states ≠ t.values task.states) ∧
        Samples task.states (K ++ [⟨c, t⟩]) p.factory caches seen
      else (∃ u, ⟨c, u⟩ ∈ K ∧ u.values task.states = t.values task.states) ∧
        Samples task.states K p.factory caches seen := by
  have checks : ∀ s ∈ task.states, EvalM.checkVocabulary p.factory s = .ok () :=
    fun s hs => checkVocabulary_of_valid (problems s hs)
  have answers := EvalM.answers_evaluateBatch (h := h) distinct hf fun s hs => hs
  rw [forM_eq_ok_iff.mpr checks, mapM_evaluate_of_spells hf checks spells] at answers
  obtain ⟨outcome, coherent⟩ := answers p.caches notes.coherent
  have run := RunM.run_isNovel task (h := h) (Prod.ext outcome rfl)
  by_cases seen : t.values task.states ∈ p.seen.get c
  · rw [if_pos seen] at run
    refine ⟨false, _, p.seen, run, notes.mem_seen.mp seen, ?_⟩
    exact { notes with coherent := coherent }
  · rw [if_neg seen] at run
    refine ⟨true, _, _, run, ?_, notes.insert coherent t⟩
    exact fun u hu same => seen (notes.mem_seen.mpr ⟨u, hu, same⟩)

/-- To a run that compares denotations a term looks like its denotations. -/
theorem judges_values (hd : task.deduplicates = true)
    (problems : ∀ s ∈ task.states, s.problem.Valid v)
    (distinct : Caches.Distinct (· ∈ task.states)) :
    Judges task v (Term.values task.states) (Samples task.states) where
  grows notes grown := { notes with coherent := notes.coherent.extends grown.extends }
  admits {K p c h t} hp notes spells new := by
    rw [RunM.isNew, if_pos hd]
    exact notes.exists_isNovel task hp.valid (hp.vocabulary.symm ▸ problems) distinct spells

/-! ## Whole runs -/

variable {config : Config} {r : Result}

/-- What the run leaves behind if it ends here. -/
def Progress.outcome (p : Progress) : Outcome := ⟨.ok p.result, p.factory, p.events.toList⟩

theorem run_eq_outcome {states : List State} {f : Factory}
    {clock : Clock}
    (h : (RunM.generate ⟨config, states, clock⟩).run (.start f) = (.ok p.result, p)) :
    run config states f clock = p.outcome := by
  unfold run
  rw [h]
  rfl

/-- The result lists the stored element. -/
def Outcome.Keeps (o : Outcome) (h : Handle c) : Prop :=
  ∃ r e, o.result = .ok r ∧ o.factory.get? h = some e ∧ e.summary.text ∈ r.texts c

/-- The elements that the result lists differ in some of the states, and what the rules form of them
equals one of them in all states. -/
structure Outcome.Saturated (config : Config) (v : Vocabulary) (states : List State)
    (o : Outcome) (r : Result) : Prop where
  /-- No element is listed twice. -/
  nodup : ∀ c, (r.texts c).Nodup
  /-- Elements that are listed are stored. -/
  stored : ∀ {c : Category} {text : String}, text ∈ r.texts c →
    ∃ (h : Handle c) (e : Entry c), o.factory.get? h = some e ∧ e.summary.text = text
  /-- Elements that are listed are within the limit. -/
  limited : ∀ {c : Category} {h : Handle c} {e : Entry c}, o.Keeps h →
    o.factory.get? h = some e → e.summary.complexity ≤ config.limit c
  /-- Different elements denote different things in some state. -/
  apart : ∀ {c : Category} {h h' : Handle c}, o.Keeps h → o.Keeps h' → h ≠ h' →
    ∃ s ∈ states, ∃ d d', o.factory.evaluate h s = .ok d ∧ o.factory.evaluate h' s = .ok d' ∧
      d ≠ d'
  /-- What an enabled rule forms of listed operands denotes in all states what a listed element
  denotes that is not more complex. -/
  closed : ∀ {c : Category} (n : Node Handle c), n.operator.rule ∈ config.rules →
    n.args.checkNames v = .ok () → n.checkPositions = .ok () → n.Proper → n.args.All o.Keeps →
    ∃ h g e, (BuildM.make n).run o.factory = (.ok h, g) ∧ g.get? h = some e ∧
      (e.summary.complexity ≤ config.limit c →
        ∃ h' e', o.Keeps h' ∧ o.factory.get? h' = some e' ∧
          e'.summary.complexity ≤ e.summary.complexity ∧
          ∀ s ∈ states, ∃ d, g.evaluate h s = .ok d ∧ o.factory.evaluate h' s = .ok d)

/-- The elements that are listed are those of the terms kept. -/
theorem Records.keeps_iff (hp : Records v K p) :
    p.outcome.Keeps h ↔ ∃ t, ⟨c, t⟩ ∈ K ∧ p.factory.Spells h t := by
  constructor
  · rintro ⟨r, e, ⟨⟩, he, text⟩
    obtain ⟨t, ht, same⟩ := hp.mem_texts.mp text
    obtain ⟨u, hu, summary⟩ := hp.valid.exists_spells he
    obtain ⟨h', ht'⟩ := hp.spelled ht
    have handle : h' = h := hp.valid.eq_of_text_eq ht' hu (by rw [same, Term.text, summary])
    exact ⟨t, ht, handle ▸ ht'⟩
  · rintro ⟨t, ht, spells⟩
    obtain ⟨e, he⟩ := spells.stored
    have summary := hp.valid.summary_eq he spells
    exact ⟨_, e, rfl, he, hp.mem_texts.mpr ⟨t, ht, by rw [summary, Term.text]⟩⟩

/-- Evaluation in the states gives what the term denotes, also after the factory has grown. -/
theorem Records.evaluate_spelled (hp : Records v K p) (problems : ∀ s ∈ states, s.problem.Valid v)
    (grown : p.factory.Grows g) {t : Term c} (ht : g.Spells h t) :
    ∀ s ∈ states, g.evaluate h s = .ok (t.denote s) := by
  intro s hs
  apply evaluate_of_spells (grown.valid hp.valid) (checkVocabulary_of_valid ?_) ht
  rw [grown.extends.vocabulary, hp.vocabulary]
  exact problems s hs

section

variable {k : Config} {n : Nat} (hK : Selects k v (Term.values states) n (upTo n) K)
  (hp : Records v K p) (problems : ∀ s ∈ states, s.problem.Valid v)

include hK hp problems

/-- The elements of different terms in the list differ in some state. -/
theorem Selects.exists_evaluate_ne {h h' : Handle c} {t t' : Term c} (ht : ⟨c, t⟩ ∈ K)
    (ht' : ⟨c, t'⟩ ∈ K) (spells : p.factory.Spells h t) (spells' : p.factory.Spells h' t')
    (hne : h ≠ h') : ∃ s ∈ states, ∃ d d', p.factory.evaluate h s = .ok d ∧
      p.factory.evaluate h' s = .ok d' ∧ d ≠ d' := by
  have differ : t.values states ≠ t'.values states := by
    intro same
    obtain rfl := hK.apart ht ht' same
    exact hne (hp.valid.eq_of_text_eq spells spells' rfl)
  rw [Ne, Term.values_eq_iff] at differ
  push Not at differ
  obtain ⟨s, hs, differ⟩ := differ
  exact ⟨s, hs, _, _, hp.evaluate_spelled problems (.refl _) spells s hs,
    hp.evaluate_spelled problems (.refl _) spells' s hs, differ⟩

/-- The element of a term that is formed of the list denotes in all states what an element kept
denotes. -/
theorem Selects.exists_evaluate_eq (limits : ∀ c, k.limit c ≤ n) (grown : p.factory.Grows g)
    {t : Term c} (hform : Forms k v (fun u => ⟨_, u⟩ ∈ K) t) (spells : g.Spells h t) :
    ∃ u h', ⟨c, u⟩ ∈ K ∧ p.factory.Spells h' u ∧ u.complexity ≤ t.complexity ∧
      ∀ s ∈ states, ∃ d, g.evaluate h s = .ok d ∧ p.factory.evaluate h' s = .ok d := by
  have bound : t.complexity ≤ n := Nat.le_trans hform.complexity_le (limits c)
  obtain ⟨u, hu, same, le⟩ := hK.covered bound bound hform
  obtain ⟨h', spells'⟩ := hp.spelled hu
  refine ⟨u, h', hu, spells', le, fun s hs => ?_⟩
  refine ⟨_, hp.evaluate_spelled problems grown spells s hs, ?_⟩
  rw [← Term.values_eq_iff.mp same s hs]
  exact hp.evaluate_spelled problems (.refl _) spells' s hs

/-- A list that covers the terms up to the limits is saturated. -/
theorem Selects.saturated (limits : ∀ c, k.limit c ≤ n) (hv : v.Valid) (readable : v.Readable) :
    p.outcome.Saturated k v states p.result := by
  constructor
  · exact fun c => hp.nodup_texts hK.ledger.nodup
  · intro c text mem
    obtain ⟨t, ht, rfl⟩ := hp.mem_texts.mp mem
    obtain ⟨h, spells⟩ := hp.spelled ht
    obtain ⟨e, he⟩ := spells.stored
    exact ⟨h, e, he, by rw [hp.valid.summary_eq he spells, Term.text]⟩
  · intro c h e kept he
    obtain ⟨t, ht, spells⟩ := hp.keeps_iff.mp kept
    rw [hp.valid.summary_eq he spells]
    exact (hK.formed ht).complexity_le
  · intro c h h' kept kept' hne
    obtain ⟨t, ht, spells⟩ := hp.keeps_iff.mp kept
    obtain ⟨t', ht', spells'⟩ := hp.keeps_iff.mp kept'
    exact hK.exists_evaluate_ne hp problems ht ht' spells spells' hne
  · intro c m enabled names positions proper kept
    obtain ⟨ts, rel⟩ := Args.exists_rel (kept.imp fun kept => hp.keeps_iff.mp kept)
    have members : ts.All fun t => ⟨_, t⟩ ∈ K := rel.all_right fun ht => ht.1
    have nodeRel : m.Rel p.factory.Spells ⟨m.operator, ts⟩ := .intro (rel.imp fun ht => ht.2)
    have vocabulary := hp.vocabulary
    subst vocabulary
    obtain ⟨h, g, made, grown, spells⟩ :=
      hp.valid.exists_make_reads hv readable ⟨_, nodeRel, rfl⟩ names positions
    obtain ⟨e, he⟩ := spells.stored
    refine ⟨h, g, e, made, he, fun limit => ?_⟩
    rw [(grown.valid hp.valid).summary_eq he spells] at limit ⊢
    have hform := hp.forms nodeRel members enabled names positions proper
      (by rwa [← Term.complexity_canon])
    obtain ⟨u, h', hu, spells', le, same⟩ :=
      hK.exists_evaluate_eq hp problems limits grown hform spells
    obtain ⟨e', he'⟩ := spells'.stored
    refine ⟨h', e', hp.keeps_iff.mpr ⟨u, hu, spells'⟩, he', ?_, same⟩
    rw [hp.valid.summary_eq he' spells']
    exact le

end

/-- A run that compares denotations and has no limit on elements and time keeps a list that covers
the terms up to the limits. -/
theorem exists_selects_values {f : Factory} (config : Config) {states l : List State} {next : Nat}
    (clock : Clock) (hv : v.Built) (readable : v.Readable) (hf : Factory.Reachable v f)
    (drawn : State.Drawn v l next) (hs : states ⊆ l) (nonempty : states ≠ [])
    (elements : config.maxElements = none) (time : config.timeLimit = none)
    (compared : config.deduplicates = true) :
    ∃ n K p, (∀ c, config.limit c ≤ n) ∧
      (RunM.generate ⟨config, states, clock⟩).run (.start f) = (.ok p.result, p) ∧
      Selects config v (Term.values states) n (upTo n) K ∧ Records v K p := by
  obtain rfl := hf.vocabulary
  have built : ∀ s ∈ states, State.Built f.vocabulary s := fun s hmem => drawn.built s (hs hmem)
  have distinct : Caches.Distinct (· ∈ states) :=
    fun hs₁ hs₂ same => drawn.eq_of_id_eq _ (hs hs₁) _ (hs hs₂) same
  have deduplicates : Task.deduplicates ⟨config, states, clock⟩ = true := by
    simp [Task.deduplicates, compared, nonempty]
  have judges := judges_values (v := f.vocabulary) deduplicates
    (fun s hmem => (built s hmem).valid hv.valid) distinct
  have checked : states.forM (EvalM.checkVocabulary f) = .ok ⟨⟩ :=
    forM_eq_ok_iff.mpr fun s hmem => checkVocabulary_of_built hf (built s hmem) hv.valid
  obtain ⟨n, limits, ensured⟩ := RunM.ensures_generate_selected ⟨elements, time⟩ judges hf.valid
    hv.valid readable samples_start checked
  obtain ⟨_, p, run, rfl, K, -, hK, hp, -⟩ := ensured _ rfl
  exact ⟨n, K, p, limits, run, hK, hp⟩

/-- **Runs that compare denotations are irredundant and closed.** In a reachable factory over a
vocabulary whose names hold no closing parenthesis, a run without limits on elements and time that
compares denotations in sample states succeeds. The elements that it lists are within the limits and
differ in some sample state, and what the enabled rules form of them within the limits denotes in
all sample states what a listed element denotes that is not more complex. -/
theorem run_saturated {f : Factory} (config : Config) {states l : List State} {next : Nat}
    (clock : Clock) (hv : v.Built) (readable : v.Readable) (hf : Factory.Reachable v f)
    (drawn : State.Drawn v l next) (hs : states ⊆ l) (nonempty : states ≠ [])
    (elements : config.maxElements = none) (time : config.timeLimit = none)
    (compared : config.deduplicates = true) :
    ∃ r, (run config states f clock).result = .ok r ∧ r.limitReached = false ∧
      (run config states f clock).Saturated config v states r := by
  obtain ⟨n, K, p, limits, hrun, hK, hp⟩ :=
    exists_selects_values config clock hv readable hf drawn hs nonempty elements time compared
  have problems : ∀ s ∈ states, s.problem.Valid v :=
    fun s hmem => (drawn.built s (hs hmem)).valid hv.valid
  rw [run_eq_outcome hrun]
  exact ⟨p.result, rfl, hp.unlimited, hK.saturated hp problems limits hv.valid readable⟩

theorem readable_twoPaths : twoPaths.vocabulary.Readable := by
  constructor <;> simp [twoPaths, State.vocabulary]

/-- A run with all rules in two states. The two primitive roles denote the same in one of them and
not in the other. -/
theorem run_saturated_on :
    let v := twoPaths.vocabulary
    let states := [onePath, twoPaths]
    ∃ r, (run {} states (.empty v) id).result = .ok r ∧ r.limitReached = false ∧
      (run {} states (.empty v) id).Saturated {} v states r := by
  intro v states
  exact run_saturated {} id built_twoPaths readable_twoPaths .refl drawn_onePath
    (List.Subset.refl _) (List.cons_ne_nil _ _) rfl rfl rfl

end Generator

end DescLogic
