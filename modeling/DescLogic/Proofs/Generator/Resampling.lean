import DescLogic.Proofs.Generator.Success
import DescLogic.Proofs.Semantics.Equality
import DescLogic.Proofs.Semantics.Numericals
/-!
# Runs in other lists of sample states

A run asks of the sample states only whether two elements denote the same in all of them. So it
makes no difference in which order the states are listed, how often, or which identities they have.

* `State.SameAtoms`, `Term.denote_eq_of_sameAtoms`: states in which all terms denote the same.
* `Resamples`: lists of the same states. Terms denote the same in all states of the one if they do
  in all states of the other (`Resamples.values_eq_iff`).
* `Sampled`: the account of a run. It lists the terms whose denotations the run has noted, and
  leaves out the denotations and the caches.
* `run_resampled`: runs in lists of the same states have the same outcome.
-/

namespace DescLogic

open Procedure

variable {c : Category} {v : Vocabulary} {f g : Factory} {s s' : State}

/-! ## States with the same atoms -/

/-- The states are of one instance, and the same atoms hold in them. -/
structure State.SameAtoms (s s' : State) : Prop where
  /-- The instance is the same. -/
  problem : s.problem = s'.problem
  /-- The same atoms hold. -/
  holds : ∀ a, s.Holds a ↔ s'.Holds a

theorem State.SameAtoms.symm (h : s.SameAtoms s') : s'.SameAtoms s :=
  ⟨h.problem.symm, fun a => (h.holds a).symm⟩

/-- What a node stands for depends on the instance and on the atoms that hold. -/
theorem Node.ideal_eq_of_sameAtoms (h : s.SameAtoms s') (n : Node Ideal c) :
    n.ideal s = n.ideal s' := by
  obtain ⟨problem, holds⟩ := h
  obtain ⟨id, i, atoms⟩ := s
  obtain ⟨id', i', atoms'⟩ := s'
  obtain rfl : i = i' := problem
  obtain ⟨o, args⟩ := n
  cases o <;> casesm* Args _ _ <;> try rfl
  case primitiveConcept => exact Set.ext fun x => exists_congr fun a => and_congr_left' (holds a)
  case primitiveRole =>
    exact funext₂ fun x y => propext (exists_congr fun a => and_congr_left' (holds a))
  case nullary => exact propext (exists_congr fun a => and_congr_left' (holds a))

theorem Term.ideal_eq_of_sameAtoms (h : s.SameAtoms s') (t : Term c) : t.ideal s = t.ideal s' := by
  induction t using Term.induction with
  | mk o args ih =>
    rw [Term.ideal_mk, Term.ideal_mk, Args.map_congr ih]
    exact Node.ideal_eq_of_sameAtoms h _

/-- Terms denote the same in states with the same atoms. -/
theorem Term.denote_eq_of_sameAtoms (hs : s.problem.Valid v) (h : s.SameAtoms s') (t : Term c) :
    t.denote s = t.denote s' := by
  have hs' : s'.problem.Valid v := h.problem ▸ hs
  by_cases hc : c = .numerical
  · subst hc
    rw [t.denote_eq_value hs, t.denote_eq_value hs', Node.map, Node.map,
      Args.map_congr (Args.all_of_forall (fun u => Term.ideal_eq_of_sameAtoms h u) _)]
  · have before := represents_term hs t
    rw [State.objectCount, h.problem, Term.ideal_eq_of_sameAtoms h] at before
    exact before.eq hc (represents_term hs' t)

namespace Generator

variable {ref l l' states states' : List State} {p : Progress} {h : Handle c} {config : Config}
  {rule : Rule} {next next' : Nat}

/-! ## Lists of the same states -/

/-- Every state of the one list has one with the same atoms in the other. -/
structure Resamples (l l' : List State) : Prop where
  /-- From the first list to the second. -/
  forth : ∀ s ∈ l, ∃ s' ∈ l', s.SameAtoms s'
  /-- From the second list to the first. -/
  back : ∀ s' ∈ l', ∃ s ∈ l, s.SameAtoms s'

theorem Resamples.refl (l : List State) : Resamples l l where
  forth s hs := ⟨s, hs, rfl, fun _ => .rfl⟩
  back s hs := ⟨s, hs, rfl, fun _ => .rfl⟩

theorem Resamples.symm (h : Resamples l l') : Resamples l' l where
  forth s hs := (h.back s hs).imp fun _ both => ⟨both.1, both.2.symm⟩
  back s hs := (h.forth s hs).imp fun _ both => ⟨both.1, both.2.symm⟩

/-- Terms denote the same in all states of the one list if they do in all states of the other. -/
theorem Resamples.values_eq_iff (h : Resamples l l') (hl : ∀ s ∈ l, s.problem.Valid v)
    {t u : Term c} : t.values l = u.values l ↔ t.values l' = u.values l' := by
  rw [Term.values_eq_iff, Term.values_eq_iff]
  constructor
  · intro same s' hs'
    obtain ⟨s, hs, atoms⟩ := h.back s' hs'
    rw [← t.denote_eq_of_sameAtoms (hl s hs) atoms, ← u.denote_eq_of_sameAtoms (hl s hs) atoms]
    exact same s hs
  · intro same s hs
    obtain ⟨s', hs', atoms⟩ := h.forth s hs
    rw [t.denote_eq_of_sameAtoms (hl s hs) atoms, u.denote_eq_of_sameAtoms (hl s hs) atoms]
    exact same s' hs'

/-- The list has the states of `ref`, over the vocabulary and told apart by their identities. -/
structure Samplings (v : Vocabulary) (ref l : List State) : Prop where
  /-- There is a state. -/
  nonempty : l ≠ []
  /-- The states are over the vocabulary. -/
  problems : ∀ s ∈ l, s.problem.Valid v
  /-- The states are told apart by their identities. -/
  distinct : Caches.Distinct (· ∈ l)
  /-- The states are those of `ref`. -/
  resamples : Resamples ref l

/-! ## What a run notes -/

/-- The state of a run without what was computed for the sample states. -/
def Progress.bare (p : Progress) : Progress := { p with caches := ∅, seen := .ofFn fun _ => ∅ }

/-- What is told of a run. -/
structure Trace where
  /-- The state without what was computed for the sample states. -/
  progress : Progress
  /-- The terms whose denotations are noted. -/
  noted : List AnyTerm

/-- The account is true of a run in the states of `l`. -/
structure Sampled (v : Vocabulary) (ref l : List State) (a : Trace) (p : Progress) : Prop where
  /-- The states are those of `ref`. -/
  samplings : Samplings v ref l
  /-- The state is the one told, apart from what was computed for the sample states. -/
  bare : p.bare = a.progress
  /-- The pool holds elements of the factory. -/
  stocked : Stocked v p
  /-- What was computed is right. -/
  notes : Samples l a.noted p.factory p.caches p.seen

variable {a : Trace}

theorem Sampled.factory (hp : Sampled v ref l a p) : p.factory = a.progress.factory :=
  hp.bare ▸ rfl

theorem Sampled.placed (hp : Sampled v ref l a p) : p.placed = a.progress.placed :=
  hp.bare ▸ rfl

theorem Sampled.pool (hp : Sampled v ref l a p) : p.pool = a.progress.pool :=
  hp.bare ▸ rfl

theorem Sampled.result (hp : Sampled v ref l a p) : p.result = a.progress.result :=
  hp.bare ▸ rfl

theorem sampled_start (hf : f.Valid) (hl : Samplings f.vocabulary ref l) :
    Sampled f.vocabulary ref l ⟨.start f, []⟩ (.start f) where
  samplings := hl
  bare := rfl
  stocked := stocked_start hf
  notes := samples_start

/-- Forming a node. -/
theorem Sampled.grows (hp : Sampled v ref l a p) (grows : p.factory.Grows g) :
    Sampled v ref l ⟨{ a.progress with factory := g }, a.noted⟩ { p with factory := g } where
  samplings := hp.samplings
  bare := by
    rw [← hp.bare]
    rfl
  stocked := hp.stocked.grows grows
  notes := { hp.notes with coherent := hp.notes.coherent.extends grows.extends }

/-- Keeping an element. -/
theorem Sampled.place (hp : Sampled v ref l a p) {t : Term c} (ht : p.factory.Spells h t)
    (new : h ∉ p.placed.get c) {s : Summary} (pos : 1 ≤ s.complexity) :
    Sampled v ref l ⟨((RunM.place rule h s).run a.progress).2, a.noted⟩
      ((RunM.place rule h s).run p).2 where
  samplings := hp.samplings
  bare := by
    rw [← hp.bare]
    rfl
  stocked := hp.stocked.place ht new pos
  notes := hp.notes

/-- The term denotes in some state of `ref` what no noted term denotes there. -/
def Novel (ref : List State) (noted : List AnyTerm) (t : Term c) : Prop :=
  ∀ u : Term c, ⟨c, u⟩ ∈ noted → u.values ref ≠ t.values ref

/-- Whether an element is novel is told by the noted terms and the states of `ref`. -/
theorem Sampled.exists_isNovel (config : Config) (clock : Clock) (hp : Sampled v ref l a p)
    {t : Term c} (spells : p.factory.Spells h t) :
    ∃ new caches seen,
      (RunM.isNovel ⟨config, l, clock⟩ h).run p = (.ok new, { p with caches, seen }) ∧
      (new = true ↔ Novel ref a.noted t) ∧
        Sampled v ref l ⟨a.progress, if new then a.noted ++ [⟨c, t⟩] else a.noted⟩
          { p with caches, seen } := by
  have hl := hp.samplings
  have problems := hp.stocked.vocabulary.symm ▸ hl.problems
  have same {u : Term c} : u.values ref = t.values ref ↔ u.values l = t.values l :=
    hl.resamples.symm.values_eq_iff hl.problems |>.symm
  obtain ⟨new, caches, seen, run, outcome⟩ :=
    hp.notes.exists_isNovel ⟨config, l, clock⟩ hp.stocked.valid problems hl.distinct spells
  refine ⟨new, caches, seen, run, ?_⟩
  cases new with
  | true =>
    obtain ⟨apart, notes⟩ := outcome
    refine ⟨iff_of_true rfl fun u hu => mt same.mp (apart u hu), ?_⟩
    exact ⟨hl, hp.bare, { hp.stocked with }, notes⟩
  | false =>
    obtain ⟨⟨u, hu, equal⟩, notes⟩ := outcome
    refine ⟨iff_of_false Bool.false_ne_true fun novel => novel u hu (same.mpr equal), ?_⟩
    exact ⟨hl, hp.bare, { hp.stocked with }, notes⟩

/-- Looking at an element has the same outcome in all lists. -/
theorem exists_keepIfNew (v : Vocabulary) (ref : List State) (config : Config) (clock : Clock)
    (rule : Rule) {e : Entry c} (he : a.progress.factory.get? h = some e) {t : Term c}
    (spells : a.progress.factory.Spells h t) :
    ∃ a', ∀ {l : List State} {p : Progress}, Sampled v ref l a p →
      ∃ p', (RunM.keepIfNew ⟨config, l, clock⟩ rule h).run p = (.ok ⟨⟩, p') ∧
        p'.factory = p.factory ∧ Sampled v ref l a' p' := by
  -- The account afterwards is chosen before the list, so every case is told by `a` and `ref`.
  by_cases refused : h ∈ a.progress.placed.get c ∨ config.limit c < e.summary.complexity
  · refine ⟨a, fun {l p} hp => ⟨p, ?_, rfl, hp⟩⟩
    rw [RunM.run_keepIfNew (hp.factory ▸ he), if_pos (hp.placed ▸ refused)]
  let kept : Progress := ((RunM.place rule h e.summary).run a.progress).2
  have look {l : List State} {p : Progress} (hp : Sampled v ref l a p) :
      (RunM.keepIfNew ⟨config, l, clock⟩ rule h).run p =
        (RunM.isNew ⟨config, l, clock⟩ h >>= fun new =>
          if new then RunM.place rule h e.summary else pure ⟨⟩).run p := by
    rw [RunM.run_keepIfNew (hp.factory ▸ he), if_neg (hp.placed ▸ refused)]
  have place {l : List State} {p : Progress} {noted : List AnyTerm}
      (hp : Sampled v ref l ⟨a.progress, noted⟩ p) :
      Sampled v ref l ⟨kept, noted⟩ ((RunM.place rule h e.summary).run p).2 := by
    have stored : p.factory.get? h = some e := hp.factory ▸ he
    have spells : p.factory.Spells h t := hp.factory ▸ spells
    refine hp.place spells (fun placed => refused (.inl (hp.placed ▸ placed))) ?_
    rw [hp.stocked.valid.summary_eq stored spells]
    exact t.one_le_complexity
  by_cases compared : config.deduplicates = true
  · have judged {l : List State} {p : Progress} (hp : Sampled v ref l a p) :
        RunM.isNew ⟨config, l, clock⟩ h = RunM.isNovel ⟨config, l, clock⟩ h := by
      rw [RunM.isNew, if_pos]
      simp [Task.deduplicates, compared, hp.samplings.nonempty]
    by_cases novel : Novel ref a.noted t
    · refine ⟨⟨kept, a.noted ++ [⟨c, t⟩]⟩, fun {l p} hp => ?_⟩
      obtain ⟨new, caches, seen, run, hnew, hp'⟩ :=
        hp.exists_isNovel config clock (hp.factory ▸ spells)
      obtain rfl : new = true := hnew.mpr novel
      rw [look hp, judged hp, run_bind_ok run]
      exact ⟨_, rfl, rfl, place hp'⟩
    · refine ⟨a, fun {l p} hp => ?_⟩
      obtain ⟨new, caches, seen, run, hnew, hp'⟩ :=
        hp.exists_isNovel config clock (hp.factory ▸ spells)
      obtain rfl : new = false := Bool.eq_false_iff.mpr (mt hnew.mp novel)
      rw [look hp, judged hp, run_bind_ok run]
      exact ⟨_, rfl, rfl, hp'⟩
  · have unjudged (l : List State) : RunM.isNew ⟨config, l, clock⟩ h = pure true := by
      rw [RunM.isNew, if_neg]
      simp [Task.deduplicates, compared]
    refine ⟨⟨kept, a.noted⟩, fun {l p} hp => ?_⟩
    rw [look hp, unjudged]
    exact ⟨_, rfl, rfl, place hp⟩

/-! ## Whole runs -/

/-- What a run notes determines how it goes on. -/
theorem accounts_sampled (config : Config) (clock : Clock) (hv : v.Valid) (ref : List State) :
    Accounts config (fun l => l) clock v (Sampled v ref) (fun a => a.progress.result)
      fun _ f y z => y = z ∧ Formable v f y where
  result_eq hp := hp.result
  report e a := by
    refine ⟨⟨((RunM.report e).run a.progress).2, a.noted⟩, fun l p hp => ⟨⟨⟩, _, rfl, ?_⟩⟩
    exact ⟨hp.samplings, by rw [← hp.bare]; rfl, { hp.stocked with }, hp.notes⟩
  read a := by
    let after : Progress := { a.progress with readings := a.progress.readings + 1 }
    refine ⟨a.progress.readings, ⟨after, a.noted⟩, rfl, fun {l p} hp => ?_⟩
    have readings : p.readings = a.progress.readings := hp.bare ▸ rfl
    refine ⟨readings, hp.samplings, ?_, { hp.stocked with }, hp.notes⟩
    simp only [after, ← hp.bare]
    rfl
  limit a := by
    let stopped : Result := { a.progress.result with limitReached := true }
    refine ⟨⟨{ a.progress with result := stopped }, a.noted⟩, fun l => .modify fun p hp => ?_⟩
    exact ⟨hp.samplings, by simp only [stopped, ← hp.bare]; rfl, { hp.stocked with }, hp.notes⟩
  proposes rule n a _ := by
    refine ⟨(rule.candidates v a.progress.pool n).toList, fun {l p} hp => ?_⟩
    rw [← hp.pool]
    exact List.forall₂_same.mpr fun y hy => ⟨rfl, hp.stocked.formable hv hy⟩
  step rule a y _ := by
    -- One list of which the account is true gives the element that is formed in all of them.
    by_cases met : ∃ l p, Sampled v ref l a p ∧ Formable v p.factory y
    · obtain ⟨l₀, p₀, hp₀, hy⟩ := met
      obtain ⟨h, g, t, made, grows, spells⟩ := hp₀.stocked.exists_make hy
      rw [hp₀.factory] at made grows
      obtain ⟨e, he⟩ := spells.stored
      obtain ⟨a', kept⟩ := exists_keepIfNew (a := ⟨{ a.progress with factory := g }, a.noted⟩) v ref
        config clock rule he spells
      refine ⟨a', fun {l p z} hp hz => ?_⟩
      obtain ⟨rfl, -⟩ := hz
      rw [← hp.factory] at made grows
      obtain ⟨p', run, factory, hp'⟩ := kept (hp.grows grows)
      refine ⟨h, _, p', RunM.run_inFactory made, run, hp', fun hz' => ⟨hz'.1, hz'.2.grows ?_⟩⟩
      rw [factory]
      exact grows
    · refine ⟨a, fun {l p z} hp hz => absurd ?_ met⟩
      obtain ⟨rfl, hz⟩ := hz
      exact ⟨l, p, hp, hz⟩

/-- Lists of the same states lead to one outcome. -/
theorem exists_outcome (config : Config) (clock : Clock) (hv : v.Built) (hf : Factory.Reachable v f)
    (ref : List State) :
    ∃ r o, o.result = .ok r ∧ ∀ l, Samplings v ref l → run config l f clock = o := by
  obtain rfl := hf.vocabulary
  obtain ⟨r, a, generated⟩ :=
    (accounts_sampled config clock hv.valid ref).generate ⟨.start f, []⟩ fun {l p} hp => by
      have vocabulary := hp.stocked.vocabulary
      refine ⟨vocabulary, EvalM.forM_checkVocabulary vocabulary fun s hs => ?_⟩
      exact congrArg Vocabulary.id (hp.samplings.problems s hs).vocabulary
  refine ⟨r, ⟨.ok r, a.progress.factory, a.progress.events.toList⟩, rfl, fun l hl => ?_⟩
  obtain ⟨_, p, hrun, rfl, hp⟩ := generated l _ (sampled_start hf.valid hl)
  unfold run
  rw [hrun, ← hp.bare]
  rfl

theorem Samplings.of_drawn (hv : v.Built) (drawn : State.Drawn v l next) (hs : states ⊆ l)
    (nonempty : states ≠ []) (same : Resamples ref states) : Samplings v ref states where
  nonempty := nonempty
  problems s hmem := (drawn.built s (hs hmem)).valid hv.valid
  distinct h₁ h₂ ids := drawn.eq_of_id_eq _ (hs h₁) _ (hs h₂) ids
  resamples := same

/-- **Only the set of sample states matters.** Two runs in one factory have the same outcome, with
the same result, factory and events, if every sample state of the one has one of the other that is
of the same instance and in which the same atoms hold. Order, repetitions and identities make no
difference. If there is a limit on time, then the clocks have to show the same. -/
theorem run_resampled (config : Config) {clock clock' : Clock}
    (alike : config.TimedAlike clock clock') (hv : v.Built) (hf : Factory.Reachable v f)
    (drawn : State.Drawn v l next) (hs : states ⊆ l) (drawn' : State.Drawn v l' next')
    (hs' : states' ⊆ l') (nonempty : states ≠ []) (same : Resamples states states') :
    run config states f clock = run config states' f clock' ∧
      ∃ r, (run config states f clock).result = .ok r := by
  have nonempty' : states' ≠ [] := by
    obtain ⟨s, hmem⟩ := List.exists_mem_of_ne_nil states nonempty
    obtain ⟨s', hmem', -⟩ := same.forth s hmem
    exact List.ne_nil_of_mem hmem'
  obtain ⟨r, o, ho, outcome⟩ := exists_outcome config clock hv hf states
  rw [← run_eq_of_timedAlike alike states' f,
    outcome states (.of_drawn hv drawn hs nonempty (.refl states)),
    outcome states' (.of_drawn hv drawn' hs' nonempty' same)]
  exact ⟨rfl, r, ho⟩

/-- A state twice and a copy of it with a fresh identity, against the state alone with another
clock. -/
theorem run_resampled_copy :
    let on : Predicate := ⟨"on", 2, false, 0⟩
    let v : Vocabulary := ⟨0, #[on], #[]⟩
    let i : Instance := ⟨v, #["a", "b"], #[⟨"on(a,b)", 0, [0, 1], false, 0⟩]⟩
    let s : State := ⟨0, i, [0]⟩
    let s' : State := ⟨1, i, [0]⟩
    run {} [s', s, s] (.empty v) id = run {} [s] (.empty v) ∧
      ∃ r, (run {} [s', s, s] (.empty v) id).result = .ok r := by
  intro on v i s s'
  have added : (Vocabulary.empty 0).addPredicate "on" 2 false = .ok (on, v) := by decide
  have atom : (Instance.ofVocabulary v).addAtom "on" ["a", "b"] false =
      .ok (⟨"on(a,b)", 0, [0, 1], false, 0⟩, i) := by decide +kernel
  have state : (State.ofIndices i [0]).run 0 = .ok (s, 1) := by decide
  have state' : (State.ofIndices i [0]).run 1 = .ok (s', 2) := by decide
  have hv : v.Built := .addPredicate (.empty 0) added
  have hi : i.Built v := .addAtom .ofVocabulary atom
  have drawn : State.Drawn v [s', s] 2 := .ofIndices (.ofIndices (.nil 0) hi state) hi state'
  have alike : s'.SameAtoms s := ⟨rfl, fun _ => .rfl⟩
  have same : Resamples [s', s, s] [s] := by
    constructor
    · intro x hx
      refine ⟨s, List.mem_singleton_self s, ?_⟩
      rcases List.mem_cons.mp hx with rfl | hx
      · exact alike
      · obtain rfl : x = s := by simpa using hx
        exact ⟨rfl, fun _ => .rfl⟩
    · intro x hx
      exact ⟨s', List.mem_cons_self, List.mem_singleton.mp hx ▸ alike⟩
  exact run_resampled {} (.inl rfl) hv .refl drawn (by simp) drawn (by simp) (List.cons_ne_nil _ _)
    same

end Generator

end DescLogic
