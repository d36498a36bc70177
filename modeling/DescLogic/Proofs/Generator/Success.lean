import DescLogic.Proofs.Evaluation.Success
import DescLogic.Proofs.Factory.Reachable
import DescLogic.Proofs.Generator.Determinacy
import DescLogic.Proofs.Generator.Novelty
/-!
# When a run fails

A run refuses sample states over another vocabulary before it forms anything, and nothing fails
after that. Steps of a run are not guarded, so a run that succeeds has neither formed a node nor
evaluated an element in vain.

* `Stocked`: what is true of the state of every run. The pool holds elements of the factory, so what
  the rules propose can be formed (`Stocked.formable`) and evaluated (`Stocked.exists_isNew`).
* `accounts_stocked`: every step of a run succeeds, and what is true of its state stays true.
* `run_fails_iff`: the runs that fail.
-/

namespace DescLogic.Generator

open Procedure

variable {c : Category} {v : Vocabulary} {f g : Factory} {p : Progress} {h : Handle c} {n : Nat}
  {task : Task} {rule : Rule} {states : List State} {y : AnyNode}

/-! ## States of runs -/

/-- The factory is valid, and the pool holds elements of it, once each, that are known to be
kept. -/
structure Stocked (v : Vocabulary) (p : Progress) : Prop where
  /-- The factory is valid. -/
  valid : p.factory.Valid
  /-- The factory is over the vocabulary. -/
  vocabulary : p.factory.vocabulary = v
  /-- The handles are held once each. -/
  tidy : p.pool.Tidy
  /-- The handles lead to elements. -/
  stored : ∀ {c : Category} {h : Handle c} {n : Nat}, h ∈ (p.pool.get c).level n →
    ∃ t, p.factory.Spells h t
  /-- The handles are known to be kept. -/
  placed : ∀ {c : Category} {h : Handle c} {n : Nat}, h ∈ (p.pool.get c).level n →
    h ∈ p.placed.get c

theorem stocked_start (hf : f.Valid) : Stocked f.vocabulary (.start f) where
  valid := hf
  vocabulary := rfl
  tidy c := by simpa [Progress.start] using Buckets.tidy_empty
  stored := by simp [Progress.start]
  placed := by simp [Progress.start]

theorem Stocked.grows (hp : Stocked v p) (grows : p.factory.Grows g) :
    Stocked v { p with factory := g } where
  valid := grows.valid hp.valid
  vocabulary := grows.extends.vocabulary.trans hp.vocabulary
  tidy := hp.tidy
  stored hh := (hp.stored hh).imp fun _ => grows.extends.spells
  placed := hp.placed

/-- What the pool holds after one more element has come to it. -/
theorem mem_level_modify_push {pool : Pool} {d : Category} {h' : Handle d} {m : Nat} :
    h' ∈ ((pool.modify c (·.push m h)).get d).level n ↔
      h' ∈ (pool.get d).level n ∨ m = n ∧ (⟨d, h'⟩ : AnyHandle) = ⟨c, h⟩ := by
  by_cases hcd : c = d
  · subst hcd
    simp [Buckets.mem_level_push]
  · have other : (⟨d, h'⟩ : AnyHandle) ≠ ⟨c, h⟩ := fun same => hcd (congrArg Sigma.fst same).symm
    simp [PerCategory.get_modify_of_ne hcd, other]

theorem mem_modify_insert {placed : PerCategory fun c => Std.HashSet (Handle c)} {d : Category}
    {h' : Handle d} :
    h' ∈ (placed.modify c (·.insert h)).get d ↔
      h' ∈ placed.get d ∨ (⟨d, h'⟩ : AnyHandle) = ⟨c, h⟩ := by
  by_cases hcd : c = d
  · subst hcd
    rw [PerCategory.get_modify_self, Std.HashSet.mem_insert, beq_iff_eq, Sigma.mk.injEq]
    simp [or_comm, @eq_comm _ h]
  · have other : (⟨d, h'⟩ : AnyHandle) ≠ ⟨c, h⟩ := fun same => hcd (congrArg Sigma.fst same).symm
    simp [PerCategory.get_modify_of_ne hcd, other]

/-- Keeping an element that was not kept before. -/
theorem Stocked.place (hp : Stocked v p) {t : Term c} (ht : p.factory.Spells h t)
    (new : h ∉ p.placed.get c) {s : Summary} (pos : 1 ≤ s.complexity) :
    Stocked v
      { p with
        pool := p.pool.modify c (·.push s.complexity h)
        placed := p.placed.modify c (·.insert h)
        result := { p.result with kept := p.result.kept.push ⟨c, s.text, rule⟩ } } where
  valid := hp.valid
  vocabulary := hp.vocabulary
  tidy d := by
    by_cases hcd : c = d
    · subst hcd
      simp only [PerCategory.get_modify_self]
      exact (hp.tidy c).push pos fun n held => new (hp.placed held)
    · simp only [PerCategory.get_modify_of_ne hcd]
      exact hp.tidy d
  stored held := by
    rcases mem_level_modify_push.mp held with held | ⟨-, ⟨⟩⟩
    · exact hp.stored held
    · exact ⟨t, ht⟩
  placed held := by
    apply mem_modify_insert.mpr
    rcases mem_level_modify_push.mp held with held | ⟨-, same⟩
    · exact .inl (hp.placed held)
    · exact .inr same

/-! ## Forming -/

/-- The node is over elements of the factory, and its names and positions fit. -/
structure Formable (v : Vocabulary) (f : Factory) (y : AnyNode) : Prop where
  /-- The operands are stored. -/
  operands : ∃ ts, y.2.args.Rel f.Spells ts
  /-- The names are entries of the vocabulary. -/
  names : y.2.args.checkNames v = .ok ()
  /-- The positions are in range. -/
  positions : y.2.checkPositions = .ok ()

theorem Formable.grows (hy : Formable v f y) (grows : f.Grows g) : Formable v g y :=
  { hy with operands := hy.operands.imp fun _ rel => rel.imp grows.extends.spells }

/-- Elements among held arguments are held. -/
theorem Pool.Holds.all_mem {pool : Pool} {ps : List Parameter} {as : Args Handle ps}
    (held : Pool.Holds pool as n) : as.All fun {c} x => ∃ m, x ∈ (pool.get c).level m := by
  induction as generalizing n with
  | nil => exact .nil
  | predicate q _ ih => exact .predicate q (ih held)
  | constant k _ ih => exact .constant k (ih held)
  | position i _ ih => exact .position i (ih held)
  | element x _ ih =>
    obtain ⟨i, j, hx, hrest, -⟩ := held
    exact .element ⟨i, hx⟩ (ih hrest)

/-- What a rule proposes can be formed. -/
theorem Stocked.formable (hp : Stocked v p) (hv : v.Valid)
    (hy : y ∈ (rule.candidates v p.pool n).toList) : Formable v p.factory y := by
  obtain ⟨-, held, -, positions, names⟩ := Rule.of_mem_candidates hv hp.tidy hy
  refine ⟨Args.exists_rel (held.all_mem.imp ?_), names, positions⟩
  rintro c x ⟨m, hx⟩
  exact hp.stored hx

/-- A node that can be formed is formed. -/
theorem Stocked.exists_make (hp : Stocked v p) (hy : Formable v p.factory y) :
    ∃ h g t, (BuildM.make y.2).run p.factory = (.ok h, g) ∧ p.factory.Grows g ∧ g.Spells h t := by
  obtain ⟨⟨ts, rel⟩, names, positions⟩ := hy
  rw [← hp.vocabulary] at names
  obtain ⟨h, g, made⟩ := Factory.exists_make rel names positions
  obtain ⟨t, ht, -⟩ := hp.valid.spells_make rel made
  exact ⟨h, g, t, made, Factory.grows_make made, ht⟩

/-! ## Keeping -/

section Keep

variable (hs : ∀ s ∈ task.states, s.vocabulary.id = v.id)

include hs

/-- Whether a stored element is new is found out, whatever the caches remember. -/
theorem Stocked.exists_isNew (hp : Stocked v p) {t : Term c} (ht : p.factory.Spells h t) :
    ∃ new caches seen, (RunM.isNew task h).run p = (.ok new, { p with caches, seen }) := by
  unfold RunM.isNew
  split
  · obtain ⟨ds, caches, run, -⟩ := EvalM.succeeds_evaluateBatch hp.valid ht
      (EvalM.forM_checkVocabulary hp.vocabulary hs) p.caches trivial
    have novel := RunM.run_isNovel task (h := h) run
    by_cases seen : ds ∈ p.seen.get c
    · exact ⟨false, caches, p.seen, novel.trans (if_pos seen)⟩
    · exact ⟨true, caches, _, novel.trans (if_neg seen)⟩
  · exact ⟨true, p.caches, p.seen, rfl⟩

/-- A stored element is kept or not. -/
theorem Stocked.exists_keepIfNew (rule : Rule) (hp : Stocked v p) {t : Term c}
    (ht : p.factory.Spells h t) :
    ∃ p', (RunM.keepIfNew task rule h).run p = (.ok ⟨⟩, p') ∧ p'.factory = p.factory ∧
      Stocked v p' := by
  obtain ⟨e, he⟩ := ht.stored
  have size : 1 ≤ e.summary.complexity := by
    rw [hp.valid.summary_eq he ht]
    exact t.one_le_complexity
  rw [RunM.run_keepIfNew he]
  split
  · exact ⟨p, rfl, rfl, hp⟩
  · next new =>
    obtain ⟨admitted, caches, seen, run⟩ := hp.exists_isNew hs ht
    have hp' : Stocked v { p with caches, seen } := { hp with }
    rw [run_bind_ok run]
    cases admitted with
    | false => exact ⟨_, rfl, rfl, hp'⟩
    | true => exact ⟨_, rfl, rfl, hp'.place ht (fun placed => new (.inl placed)) size⟩

/-! ## Runs -/

/-- The whole state of a run is an account of it. -/
theorem accounts_stocked (hv : v.Valid) :
    Accounts task.config (fun _ => task.states) task.clock v
      (fun (_ : Unit) p q => q = p ∧ Stocked v q) Progress.result
      fun _ f y z => y = z ∧ Formable v f y where
  result_eq hp := by rw [hp.1]
  report e := leads_of_ensures (RunM.ensures_report fun p _ _ hp => { hp with })
  read p := by
    refine ⟨p.readings, { p with readings := p.readings + 1 }, rfl, fun {_ q} hq => ?_⟩
    obtain ⟨rfl, hq⟩ := hq
    exact ⟨rfl, rfl, { hq with }⟩
  limit := leads_of_ensures (.modify fun p hp => { hp with })
  proposes rule n p _ := by
    refine ⟨(rule.candidates v p.pool n).toList, fun {_ q} hq => ?_⟩
    obtain ⟨rfl, hq⟩ := hq
    exact List.forall₂_same.mpr fun y hy => ⟨rfl, hq.formable hv hy⟩
  step rule p y _ := by
    by_cases hy : Stocked v p ∧ Formable v p.factory y
    · obtain ⟨h, g, t, made, grown, ht⟩ := hy.1.exists_make hy.2
      obtain ⟨p', kept, factory, hp'⟩ :=
        (hy.1.grows grown).exists_keepIfNew hs rule ht
      refine ⟨p', fun {_ q z} hq hz => ?_⟩
      obtain ⟨rfl, -⟩ := hq
      obtain ⟨rfl, -⟩ := hz
      refine ⟨h, _, p', RunM.run_inFactory made, kept, ⟨rfl, hp'⟩, fun {y' z'} hy' => ?_⟩
      refine ⟨hy'.1, hy'.2.grows ?_⟩
      rw [factory]
      exact grown
    · refine ⟨p, fun {_ q z} hq hz => absurd ?_ hy⟩
      obtain ⟨rfl, hq⟩ := hq
      obtain ⟨rfl, hz⟩ := hz
      exact ⟨hq, hz⟩

end Keep

/-- A run in states over the vocabulary succeeds. -/
theorem exists_run_eq_ok (config : Config) (clock : Clock) (hv : v.Built)
    (hf : Factory.Reachable v f) (hs : ∀ s ∈ states, s.vocabulary.id = v.id) :
    ∃ r, (run config states f clock).result = .ok r := by
  obtain rfl := hf.vocabulary
  have own : ∀ s ∈ (⟨config, states, clock⟩ : Task).states, s.vocabulary.id = f.vocabulary.id := hs
  obtain ⟨_, p', generated⟩ := (accounts_stocked own hv.valid).generate (.start f) fun hp =>
    ⟨hp.2.vocabulary, EvalM.forM_checkVocabulary hp.2.vocabulary hs⟩
  obtain ⟨r', q, hrun, -⟩ := generated ⟨⟩ (.start f) ⟨rfl, stocked_start hf.valid⟩
  refine ⟨r', ?_⟩
  unfold run
  rw [hrun]

/-- A run in a state over another vocabulary is refused before it forms anything. -/
theorem run_of_foreign (config : Config) (clock : Clock) (hf : f.vocabulary = v)
    (foreign : ∃ s ∈ states, s.vocabulary.id ≠ v.id) :
    run config states f clock = ⟨.error .vocabularyMismatch, f, []⟩ := by
  have hrun : (RunM.generate ⟨config, states, clock⟩).run (.start f) =
      (.error .vocabularyMismatch, .start f) := by
    unfold RunM.generate
    rw [run_bind_ok run_get]
    exact run_bind_error
      (run_lift.trans (Prod.ext (EvalM.forM_checkVocabulary_of_foreign hf foreign) rfl))
  unfold run
  rw [hrun]
  rfl

/-- **Runs fail in foreign states only.** In a reachable factory, a run fails if and only if one of
the sample states is over another vocabulary, and then it reports just that and leaves the factory
as it was. In all other cases it returns a result. This holds under every clock, so also of runs
that a limit on time cuts short. A run never goes on after an error, so none of the nodes that it
forms is refused, and none of the evaluations that it asks for fails. -/
theorem run_fails_iff (config : Config) (states : List State) (clock : Clock) (hv : v.Built)
    (hf : Factory.Reachable v f) :
    ((∃ err, (run config states f clock).result = .error err) ↔
        ∃ s ∈ states, s.vocabulary.id ≠ v.id) ∧
      (∀ err, (run config states f clock).result = .error err →
        err = .vocabularyMismatch ∧ (run config states f clock).factory = f) ∧
      ((∀ s ∈ states, s.vocabulary.id = v.id) →
        ∃ r, (run config states f clock).result = .ok r) := by
  by_cases foreign : ∃ s ∈ states, s.vocabulary.id ≠ v.id
  · rw [run_of_foreign config clock hf.vocabulary foreign]
    refine ⟨iff_of_true ⟨_, rfl⟩ foreign, ?_, fun own => ?_⟩
    · rintro err ⟨⟩
      exact ⟨rfl, rfl⟩
    · obtain ⟨s, hs, other⟩ := foreign
      exact absurd (own s hs) other
  · have own : ∀ s ∈ states, s.vocabulary.id = v.id := by simpa using foreign
    obtain ⟨r, hr⟩ := exists_run_eq_ok config clock hv hf own
    rw [hr]
    exact ⟨iff_of_false (by simp) foreign, by simp, fun _ => ⟨r, rfl⟩⟩

/-- A vocabulary with the same entries is another one all the same. In a state over its own, a run
succeeds also if its time is up when it looks at the clock for the third time. -/
theorem run_fails_twin :
    let v : Vocabulary := twoPaths.vocabulary
    let s : State := ⟨0, .ofVocabulary { v with id := 1 }, []⟩
    let config : Config := { timeLimit := some 2 }
    (run config [s] (.empty v) id).result = .error .vocabularyMismatch ∧
      (run config [s] (.empty v) id).factory = .empty v ∧
        ∃ r, (run config [twoPaths] (.empty v) id).result = .ok r ∧ r.total ≤ 2 := by
  intro v s config
  obtain ⟨fails, error, -⟩ := run_fails_iff config [s] id built_twoPaths .refl
  obtain ⟨err, hrun⟩ := fails.mpr ⟨s, List.mem_singleton_self s, by decide⟩
  obtain ⟨rfl, factory⟩ := error err hrun
  obtain ⟨-, -, succeeds⟩ := run_fails_iff config [twoPaths] id built_twoPaths .refl
  obtain ⟨r, hr⟩ := succeeds (by simp)
  have time : config.timeLimit = some 2 := rfl
  exact ⟨hrun, factory, r, hr, total_le_of_late time (fun _ => id) hr⟩

end DescLogic.Generator
