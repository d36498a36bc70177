import DescLogic.Proofs.Generator.Completeness
import DescLogic.Proofs.Generator.Novelty
import DescLogic.Proofs.Semantics.Equality
/-!
# What comparing denotations loses

A run that compares denotations keeps one element for each denotation and forms others of those that
it keeps. An element that it leaves out could be formed as well of the elements kept in the place of
its operands, except where the operands have to differ and denote the same: then one element stands
for both of them, and the rules do not combine an element with itself.

* `Node.Collides`: the operands have to differ and denote the same. Intersections and unions do not
  count, since they give back their operand.
* `Selects.covered_family`: if elements are kept for the terms that collide, elements are kept for
  all terms that a run without comparison finds.
* `run_retains_iff`: what a run with comparison keeps of what a run without it lists. With rules
  that form what collides otherwise (`Config.Harmless`) it keeps everything.
* `run_loses_composition`: a composition is lost.
-/

namespace DescLogic

variable {c : Category} {χ ψ : Category → Type} {v : Vocabulary} {s : State} {states : List State}

/-! ## Collisions -/

/-- Applied to an operand twice, the operator gives it back. -/
def Operator.Idempotent : Operator c → Prop
  | .andConcept | .orConcept | .andRole | .orRole => True
  | _ => False

/-- The operator is not idempotent, and what `f` says of the operands does not tell apart those that
have to differ. -/
def Node.Collides (f : {d : Category} → χ d → ψ d) (n : Node χ c) : Prop :=
  ¬ n.operator.Idempotent ∧ ¬ (n.map f).Proper

theorem Term.values_canon (problems : ∀ s ∈ states, s.problem.Valid v) (t : Term c) :
    t.canon.values states = t.values states :=
  Term.values_eq_iff.mpr fun s hs => t.denote_canon (problems s hs)

/-- What a term denotes in the states depends on what its operands denote in them. -/
theorem Term.values_congr {o : Operator c} {ts us : Args Term o.signature}
    (h : ts.Rel (fun t u => t.values states = u.values states) us) :
    (ofNode ⟨o, ts⟩).values states = (ofNode ⟨o, us⟩).values states :=
  Term.values_eq_iff.mpr fun s hs =>
    denote_congr (h.imp fun same => Term.values_eq_iff.mp same s hs)

/-- Except for numericals, terms denote the same in the states if they stand for the same. -/
theorem Term.values_eq_of_ideal (problems : ∀ s ∈ states, s.problem.Valid v)
    (hc : c ≠ .numerical) {t u : Term c} (h : ∀ s ∈ states, t.ideal s = u.ideal s) :
    t.values states = u.values states :=
  Term.values_eq_iff.mpr fun s hs => (Term.denote_eq_iff (problems s hs) hc).mpr (h s hs)

theorem Term.ideal_eq_of_values (problems : ∀ s ∈ states, s.problem.Valid v)
    {t u : Term c} (h : t.values states = u.values states) (hs : s ∈ states) :
    t.ideal s = u.ideal s := by
  have same := Term.values_eq_iff.mp h s hs
  have ht := represents_term (problems s hs) t
  rw [same] at ht
  exact ht.unique (represents_term (problems s hs) u)

/-- A node collides exactly if its canonical form does. -/
theorem Node.collides_canon (problems : ∀ s ∈ states, s.problem.Valid v) (m : Node Term c) :
    (Term.ofNode m).canon.node.Collides (Term.values states) ↔ m.Collides (Term.values states) := by
  have operands : (m.map Term.canon).map (Term.values states) = m.map (Term.values states) := by
    rw [Node.map_map]
    simp only [Term.values_canon problems]
  rw [Term.canon_ofNode, Term.node_ofNode, Collides, Collides, operator_sorted, operator_map]
  apply and_congr_right fun _ => not_congr ?_
  rcases sorted_eq_or (m.map Term.canon) Term.textLe with h | h
  · rw [h, operands]
  · rw [h, ← swap_map, operands, proper_swap]

namespace Generator

variable {k : Config} {n : Nat} {K : List AnyTerm} {t u : Term c} {m : Node Term c}

/-! ## Covered terms -/

/-- A term of the list denotes in the states what the term denotes and is not more complex. -/
def Covered (states : List State) (K : List AnyTerm) (t : Term c) : Prop :=
  ∃ u, ⟨c, u⟩ ∈ K ∧ u.values states = t.values states ∧ u.complexity ≤ t.complexity

/-- What is covered covers what denotes the same and is not less complex. -/
theorem Covered.trans (ht : Covered states K t) (same : t.values states = u.values states)
    (le : t.complexity ≤ u.complexity) : Covered states K u := by
  obtain ⟨w, hw, values, bound⟩ := ht
  exact ⟨w, hw, values.trans same, Nat.le_trans bound le⟩

theorem covered_canon (problems : ∀ s ∈ states, s.problem.Valid v) :
    Covered states K t.canon ↔ Covered states K t := by
  rw [Covered, Covered, Term.values_canon problems, Term.complexity_canon]

section

variable (problems : ∀ s ∈ states, s.problem.Valid v)

include problems

/-- A term that is covered may stand for one over operands that denote the same. -/
theorem Covered.of_same {d : Category} {x y : Term d} (ht : Covered states K t)
    (hc : c ≠ .numerical) (same : x.values states = y.values states)
    (le : t.complexity ≤ u.complexity)
    (ideal : ∀ s, x.ideal s = y.ideal s → t.ideal s = u.ideal s) : Covered states K u := by
  apply ht.trans _ le
  apply Term.values_eq_of_ideal problems hc
  exact fun s hs => ideal s (Term.ideal_eq_of_values problems same hs)

/-- Idempotent operators give back operands that denote the same. -/
theorem covered_of_idempotent (operands : m.args.All (Covered states K))
    (idempotent : m.operator.Idempotent) (same : ¬ (m.map (Term.values states)).Proper) :
    Covered states K (Term.ofNode m) := by
  obtain ⟨o, args⟩ := m
  cases o
  case andConcept | orConcept | andRole | orRole =>
    casesm* Args _ _
    rename_i x y
    apply (Args.all_element.mp operands).1.of_same problems (by decide) (not_not.mp same)
    · rw [Term.complexity_ofNode]
      show x.complexity ≤ x.complexity + (y.complexity + 0) + 1
      omega
    · intro s same
      simp [Term.ideal_ofNode, Node.map, Args.map, Node.ideal, ← same]
  all_goals exact idempotent.elim

variable (hK : Selects k v (Term.values states) n (upTo n) K) (limits : ∀ c, k.limit c ≤ n)

include hK limits

/-- A rule covers what it would form of operands that are covered, unless it has to tell them
apart. -/
theorem Selects.covered_ofNode (operands : m.args.All (Covered states K))
    (enabled : m.operator.rule ∈ k.rules) (names : m.args.checkNames v = .ok ())
    (positions : m.checkPositions = .ok ()) (proper : (m.map (Term.values states)).Proper)
    (limit : (Term.ofNode m).complexity ≤ k.limit c) : Covered states K (Term.ofNode m) := by
  obtain ⟨us, rel⟩ := Args.exists_rel operands
  obtain ⟨o, ts⟩ := m
  have same : (Term.ofNode ⟨o, us⟩).values states = (Term.ofNode ⟨o, ts⟩).values states :=
    Term.values_congr (rel.symm.imp fun h => h.2.1)
  have le : (Term.ofNode ⟨o, us⟩).complexity ≤ (Term.ofNode ⟨o, ts⟩).complexity := by
    rw [Term.complexity_ofNode, Term.complexity_ofNode]
    exact Nat.succ_le_succ (Term.weight_le (rel.imp fun h => h.2.2))
  -- Terms of the list differ exactly if they denote something different.
  have proper : (⟨o, us⟩ : Node Term c).Proper := by
    let R {d : Category} (ds : List (Meaning d)) (u : Term d) := ⟨d, u⟩ ∈ K ∧ u.values states = ds
    have replaced : Node.Rel R (Node.map (Term.values states) ⟨o, ts⟩) ⟨o, us⟩ :=
      .intro (Args.rel_map_left.mpr (rel.imp fun h => ⟨h.1, h.2.1⟩))
    refine (replaced.proper_iff ?_).mp proper
    rintro d ds ds' u u' ⟨hu, rfl⟩ ⟨hu', rfl⟩
    exact ⟨fun h => hK.apart hu hu' h, congrArg _⟩
  have hform : Forms k v (fun u => ⟨_, u⟩ ∈ K) (Term.ofNode ⟨o, us⟩).canon := by
    refine .intro _ enabled ?_ ?_ proper (rel.all_right fun h => h.1) (Nat.le_trans le limit)
    · rw [← rel.checkNames_eq]
      exact names
    · rw [← Node.checkPositions_eq rel]
      exact positions
  have bound := Nat.le_trans hform.complexity_le (limits c)
  have covered : Covered states K (Term.ofNode ⟨o, us⟩).canon := hK.covered bound bound hform
  exact ((covered_canon problems).mp covered).trans same le

/-- If the members of the family that collide are covered, then all are. -/
theorem Selects.covered_family
    (collisions : ∀ {d : Category} {u : Term d}, Family k v u →
      u.node.Collides (Term.values states) → Covered states K u)
    (ht : Family k v t) : Covered states K t := by
  generalize size : t.complexity = i
  induction i using Nat.strongRecOn generalizing c t with
  | _ i ih =>
    have hform : Forms k v (fun u => Covered states K u) t :=
      ht.forms.imp fun {_ u} hu less => ih _ (by omega) hu rfl
    cases hform with
    | intro m enabled names positions _ operands limit =>
      by_cases proper : (m.map (Term.values states)).Proper
      · rw [covered_canon problems]
        exact hK.covered_ofNode problems limits operands enabled names positions proper limit
      by_cases idempotent : m.operator.Idempotent
      · rw [covered_canon problems]
        exact covered_of_idempotent problems operands idempotent proper
      · exact collisions ht ((Node.collides_canon problems m).mpr ⟨idempotent, proper⟩)

/-! ## Rules that lose nothing -/

/-- What the enabled rules would form of an operand taken twice is formed by other rules. -/
structure Config.Harmless (k : Config) : Prop where
  /-- Nothing is in a concept and not in it. -/
  diffConcept : .diffConcept ∈ k.rules → .botConcept ∈ k.rules
  /-- All objects have the same successors in a role as in it. -/
  rows : .subsetConcept ∈ k.rules ∨ .equalConcept ∈ k.rules → .topConcept ∈ k.rules
  /-- No pair is in a role and not in it. -/
  diffRole : .diffRole ∈ k.rules → .topRole ∈ k.rules ∧ .notRole ∈ k.rules
  /-- A concept and a role are included in themselves. -/
  inclusion : .inclusionBoolean ∈ k.rules →
    .emptyBoolean ∈ k.rules ∧ .botConcept ∈ k.rules ∧ 1 ≤ k.conceptLimit
  /-- No other rule forms compositions and distances. -/
  others : ∀ rule ∈ [Rule.composeRole, .conceptDistanceNumerical, .sumConceptDistanceNumerical,
    .roleDistanceNumerical, .sumRoleDistanceNumerical], rule ∉ k.rules

/-- What a harmless rule would form of an operand taken twice is covered. -/
theorem Selects.covered_collision (harmless : k.Harmless) (enabled : m.operator.rule ∈ k.rules)
    (proper : m.Proper) (collides : m.Collides (Term.values states))
    (limit : (Term.ofNode m).complexity ≤ k.limit c) : Covered states K (Term.ofNode m) := by
  obtain ⟨idempotent, same⟩ := collides
  have seed : 1 ≤ k.limit c := Nat.le_trans (Term.one_le_complexity _) limit
  obtain ⟨o, args⟩ := m
  cases o
  case andConcept | orConcept | andRole | orRole => exact absurd trivial idempotent
  case compose => exact absurd enabled (harmless.others .composeRole (by decide))
  case conceptDistance =>
    exact absurd enabled (harmless.others .conceptDistanceNumerical (by decide))
  case sumConceptDistance =>
    exact absurd enabled (harmless.others .sumConceptDistanceNumerical (by decide))
  case roleDistance => exact absurd enabled (harmless.others .roleDistanceNumerical (by decide))
  case sumRoleDistance =>
    exact absurd enabled (harmless.others .sumRoleDistanceNumerical (by decide))
  case primitiveRole =>
    casesm* Args _ _
    exact absurd proper same
  case diffConcept =>
    casesm* Args _ _
    have bot := hK.covered_ofNode problems limits (m := ⟨.bot, .nil⟩) .nil
      (harmless.diffConcept enabled) rfl rfl trivial seed
    apply bot.of_same problems (by decide) (not_not.mp same) (Term.one_le_complexity _)
    intro s same
    simp [Term.ideal_ofNode, Node.map, Args.map, Node.ideal, same]
  case subsetConcept | equalConcept =>
    casesm* Args _ _
    have enabled := harmless.rows (by first | exact .inl enabled | exact .inr enabled)
    have top := hK.covered_ofNode problems limits (m := ⟨.top, .nil⟩) .nil enabled rfl rfl trivial
      seed
    apply top.of_same problems (by decide) (not_not.mp same) (Term.one_le_complexity _)
    intro s same
    simp [Term.ideal_ofNode, Node.map, Args.map, Node.ideal, same]
  case diffRole =>
    obtain ⟨enabledTop, enabledNot⟩ := harmless.diffRole enabled
    have size := Term.three_le_complexity rfl args
    casesm* Args _ _
    have top := hK.covered_ofNode problems limits (m := ⟨.topRole, .nil⟩) .nil enabledTop rfl rfl
      trivial seed
    have none := hK.covered_ofNode problems limits
      (m := ⟨.notRole, .element (.ofNode ⟨.topRole, .nil⟩) .nil⟩) (.element top .nil) enabledNot
      rfl rfl trivial (by show 2 ≤ _; omega)
    apply none.of_same problems (by decide) (not_not.mp same) (by show 2 ≤ _; omega)
    intro s same
    refine funext₂ fun a b => propext ?_
    simp only [Term.ideal_ofNode, Node.map, Args.map, Node.ideal, same]
    tauto
  case conceptInclusion | roleInclusion =>
    obtain ⟨enabledEmpty, enabledBot, seed⟩ := harmless.inclusion enabled
    have size := Term.three_le_complexity rfl args
    casesm* Args _ _
    have bot := hK.covered_ofNode problems limits (m := ⟨.bot, .nil⟩) .nil enabledBot rfl rfl
      trivial seed
    have empty := hK.covered_ofNode problems limits
      (m := ⟨.conceptEmpty, .element (.ofNode ⟨.bot, .nil⟩) .nil⟩) (.element bot .nil) enabledEmpty
      rfl rfl trivial (by show 2 ≤ _; omega)
    apply empty.of_same problems (by decide) (not_not.mp same) (by show 2 ≤ _; omega)
    intro s same
    simp [Term.ideal_ofNode, Node.map, Args.map, Node.ideal, same]
  all_goals exact absurd trivial same

/-- Harmless rules cover all members of the family. -/
theorem Selects.covered_of_harmless (harmless : k.Harmless) (ht : Family k v t) :
    Covered states K t := by
  refine hK.covered_family problems limits (fun {d u} hu collides => ?_) ht
  cases hu with
  | form m enabled _ _ proper _ limit =>
    rw [covered_canon problems]
    rw [Node.collides_canon problems] at collides
    exact hK.covered_collision problems limits harmless enabled proper collides limit

end

/-! ## Two runs -/

/-- A listed element denotes `ds` in the states, one after the other. -/
def Outcome.Realises (o : Outcome) (states : List State) (ds : List (Meaning c)) : Prop :=
  ∃ h : Handle c, o.Keeps h ∧ states.mapM (o.factory.evaluate h) = .ok ds

/-- The operands of the stored element collide in the states. -/
def Outcome.Collides (o : Outcome) (states : List State) (h : Handle c) : Prop :=
  ∃ e, o.factory.get? h = some e ∧ e.node.Collides fun x => states.mapM (o.factory.evaluate x)

/-- A listed element denotes in the states what the other outcome's element denotes and is not more
complex. -/
def Outcome.Covers (o o' : Outcome) (states : List State) (h : Handle c) : Prop :=
  ∃ e h' e' ds, o'.factory.get? h = some e ∧ o.Keeps h' ∧ o.factory.get? h' = some e' ∧
    e'.summary.complexity ≤ e.summary.complexity ∧
    states.mapM (o.factory.evaluate h') = .ok ds ∧ states.mapM (o'.factory.evaluate h) = .ok ds

/-- The outcome covers all elements that the other one lists. -/
def Outcome.Retains (o o' : Outcome) (states : List State) : Prop :=
  ∀ {c : Category} {h : Handle c}, o'.Keeps h → o.Covers o' states h

variable {p p' : Progress} {K' : List AnyTerm} {h : Handle c}

section

variable (problems : ∀ s ∈ states, s.problem.Valid v)

include problems

theorem Records.mapM_evaluate (hp : Records v K p) (ht : p.factory.Spells h t) :
    states.mapM (p.factory.evaluate h) = .ok (t.values states) :=
  mapM_evaluate_of_spells hp.valid
    (fun s hs => checkVocabulary_of_valid (hp.vocabulary.symm ▸ problems s hs)) ht

theorem Records.realises_iff (hp : Records v K p) {ds : List (Meaning c)} :
    p.outcome.Realises states ds ↔ ∃ t, ⟨c, t⟩ ∈ K ∧ t.values states = ds := by
  constructor
  · rintro ⟨h, kept, evaluated⟩
    obtain ⟨t, ht, spells⟩ := hp.keeps_iff.mp kept
    have evaluated : states.mapM (p.factory.evaluate h) = .ok ds := evaluated
    rw [hp.mapM_evaluate problems spells] at evaluated
    cases evaluated
    exact ⟨t, ht, rfl⟩
  · rintro ⟨t, ht, rfl⟩
    obtain ⟨h, spells⟩ := hp.spelled ht
    exact ⟨h, hp.keeps_iff.mpr ⟨t, ht, spells⟩, hp.mapM_evaluate problems spells⟩

theorem Records.collides_iff (hp : Records v K p) (ht : p.factory.Spells h t) :
    p.outcome.Collides states h ↔ t.node.Collides (Term.values states) := by
  cases ht with
  | @intro c h o hs summary ts he rel =>
    -- The operands' batches are told apart exactly if their denotations are.
    have same : (Node.map (fun x => states.mapM (p.factory.evaluate x)) ⟨o, hs⟩).Proper ↔
        (Node.map (Term.values states) ⟨o, ts⟩).Proper := by
      refine Node.Rel.proper_iff (R := fun r ds => r = .ok ds) (.intro ?_) ?_
      · refine Args.rel_map_left.mpr (Args.rel_map_right.mpr (rel.imp fun ht => ?_))
        exact hp.mapM_evaluate problems ht
      · rintro d _ _ ds ds' rfl rfl
        exact ⟨Except.ok.inj, congrArg _⟩
    constructor
    · rintro ⟨e, he', idempotent, improper⟩
      cases he.symm.trans he'
      exact ⟨idempotent, mt same.mpr improper⟩
    · rintro ⟨idempotent, improper⟩
      exact ⟨_, he, idempotent, mt same.mp improper⟩

theorem Records.covers_iff (hp : Records v K p) (hp' : Records v K' p')
    (ht : p'.factory.Spells h t) : p.outcome.Covers p'.outcome states h ↔ Covered states K t := by
  have evaluated' := hp'.mapM_evaluate problems ht
  constructor
  · rintro ⟨e, h', e', ds, he, kept, he', le, evaluated, same⟩
    obtain ⟨u, hu, spells⟩ := hp.keeps_iff.mp kept
    rw [hp.valid.summary_eq he' spells, hp'.valid.summary_eq he ht] at le
    have values := Except.ok.inj ((hp.mapM_evaluate problems spells).symm.trans evaluated)
    have values' := Except.ok.inj (evaluated'.symm.trans same)
    exact ⟨u, hu, values.trans values'.symm, le⟩
  · rintro ⟨u, hu, same, le⟩
    obtain ⟨h', spells⟩ := hp.spelled hu
    obtain ⟨e, he⟩ := ht.stored
    obtain ⟨e', he'⟩ := spells.stored
    refine ⟨e, h', e', _, he, hp.keeps_iff.mpr ⟨u, hu, spells⟩, he', ?_,
      hp.mapM_evaluate problems spells, same ▸ evaluated'⟩
    rw [hp.valid.summary_eq he' spells, hp'.valid.summary_eq he ht]
    exact le

/-- The list covers what was listed by the other run. -/
theorem Records.retains (hp : Records v K p) (hp' : Records v K' p')
    (covered : ∀ {c : Category} {t : Term c}, ⟨c, t⟩ ∈ K' → Covered states K t) :
    p.outcome.Retains p'.outcome states := by
  intro c h kept
  obtain ⟨t, ht, spells⟩ := hp'.keeps_iff.mp kept
  exact (hp.covers_iff problems hp' spells).mpr (covered ht)

/-- What is retained is realised. -/
theorem Records.realises_of_retains (hp : Records v K p) (hp' : Records v K' p')
    (retains : p.outcome.Retains p'.outcome states) {ds : List (Meaning c)}
    (realised : p'.outcome.Realises states ds) : p.outcome.Realises states ds := by
  obtain ⟨t, ht, rfl⟩ := (hp'.realises_iff problems).mp realised
  obtain ⟨h, spells⟩ := hp'.spelled ht
  have covers := retains (hp'.keeps_iff.mpr ⟨t, ht, spells⟩)
  obtain ⟨u, hu, same, -⟩ := (hp.covers_iff problems hp' spells).mp covers
  exact (hp.realises_iff problems).mpr ⟨u, hu, same⟩

end

/-- **What comparing denotations loses.** In a reachable factory over a vocabulary whose names hold
no closing parenthesis, compare a run that compares denotations in sample states with one that does
not, both without limits on elements and time.

* Each element that the second lists has a counterpart in the first, which denotes the same in all
  sample states and is not more complex, exactly if each of those has one whose operands have to
  differ and denote the same.
* This is so if other rules form what the enabled ones would form of an operand taken twice.
* If it is so, then what the second realises is realised by the first. -/
theorem run_retains_iff {f : Factory} (config : Config) {states l : List State} {next : Nat}
    (clock clock' : Clock) (hv : v.Built) (readable : v.Readable) (hf : Factory.Reachable v f)
    (drawn : State.Drawn v l next) (hs : states ⊆ l) (nonempty : states ≠ [])
    (elements : config.maxElements = none) (time : config.timeLimit = none) :
    let on := run { config with deduplicates := true } states f clock
    let off := run { config with deduplicates := false } states f clock'
    (on.Retains off states ↔ ∀ {c : Category} {h : Handle c}, off.Keeps h →
      off.Collides states h → on.Covers off states h) ∧
    (config.Harmless → on.Retains off states) ∧
    (on.Retains off states → ∀ {c : Category} {ds : List (Meaning c)},
      off.Realises states ds → on.Realises states ds) := by
  intro on off
  have problems : ∀ s ∈ states, s.problem.Valid v :=
    fun s hmem => (drawn.built s (hs hmem)).valid hv.valid
  obtain ⟨n, K, p, limits, hrun, hK, hp⟩ := exists_selects_values
    { config with deduplicates := true } clock hv readable hf drawn hs nonempty elements time rfl
  obtain ⟨n', p', limits', hrun', K', hK', hp', mem⟩ := exists_gathered
    { config with deduplicates := false } states clock' hv readable hf
    (fun s hmem => drawn.built s (hs hmem)) elements time (.inl rfl)
  have hon : on = p.outcome := run_eq_outcome hrun
  have hoff : off = p'.outcome := run_eq_outcome hrun'
  rw [hon, hoff]
  have family {c : Category} {t : Term c} :
      ⟨c, t⟩ ∈ K' ↔ Family { config with deduplicates := true } v t := by
    constructor
    · exact fun ht => (hK'.member ht).of_deduplicates
    · intro ht
      exact mem ⟨c, t⟩ (Nat.le_trans ht.complexity_le (limits' c)) ht.of_deduplicates
  refine ⟨⟨fun retains _ _ kept _ => retains kept, fun collisions => ?_⟩, fun harmless => ?_,
    fun retains => hp.realises_of_retains problems hp' retains⟩
  · refine hp.retains problems hp' fun {_ t} ht => ?_
    refine hK.covered_family problems limits (fun {d u} hu collides => ?_) (family.mp ht)
    obtain ⟨h, spells⟩ := hp'.spelled (family.mpr hu)
    refine (hp.covers_iff problems hp' spells).mp (collisions ?_ ?_)
    · exact hp'.keeps_iff.mpr ⟨u, family.mpr hu, spells⟩
    · exact (hp'.collides_iff problems spells).mpr collides
  · refine hp.retains problems hp' fun ht => ?_
    exact hK.covered_of_harmless problems limits { harmless with } (family.mp ht)

/-- Differences of roles may be formed where the complement of all pairs is. The two primitive roles
denote the same in the state, so their difference is not formed, but that complement is. -/
theorem run_retains_differences :
    let states := [twoPaths]
    let empty : Factory := .empty twoPaths.vocabulary
    let config : Config := { rules := [.primitiveRole, .topRole, .notRole, .diffRole] }
    config.Harmless ∧
      (run { config with deduplicates := true } states empty id).Retains
        (run { config with deduplicates := false } states empty id) states := by
  intro states empty config
  have harmless : config.Harmless := by constructor <;> decide
  have retains := run_retains_iff config id id built_twoPaths readable_twoPaths .refl
    drawn_twoPaths (List.Subset.refl _) (List.cons_ne_nil _ _) rfl rfl
  exact ⟨harmless, retains.2.1 harmless⟩

/-! ## A composition that is lost -/

/-- Where all primitive roles denote the same, composition finds no two roles to compose. -/
theorem Selects.values_eq_of_primitive {S : Set AnyTerm} {ds : List ObjectRelation}
    (hK : Selects k v (Term.values states) n S K)
    (problems : ∀ s ∈ states, s.problem.Valid v)
    (rules : k.rules ⊆ [.primitiveRole, .composeRole])
    (primitive : ∀ {p : Predicate} {i j : Nat}, v.ownsPredicate p = true → i < j → j < p.arity →
      (Term.ofNode ⟨.primitiveRole, .predicate p (.position i (.position j .nil))⟩).values states =
        ds) {t : Term .role} (ht : ⟨.role, t⟩ ∈ K) : t.values states = ds := by
  generalize size : t.complexity = i
  induction i using Nat.strongRecOn generalizing t with
  | _ i ih =>
    have hform := (hK.formed ht).imp (B := fun {d} u => ⟨d, u⟩ ∈ K ∧ u.complexity < t.complexity)
      fun hu less => ⟨hu, less⟩
    cases hform with
    | intro m enabled names positions proper operands _ =>
      rw [Term.values_canon problems]
      obtain ⟨o, args⟩ := m
      have listed : o.rule ∈ [Rule.primitiveRole, .composeRole] := rules enabled
      clear enabled
      cases o
      case primitiveRole =>
        casesm* Args _ _
        exact primitive (Args.checkNames_predicate.mp names).1 proper
          (Node.checkPositions_primitiveRole.mp positions).2
      case compose =>
        casesm* Args _ _
        rename_i x y
        obtain ⟨⟨hx, less⟩, rest⟩ := Args.all_element.mp operands
        obtain ⟨⟨hy, less'⟩, -⟩ := Args.all_element.mp rest
        have same := (ih _ (size ▸ less) hx rfl).trans (ih _ (size ▸ less') hy rfl).symm
        exact absurd (hK.apart hx hy same) proper
      all_goals exact absurd listed (by decide)

/-- A composition of roles that denote the same is lost. -/
theorem run_loses_composition :
    let v : Vocabulary := twoPaths.vocabulary
    let config : Config := { roleLimit := 3, rules := [.primitiveRole, .composeRole] }
    let path : Meaning .role := .ofList 3 [(0, 2)]
    v.Built ∧ State.Drawn v [twoPaths] 1 ∧
      (run { config with deduplicates := false } [twoPaths] (.empty v)).Realises [twoPaths] [path] ∧
      ¬ (run { config with deduplicates := true } [twoPaths] (.empty v)).Realises [twoPaths]
        [path] := by
  intro v config path
  have hv : v.Built := built_twoPaths
  have drawn : State.Drawn v [twoPaths] 1 := drawn_twoPaths
  have readable : v.Readable := readable_twoPaths
  have problems : ∀ s ∈ [twoPaths], s.problem.Valid v :=
    fun s hmem => (drawn.built s hmem).valid hv.valid
  refine ⟨hv, drawn, ?_, ?_⟩
  · -- Without comparison, `p` and `q` are both kept, and composed.
    obtain ⟨n, p', limits, hrun, K, -, hp, mem⟩ := exists_gathered
      { config with deduplicates := false } [twoPaths] (fun _ => 0) hv readable .refl drawn.built
      rfl rfl (.inl rfl)
    let P : Node Term .role :=
      ⟨.primitiveRole, .predicate ⟨"p", 2, false, 0⟩ (.position 0 (.position 1 .nil))⟩
    let Q : Node Term .role :=
      ⟨.primitiveRole, .predicate ⟨"q", 2, false, 1⟩ (.position 0 (.position 1 .nil))⟩
    let R : Node Term .role := ⟨.compose, .element (.ofNode P) (.element (.ofNode Q) .nil)⟩
    have hP : Family { config with deduplicates := false } v (.ofNode P) :=
      .form P (by decide) rfl rfl Nat.zero_lt_one (.predicate _ (.position _ (.position _ .nil)))
        (by decide)
    have hQ : Family { config with deduplicates := false } v (.ofNode Q) :=
      .form Q (by decide) rfl rfl Nat.zero_lt_one (.predicate _ (.position _ (.position _ .nil)))
        (by decide)
    have differ : Term.ofNode P ≠ .ofNode Q :=
      fun h => absurd (congrArg Term.text h) (by decide +kernel)
    have hR := Family.form R (by decide) rfl rfl differ (.element hP (.element hQ .nil)) (by decide)
    have bound := Nat.le_trans hR.complexity_le (limits _)
    have values : (Term.ofNode R).values [twoPaths] = [path] := by decide +kernel
    rw [run_eq_outcome hrun, hp.realises_iff problems]
    exact ⟨_, mem ⟨_, _⟩ bound hR, (Term.values_canon problems _).trans values⟩
  · -- With it, every role that is kept denotes what `p` does.
    obtain ⟨n, K, p', -, hrun, hK, hp⟩ := exists_selects_values
      { config with deduplicates := true } (fun _ => 0) hv readable .refl drawn
      (List.Subset.refl _) (List.cons_ne_nil _ _) rfl rfl rfl
    rw [run_eq_outcome hrun, hp.realises_iff problems]
    rintro ⟨t, ht, found⟩
    have kept : t.values [twoPaths] = [.ofList 3 [(0, 1), (1, 2)]] := by
      refine hK.values_eq_of_primitive problems (List.Subset.refl _) (fun owned less range => ?_) ht
      rename_i p i j
      have known : p = ⟨"p", 2, false, 0⟩ ∨ p = ⟨"q", 2, false, 1⟩ := by
        simpa [v, twoPaths, State.vocabulary] using hv.valid.ownsPredicate_iff.mp owned
      obtain rfl | rfl := known <;> obtain ⟨rfl, rfl⟩ : i = 0 ∧ j = 1 := by
        have range : j < 2 := range
        omega
      all_goals decide +kernel
    rw [kept] at found
    exact absurd found (by decide +kernel)

end Generator

end DescLogic
