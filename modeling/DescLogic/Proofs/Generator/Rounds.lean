import DescLogic.Proofs.Generator.Selection
/-!
# Rounds

A run covers the terms of one complexity after the other. Once the terms of complexity up to `n` are
covered, the candidates of the enabled rules stand for all terms of complexity `n + 1` that are
formed of kept ones.

* `Records.exists_proposes`, `Records.exists_candidate`: what a rule proposes stands for a term
  formed of kept ones, and every such term of the next complexity is proposed by its rule.
* `RunM.ensures_applyRules`, `RunM.ensures_rounds`: a round covers the terms of one more complexity.
* `RunM.ensures_generate_selected`: a whole run covers the terms of every complexity.
-/

namespace DescLogic.Generator

open Procedure

variable {V : Category → Type} {view : {c : Category} → Term c → V c}
  {Notes : List AnyTerm → Factory → Caches → Seen → Prop} {c : Category} {v : Vocabulary}
  {k : Config} {n : Nat} {K : List AnyTerm} {p : Progress} {rule : Rule} {S : Set AnyTerm}

/-! ## Candidates -/

/-- Kept operands have terms in the list. -/
theorem Records.exists_terms (hp : Records v K p) {ps : List Parameter} {hs : Args Handle ps}
    (held : Pool.Holds p.pool hs n) :
    ∃ ts : Args Term ps, hs.Rel p.factory.Spells ts ∧ (ts.All fun t => ⟨_, t⟩ ∈ K) ∧
      Term.weight ts = n := by
  induction hs generalizing n with
  | nil => exact ⟨.nil, .nil, .nil, held.symm⟩
  | predicate q _ ih =>
    obtain ⟨ts, rel, all, weight⟩ := ih held
    exact ⟨_, .predicate q rel, .predicate q all, weight⟩
  | constant q _ ih =>
    obtain ⟨ts, rel, all, weight⟩ := ih held
    exact ⟨_, .constant q rel, .constant q all, weight⟩
  | position i _ ih =>
    obtain ⟨ts, rel, all, weight⟩ := ih held
    exact ⟨_, .position i rel, .position i all, weight⟩
  | element x _ ih =>
    obtain ⟨i, j, hx, hrest, rfl⟩ := held
    obtain ⟨t, ht, spells, rfl⟩ := hp.mem_level.mp hx
    obtain ⟨ts, rel, all, rfl⟩ := ih hrest
    exact ⟨_, .element spells rel, .element ht all, rfl⟩

/-- Operands whose terms are in the list were kept. -/
theorem Records.holds (hp : Records v K p) {ps : List Parameter} {hs : Args Handle ps}
    {ts : Args Term ps} (rel : hs.Rel p.factory.Spells ts) (all : ts.All fun t => ⟨_, t⟩ ∈ K) :
    Pool.Holds p.pool hs (Term.weight ts) := by
  induction rel with
  | nil => rfl
  | predicate q _ ih => exact ih (Args.all_predicate.mp all)
  | constant q _ ih => exact ih (Args.all_constant.mp all)
  | position i _ ih => exact ih (Args.all_position.mp all)
  | element spells _ ih =>
    obtain ⟨ht, all⟩ := Args.all_element.mp all
    exact ⟨_, _, hp.mem_level.mpr ⟨_, ht, spells, rfl⟩, ih all, rfl⟩

/-- Handles are the same exactly if their terms are. -/
theorem Records.apart (hp : Records v K p) {h h' : Handle c} {t t' : Term c}
    (ht : p.factory.Spells h t) (ht' : p.factory.Spells h' t') : h = h' ↔ t = t' := by
  constructor
  · rintro rfl
    exact ht.unique ht'
  · rintro rfl
    exact hp.valid.eq_of_text_eq ht ht' rfl

/-- An enabled rule forms the term of a node over kept elements, if it is within the limit. -/
theorem Records.forms (hp : Records v K p) {n : Node Handle c} {m : Node Term c}
    (rel : n.Rel p.factory.Spells m) (kept : m.args.All fun t => ⟨_, t⟩ ∈ K)
    (enabled : n.operator.rule ∈ k.rules) (names : n.args.checkNames v = .ok ())
    (positions : n.checkPositions = .ok ()) (proper : n.Proper)
    (limit : (Term.ofNode m).complexity ≤ k.limit c) :
    Forms k v (fun u => ⟨_, u⟩ ∈ K) (Term.ofNode m).canon := by
  have proper := (rel.proper_iff hp.apart).mp proper
  cases rel with
  | intro rel =>
    refine .intro _ enabled ?_ ?_ proper kept limit
    · rw [← rel.checkNames_eq]
      exact names
    · rw [← Node.checkPositions_eq rel]
      exact positions

/-- What an enabled rule proposes stands for a term formed of kept ones, if it is within the
limit. -/
theorem Records.exists_proposes (hp : Records v K p) (hv : v.Valid) (enabled : rule ∈ k.rules)
    {y : AnyNode} (hy : y ∈ (rule.candidates v p.pool n).toList) :
    ∃ x, Proposes k v K p.factory (n + 1) rule y x := by
  obtain ⟨hrule, held, proper, positions, names⟩ := Rule.of_mem_candidates hv hp.tidy hy
  obtain ⟨c, o, hs⟩ := y
  obtain ⟨ts, rel, all, weight⟩ := hp.exists_terms held
  have nodeRel : (⟨o, hs⟩ : Node Handle c).Rel p.factory.Spells ⟨o, ts⟩ := .intro rel
  have complexity : (Term.ofNode ⟨o, ts⟩).complexity = n + 1 := by
    rw [Term.complexity_ofNode, weight]
  refine ⟨⟨c, (Term.ofNode ⟨o, ts⟩).canon⟩, .intro ⟨_, nodeRel, rfl⟩ names positions ?_ ?_ ?_⟩
  · rw [Term.rule_canon]
    exact hrule
  · rw [Term.complexity_canon, complexity]
  · intro limit
    exact hp.forms nodeRel all (hrule ▸ enabled) names positions proper (complexity ▸ limit)

/-- Every term that is formed of kept ones is proposed by its rule. -/
theorem Records.exists_candidate (hp : Records v K p) (hv : v.Valid) (readable : v.Readable)
    {t : Term c} (ht : Forms k v (fun u => ⟨_, u⟩ ∈ K) t) (complexity : t.complexity = n + 1) :
    ∃ y ∈ (t.rule.candidates v p.pool n).toList,
      Proposes k v K p.factory (n + 1) t.rule y ⟨c, t⟩ := by
  have hform := ht
  cases ht with
  | intro m enabled names positions proper kept limit =>
    have total := complexity
    rw [Term.complexity_canon, Term.complexity_ofNode] at total
    have weight : Term.weight m.args = n := by omega
    have stored : m.args.All fun u => ∃ h, p.factory.Spells h u :=
      kept.imp fun hu => hp.spelled hu
    obtain ⟨hs, rel⟩ := Args.exists_rel stored
    have rel : hs.Rel p.factory.Spells m.args := rel.symm
    let node : Node Handle c := ⟨m.operator, hs⟩
    have nodeRel : node.Rel p.factory.Spells m := .intro rel
    have names : node.args.checkNames v = .ok () := by
      rw [← names]
      exact rel.checkNames_eq
    have positions : node.checkPositions = .ok () := by
      rw [← positions]
      exact Node.checkPositions_eq rel
    have held : Pool.Holds p.pool node.args n := weight ▸ hp.holds rel kept
    have proper := (nodeRel.proper_iff hp.apart).mpr proper
    have reads : p.factory.Reads node (Term.ofNode m).canon := ⟨m, nodeRel, rfl⟩
    have rule : (Term.ofNode m).canon.rule = node.operator.rule := Term.rule_canon _
    rw [rule]
    rcases Rule.mem_candidates hv hp.tidy node held proper positions names with here | swapped
    · exact ⟨_, here, .intro reads names positions rule complexity fun _ => hform⟩
    · have vocabulary := hp.vocabulary
      subst vocabulary
      have reads := hp.valid.reads_swap hv readable reads names positions
      refine ⟨_, swapped, .intro reads ?_ ?_ rule complexity fun _ => hform⟩
      · rw [Node.checkNames_swap]
        exact names
      · rw [Node.checkPositions_swap]
        exact positions

/-! ## Rules, rounds and runs -/

variable {rules : List Rule}

/-- The terms of a complexity that one of the rules forms. -/
def formedBy (rules : List Rule) (n : Nat) : Set AnyTerm :=
  {x | x.2.complexity = n ∧ x.2.rule ∈ rules}

/-- One rule after the others. -/
theorem Selected.cons
    (hp : Selected k v view Notes [] n ((S ∪ formedBy [rule] n) ∪ formedBy rules n) p) :
    Selected k v view Notes [] n (S ∪ formedBy (rule :: rules) n) p := by
  apply hp.of_subset
  rintro x (hx | ⟨complexity, hx⟩) - -
  · exact .inl (.inl hx)
  · rcases List.mem_cons.mp hx with hx | hx
    · exact .inl (.inr ⟨complexity, List.mem_singleton.mpr hx⟩)
    · exact .inr ⟨complexity, hx⟩

/-- With what all rules form, all terms of one more complexity are covered. -/
theorem Selected.upTo_succ
    (hp : Selected k v view Notes [] (n + 1) (upTo n ∪ formedBy k.rules (n + 1)) p) :
    Selected k v view Notes [] (n + 1) (upTo (n + 1)) p := by
  apply hp.of_subset
  intro x hx enabled _
  have bound : x.2.complexity ≤ n + 1 := hx
  by_cases less : x.2.complexity ≤ n
  · exact .inl less
  · exact .inr ⟨by omega, enabled⟩

/-- Nothing is selected at the start. -/
theorem selected_start {f : Factory} (hf : f.Valid)
    (notes : Notes [] f ∅ (.ofFn fun _ => ∅)) :
    Selected k f.vocabulary view Notes [] 1 (upTo 0) (.start f) := by
  refine ⟨[], List.Subset.refl _, selects_nil.of_subset ?_, records_start hf, notes⟩
  intro x hx
  have := x.2.one_le_complexity
  have : x.2.complexity ≤ 0 := hx
  omega

namespace RunM

variable {task : Task}

variable (ht : task.Endless) (hj : Judges task v view Notes) (hv : v.Valid)
  (readable : v.Readable)

include ht hj hv readable

/-- All terms that an enabled rule forms of kept ones are covered. -/
theorem selected_consider (enabled : rule ∈ task.config.rules) (hS : upTo n ⊆ S)
    (hp : Selected task.config v view Notes [] (n + 1) S p) :
    ∃ p', (consider task rule (rule.candidates v p.pool n)).run p = (.ok ⟨⟩, p') ∧
      Selected task.config v view Notes [] (n + 1) (S ∪ formedBy [rule] (n + 1)) p' := by
  obtain ⟨K, -, hK, records, notes⟩ := hp
  have proposes := fun y hy => records.exists_proposes (n := n) (y := y) hv enabled hy
  obtain ⟨_, p', run, K', sub, hK', records', notes'⟩ :=
    ensures_consider ht hj hv readable proposes p
      ⟨⟨K, List.Subset.refl K, hK, records, notes⟩, .refl p.factory⟩
  refine ⟨p', run, K', List.nil_subset _, { hK' with covered := ?_ }, records', notes'⟩
  rintro c t (hmem | ⟨complexity, hrule⟩) bound hform
  · exact hK'.covered (.inl hmem) bound hform
  · obtain rfl := List.mem_singleton.mp hrule
    have hform' := hform.imp fun {_ u} hu less =>
      hK.mem_of_later hK' sub hS (Nat.le_succ n) hu (m := n) (by
        have : t.complexity = n + 1 := complexity
        omega)
    exact hK'.covered (.inr (records.exists_candidate hv readable hform' complexity)) bound hform

theorem ensures_seed (enabled : rules ⊆ task.config.rules) (hS : upTo 0 ⊆ S) :
    Ensures (Selected task.config v view Notes [] 1 S) (seed task v rules)
      fun _ => Selected task.config v view Notes [] 1 (S ∪ formedBy rules 1) := by
  induction rules generalizing S with
  | nil =>
    refine .pure fun p hp => hp.of_subset ?_
    rintro x (hx | ⟨-, hx⟩) - -
    · exact hx
    · cases hx
  | cons rule rules ih =>
    obtain ⟨first, rest⟩ := List.cons_subset.mp enabled
    intro p hp
    obtain ⟨p₁, run, hp₁⟩ := selected_consider ht hj hv readable first hS hp
    have hS₁ : upTo 0 ⊆ S ∪ formedBy [rule] 1 := fun x hx => .inl (hS hx)
    obtain ⟨_, p₂, run₂, hp₂⟩ := ih rest hS₁ p₁ hp₁
    refine ⟨⟨⟩, p₂, ?_, hp₂.cons⟩
    unfold seed
    rw [run_bind_ok run_get, hp.unlimited]
    exact (run_bind_ok run).trans run₂

theorem ensures_applyRules (enabled : rules ⊆ task.config.rules) (hS : upTo (n + 1) ⊆ S) :
    Ensures (Selected task.config v view Notes [] (n + 2) S) (applyRules task (n + 1) rules)
      fun _ => Selected task.config v view Notes [] (n + 2) (S ∪ formedBy rules (n + 2)) := by
  induction rules generalizing S with
  | nil =>
    refine .pure fun p hp => hp.of_subset ?_
    rintro x (hx | ⟨-, hx⟩) - -
    · exact hx
    · cases hx
  | cons rule rules ih =>
    obtain ⟨first, rest⟩ := List.cons_subset.mp enabled
    have hS₁ : upTo (n + 1) ⊆ S ∪ formedBy [rule] (n + 2) := fun x hx => .inl (hS hx)
    have next := ensures_unlessReached ht (fun p hp => hp.unlimited) (ih rest hS₁)
    have next := next.imp (fun _ hp => hp) fun _ p hp => hp.cons
    unfold applyRules
    by_cases limit : n + 2 ≤ task.config.limit rule.category
    · rw [if_pos limit]
      intro p hp
      obtain ⟨p₁, run, hp₁⟩ := selected_consider ht hj hv readable first hS hp
      obtain ⟨_, p₂, run₂, hp₂⟩ := next p₁ hp₁
      refine ⟨⟨⟩, p₂, ?_, hp₂⟩
      rw [run_bind_ok run_get]
      exact (run_bind_ok run).trans run₂
    · rw [if_neg limit]
      refine next.imp (fun p hp => hp.of_subset ?_) fun _ _ hp => hp
      rintro x (hx | ⟨complexity, hx⟩) - bound
      · exact hx
      · -- The limit of the rule's category is the limit of the term's.
        rw [complexity, ← x.2.category_rule, List.mem_singleton.mp hx] at bound
        exact absurd bound limit

/-- Each round covers the terms of one more complexity. -/
theorem ensures_rounds (count : Nat) :
    Ensures (Selected task.config v view Notes [] (n + 1) (upTo (n + 1)))
      (rounds task (n + 1) count)
      fun _ => Selected task.config v view Notes [] (n + 1 + count) (upTo (n + 1 + count)) := by
  induction count generalizing n with
  | zero => exact .pure fun _ hp => hp
  | succ count ih =>
    unfold rounds
    apply ensures_unlessReached ht fun p hp => hp.unlimited
    have rules := ensures_applyRules (n := n) ht hj hv readable (List.Subset.refl _) fun _ hx => hx
    have round : Ensures (Selected task.config v view Notes [] (n + 1) (upTo (n + 1)))
        (applyRules task (n + 1) task.config.rules)
        fun _ => Selected task.config v view Notes [] (n + 2) (upTo (n + 2)) :=
      rules.imp (fun p hp => hp.mono (Nat.le_succ _) fun _ hx => hx) fun _ p hp => hp.upTo_succ
    apply round.bind fun _ => Ensures.get_bind fun p hp => ?_
    apply ((ensures_report fun p events reported hp => hp.reported events reported).bind
      fun _ => ih).imp
    · rintro _ rfl
      exact hp
    · intro _ p hp
      rwa [show n + 1 + 1 + count = n + 1 + (count + 1) by omega] at hp

end RunM

theorem Config.limit_le_maxLimit (c : Category) : k.limit c ≤ k.maxLimit := by
  unfold Config.maxLimit
  cases c <;> simp only [Category.all, List.map, List.foldl] <;> omega

/-- A run over a valid factory covers the terms of every complexity. -/
theorem RunM.ensures_generate_selected {task : Task} {f : Factory} (ht : task.Endless)
    (hj : Judges task f.vocabulary view Notes) (hf : f.Valid) (hv : f.vocabulary.Valid)
    (readable : f.vocabulary.Readable) (notes : Notes [] f ∅ (.ofFn fun _ => ∅))
    (checked : task.states.forM (EvalM.checkVocabulary f) = .ok ⟨⟩) :
    ∃ n, (∀ c, task.config.limit c ≤ n) ∧
      Ensures (fun p => p = .start f) (generate task)
        fun r p => r = p.result ∧
          Selected task.config f.vocabulary view Notes [] n (upTo n) p := by
  refine ⟨0 + 1 + (task.config.maxLimit - 1), ?_, ?_⟩
  · intro c
    have := Config.limit_le_maxLimit (k := task.config) c
    omega
  have seeds : Ensures (fun p => p = .start f) (seed task f.vocabulary task.config.rules)
      fun _ => Selected task.config f.vocabulary view Notes [] 1 (upTo 1) := by
    apply (ensures_seed ht hj hv readable (List.Subset.refl _) fun _ hx => hx).imp
    · rintro _ rfl
      exact selected_start hf notes
    · exact fun _ p hp => hp.upTo_succ
  have rounds := ensures_rounds (n := 0) ht hj hv readable (task.config.maxLimit - 1)
  unfold generate
  apply Ensures.get_bind
  rintro _ rfl
  apply Ensures.bind (Q := fun _ p => p = .start f)
  · exact Ensures.lift checked fun _ hp => hp
  intro _
  apply Ensures.get_bind
  rintro _ rfl
  apply seeds.bind fun _ => Ensures.get_bind fun p hp => ?_
  let P₁ : Progress → Prop := Selected task.config f.vocabulary view Notes [] 1 (upTo 1)
  apply Ensures.bind (Q := fun _ => P₁)
  · apply (ensures_report (P := P₁) fun q events reported hq => hq.reported events reported).imp
    · rintro _ rfl
      exact hp
    · exact fun _ _ h => h
  intro _
  apply rounds.bind fun _ => Ensures.get_bind fun p hp => ?_
  let P (q : Progress) : Prop := p.result = q.result ∧
    Selected task.config f.vocabulary view Notes [] (0 + 1 + (task.config.maxLimit - 1))
      (upTo (0 + 1 + (task.config.maxLimit - 1))) q
  apply Ensures.bind (Q := fun _ => P)
  · apply (Ensures.forM (P := P) fun x => ensures_report fun q events reported hq =>
      ⟨hq.1, hq.2.reported events reported⟩).imp
    · rintro _ rfl
      exact ⟨rfl, hp⟩
    · exact fun _ _ h => h
  intro _
  exact .pure fun _ hq => hq

end DescLogic.Generator
