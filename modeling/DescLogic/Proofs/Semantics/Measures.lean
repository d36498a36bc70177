import DescLogic.Proofs.Factory.Identity
import DescLogic.Proofs.Semantics.Numericals
/-!
# Counts, minima and sums of path lengths

`Node.measure` gives the number that a numerical denotes by its definition over paths: every
distance operator first asks for empty operands, and then takes minima and sums of the lengths of
shortest paths one pair of objects at a time. The evaluation takes shortcuts: it stops at endpoints
that overlap, searches backwards along the inverse role, and keeps a table of all distances.

* `le_minimum_pathLength_iff`: a minimum of path lengths as a bound on the paths.
* `total_eq`: a sum is capped, or has a term that is `unreachable` already.
* `Node.value_eq_measure`: the value of a numerical is its measure.
* `evaluate_eq_measure`: the evaluation of a stored numerical gives the measure of what the
  evaluations of its operands represent.
-/

namespace DescLogic

open Factory

variable {α : Type} {R Q T : Nat → Nat → Prop} {X Y : Set Nat} {A : Set α} {f : α → Nat}
  {b c n x : Nat}

open Classical in
/-- The length of a shortest path from `b` to `c` along `R`, `unreachable` if there is none. -/
noncomputable def pathLength (R : Nat → Nat → Prop) (b c : Nat) : Nat :=
  if ∃ k, Steps R b k c then sInf {k | Steps R b k c} else unreachable

open Classical in
/-- The least `f a` for `a` in `A`, `unreachable` if `A` is empty. -/
noncomputable def minimum (A : Set α) (f : α → Nat) : Nat :=
  if A.Nonempty then sInf (f '' A) else unreachable

open Classical in
/-- The sum of `f a` for `a` in `A`, `unreachable` if a term is that or if the sum reaches it. -/
noncomputable def total (A : Set α) (f : α → Nat) : Nat :=
  if ∃ a ∈ A, f a = unreachable then unreachable else min (∑ᶠ a ∈ A, f a) unreachable

open Classical in
/-- The number that a numerical denotes, by minima and sums of path lengths. -/
noncomputable def Node.measure : Node Ideal .numerical → Nat
  | ⟨.conceptCount, .element X .nil⟩ => min (Set.ncard X) unreachable
  | ⟨.roleCount, .element R .nil⟩ => min (Set.ncard {p : Nat × Nat | R p.1 p.2}) unreachable
  | ⟨.conceptDistance, .element X (.element R (.element Y .nil))⟩ =>
    if X = ∅ ∨ Y = ∅ then unreachable
    else minimum {p : Nat × Nat | p.1 ∈ X ∧ p.2 ∈ Y} fun p => pathLength R p.1 p.2
  | ⟨.sumConceptDistance, .element X (.element R (.element Y .nil))⟩ =>
    if X = ∅ ∨ Y = ∅ then unreachable
    else total X fun b => minimum Y fun c => pathLength R b c
  | ⟨.roleDistance, .element Q (.element R (.element T .nil))⟩ =>
    if (∀ a b, ¬Q a b) ∨ (∀ a c, ¬T a c) then unreachable
    else minimum {p : Nat × Nat × Nat | Q p.1 p.2.1 ∧ T p.1 p.2.2} fun p => pathLength R p.2.1 p.2.2
  | ⟨.sumRoleDistance, .element Q (.element R (.element T .nil))⟩ =>
    if (∀ a b, ¬Q a b) ∨ (∀ a c, ¬T a c) then unreachable
    else total {a | ∃ b, Q a b} fun a =>
      minimum {p : Nat × Nat | Q a p.1 ∧ T a p.2} fun p => pathLength R p.1 p.2

/-! ## Minima and sums -/

theorem le_minimum_iff (capped : ∀ a ∈ A, f a ≤ unreachable) :
    x ≤ minimum A f ↔ x ≤ unreachable ∧ ∀ a ∈ A, x ≤ f a := by
  unfold minimum
  split_ifs with hA
  · obtain ⟨a, ha, least⟩ := Nat.sInf_mem (hA.image f)
    constructor
    · intro hx
      refine ⟨(hx.trans least.ge).trans (capped a ha), fun a' ha' => hx.trans ?_⟩
      exact Nat.sInf_le ⟨a', ha', rfl⟩
    · exact fun hx => (hx.2 a ha).trans least.le
  · rw [Set.not_nonempty_iff_eq_empty] at hA
    simp [hA]

/-- A term that is `unreachable` makes the sum reach it. -/
theorem total_eq (finite : A.Finite) : total A f = min (∑ᶠ a ∈ A, f a) unreachable := by
  unfold total
  split_ifs with h
  · obtain ⟨a, ha, term⟩ := h
    have one : f a ≤ ∑ᶠ a ∈ A, f a := by
      rw [finsum_mem_eq_finite_toFinset_sum _ finite]
      exact Finset.single_le_sum (fun _ _ => Nat.zero_le _) (finite.mem_toFinset.mpr ha)
    omega
  · rfl

section Paths

variable (bounded : ∀ x y, R x y → y < n) (hn : n ≤ unreachable)

include bounded hn

/-- Among at most `unreachable` objects no shortest path is as long as that. -/
theorem le_pathLength_iff (hb : b < n) :
    x ≤ pathLength R b c ↔ x ≤ unreachable ∧ ∀ k, Steps R b k c → x ≤ k := by
  unfold pathLength
  split_ifs with h
  · obtain ⟨k, nearest⟩ := exists_nearest (R := R) (S := {b}) (b := c) (by simpa using h)
    have isLeast : IsLeast {k | Steps R b k c} k := by simpa [Nearest] using nearest
    have short : k < n := by
      refine nearest.lt fun {j d} hd => ?_
      obtain ⟨⟨_, rfl, steps⟩, -⟩ := hd
      cases steps with
      | refl => exact hb
      | tail _ step => exact bounded _ _ step
    rw [isLeast.csInf_eq]
    exact ⟨fun hx => ⟨by omega, fun j hj => hx.trans (isLeast.2 hj)⟩, fun hx => hx.2 k isLeast.1⟩
  · push Not at h
    simp [h]

theorem pathLength_le (hb : b < n) : pathLength R b c ≤ unreachable :=
  ((le_pathLength_iff bounded hn hb).mp le_rfl).1

/-- The minimum of the path lengths between pairs of ends. -/
theorem le_minimum_pathLength_iff {source target : α → Nat} (hA : ∀ a ∈ A, source a < n) :
    x ≤ minimum A (fun a => pathLength R (source a) (target a)) ↔
      x ≤ unreachable ∧ ∀ a ∈ A, ∀ k, Steps R (source a) k (target a) → x ≤ k := by
  rw [le_minimum_iff fun a ha => pathLength_le bounded hn (hA a ha)]
  refine and_congr_right fun hx => forall₂_congr fun a ha => ?_
  rw [le_pathLength_iff bounded hn (hA a ha), and_iff_right hx]

/-- The distance between two sets is the least path length between their members. -/
theorem distance_eq_minimum (hX : ∀ b ∈ X, b < n) :
    distance R X Y =
      minimum {p : Nat × Nat | p.1 ∈ X ∧ p.2 ∈ Y} fun p => pathLength R p.1 p.2 := by
  refine eq_of_forall_le_iff fun x => ?_
  rw [le_minimum_pathLength_iff bounded hn fun p hp => hX p.1 hp.1, le_distance_iff]
  refine and_congr_right fun _ => ⟨?_, ?_⟩
  · exact fun h p hp k steps => h p.1 hp.1 p.2 hp.2 k steps
  · exact fun h b hb c hc k steps => h (b, c) ⟨hb, hc⟩ k steps

theorem distance_singleton_eq_minimum (hb : b < n) :
    distance R {b} Y = minimum Y fun c => pathLength R b c := by
  refine eq_of_forall_le_iff fun x => ?_
  rw [le_minimum_pathLength_iff bounded hn fun _ _ => hb, le_distance_iff]
  simp

end Paths

/-! ## Values and measures -/

theorem Represents.mem_lt {d : ObjectSet} (h : Represents n (c := .concept) d X) :
    ∀ x ∈ X, x < n := fun x hx => h.2.1 x ((h.2.2 x).mpr hx)

theorem Represents.relates_lt {r : ObjectRelation} (h : Represents n (c := .role) r R) :
    ∀ x y, R x y → x < n ∧ y < n := by
  intro x y hxy
  obtain ⟨hx, hy, -⟩ := (h.2.2 x y).mpr hxy
  exact ⟨h.1 ▸ hx, h.1 ▸ hy⟩

/-- **The value of a numerical is its measure**, where there are at most `unreachable` objects. -/
theorem Node.value_eq_measure (hn : n ≤ unreachable) {o : Operator .numerical}
    {ds : Args Meaning o.signature} {as : Args Ideal o.signature} (h : ds.Rel (Represents n) as) :
    Node.value ⟨o, as⟩ = Node.measure ⟨o, as⟩ := by
  classical
  cases o
  case conceptCount =>
    obtain ⟨d, X, rfl, rfl, hd⟩ := h.of_one
    rfl
  case roleCount =>
    obtain ⟨r, R, rfl, rfl, hr⟩ := h.of_one
    rfl
  case conceptDistance =>
    obtain ⟨d, r, e, X, R, Y, rfl, rfl, hd, hr, he⟩ := h.of_three
    change distance R X Y = ite _ _ _
    split_ifs with empty
    · refine capped_eq_unreachable ?_
      rcases empty with rfl | rfl <;> simp
    · exact distance_eq_minimum (fun x y hxy => (hr.relates_lt x y hxy).2) hn hd.mem_lt
  case sumConceptDistance =>
    obtain ⟨d, r, e, X, R, Y, rfl, rfl, hd, hr, he⟩ := h.of_three
    refine if_congr Iff.rfl rfl ?_
    rw [total_eq ((Set.finite_lt_nat n).subset hd.mem_lt)]
    congr 1
    refine finsum_mem_congr rfl fun b hb => ?_
    exact distance_singleton_eq_minimum (fun x y hxy => (hr.relates_lt x y hxy).2) hn
      (hd.mem_lt b hb)
  case roleDistance =>
    obtain ⟨q, r, t, Q, R, T, rfl, rfl, hq, hr, ht⟩ := h.of_three
    change capped _ = ite _ _ _
    split_ifs with empty
    · refine capped_eq_unreachable ?_
      rcases empty with empty | empty <;> simp [empty]
    · refine eq_of_forall_le_iff fun x => ?_
      rw [le_capped_iff, le_minimum_pathLength_iff (fun x y hxy => (hr.relates_lt x y hxy).2) hn
        fun p hp => (hq.relates_lt _ _ hp.1).2]
      refine and_congr_right fun _ => ⟨?_, ?_⟩
      · exact fun h p hp k steps => h k ⟨p.1, p.2.1, p.2.2, hp.1, hp.2, steps⟩
      · rintro h k ⟨a, b, c, hab, hac, steps⟩
        exact h (a, b, c) ⟨hab, hac⟩ k steps
  case sumRoleDistance =>
    obtain ⟨q, r, t, Q, R, T, rfl, rfl, hq, hr, ht⟩ := h.of_three
    refine if_congr Iff.rfl rfl ?_
    have rows : {a | ∃ b, Q a b} ⊆ {a | a < n} := by
      rintro a ⟨b, hab⟩
      exact (hq.relates_lt a b hab).1
    rw [total_eq ((Set.finite_lt_nat n).subset rows)]
    congr 1
    refine finsum_mem_congr rfl fun a _ => ?_
    exact distance_eq_minimum (fun x y hxy => (hr.relates_lt x y hxy).2) hn
      fun b hab => (hq.relates_lt a b hab).2

/-! ## Evaluation -/

/-- **Numericals denote counts and path lengths.** Let a numerical be stored in a reachable factory,
and let a state over the vocabulary have at most `unreachable` objects. The operands evaluate to
representations of sets and relations, and the numerical evaluates to their measure, so that no
shortcut changes it. -/
theorem evaluate_eq_measure {v : Vocabulary} {f : Factory} {h : Handle .numerical} {s : State}
    (hv : v.Built) (hf : Reachable v f) (hs : s.Built v)
    (hn : s.objectCount ≤ unreachable) {e : Entry .numerical} (he : f.get? h = some e) :
    ∃ as : Args Ideal e.node.operator.signature,
      e.node.args.Rel (fun x X => ∃ d, f.evaluate x s = .ok d ∧ Represents s.objectCount d X) as ∧
      f.evaluate h s = .ok (Node.measure ⟨e.node.operator, as⟩) := by
  have problem := hs.valid hv.valid
  have check := checkVocabulary_of_built hf hs hv.valid
  obtain ⟨t, ht, -⟩ := hf.valid.exists_spells he
  have value := evaluate_of_spells hf.valid check ht
  cases ht with
  | @intro _ _ o hs' _ ts stored operands =>
    rw [he] at stored
    cases stored
    have represented : ts.Rel (fun t X => Represents s.objectCount (t.denote s) X)
        (ts.map (Term.ideal s)) :=
      Args.rel_map_right.mpr
        (Args.rel_diagonal (Args.all_of_forall (fun u => represents_term problem u) _))
    refine ⟨ts.map (Term.ideal s), ?_, ?_⟩
    · refine operands.trans represented fun {_ x t X} hx hX => ?_
      exact ⟨_, evaluate_of_spells hf.valid check hx, hX⟩
    · rw [value, Term.denote_eq_value problem]
      exact congrArg _ (Node.value_eq_measure hn (Args.rel_map_left.mpr represented))

/-- How far it is from one end of a pair to the other. -/
theorem evaluate_eq_measure_on :
    let on : Predicate := ⟨"on", 2, false, 0⟩
    let v : Vocabulary := ⟨0, #[on], #[]⟩
    let s : State := ⟨0, ⟨v, #["a", "b"], #[⟨"on(a,b)", 0, [0, 1], false, 0⟩]⟩, [0]⟩
    let r : Term .role := .mk .primitiveRole (.predicate on (.position 0 (.position 1 .nil)))
    let t : Term .numerical := .mk .sumRoleDistance (.element r (.element r (.element r .nil)))
    v.Built ∧ s.Built v ∧ s.objectCount ≤ unreachable ∧
      ∃ f h e, Reachable v f ∧ f.get? h = some e ∧ e.summary.text = t.text ∧
        ∃ as : Args Ideal e.node.operator.signature,
          f.evaluate h s = .ok (Node.measure ⟨e.node.operator, as⟩) := by
  intro on v s r t
  have added : (Vocabulary.empty 0).addPredicate "on" 2 false = .ok (on, v) := by decide
  have atom : (Instance.ofVocabulary v).addAtom "on" ["a", "b"] false =
      .ok (⟨"on(a,b)", 0, [0, 1], false, 0⟩, s.problem) := by decide +kernel
  have state : (State.ofIndices s.problem [0]).run 0 = .ok (s, 1) := by decide
  have hv : v.Built := .addPredicate (.empty 0) added
  have hs : s.Built v := .ofIndices (.addAtom .ofVocabulary atom) state
  have hn : s.objectCount ≤ unreachable := by decide
  have fits : r.Fits v :=
    .mk (by decide) (by decide) (.predicate _ (.position _ (.position _ .nil)))
  obtain ⟨h, f, calls, formed⟩ := exists_formed (t := t)
    (.mk rfl rfl (.element fits (.element fits (.element fits .nil)))) (f := .empty v) .refl
  obtain ⟨hf, -, u, hu, text⟩ := formed.spells
  obtain ⟨e, he⟩ := hu.stored
  have summary : e.summary.text = u.text := congrArg Summary.text (hf.valid.summary_eq he hu)
  have canonical : t.canonText = t.text := by decide +kernel
  obtain ⟨as, -, value⟩ := evaluate_eq_measure hv hf hs hn he
  exact ⟨hv, hs, hn, f, h, e, hf, he, (summary.trans text).trans canonical, as, value⟩

end DescLogic
