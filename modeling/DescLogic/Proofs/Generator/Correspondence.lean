import DescLogic.Proofs.Generator.Candidates
import Mathlib.Data.List.Forall2
/-!
# Rules over pools that match

Two pools match along a relation between handles if they list related handles, level by level and in
the same order. A rule then proposes related nodes over them, also in the same order: it looks at
where an operand stands, and whether two operands are the same, but never at the handle itself.

* `Buckets.flatMap_occupied`: levels without elements may be listed too.
* `forall₂_pairs`, `forall₂_commutativePairs`, `forall₂_triples`: the choices of operands match.
* `Rule.forall₂_candidates`: what a rule proposes matches.
-/

namespace DescLogic.Generator

variable {α β γ δ α' β' γ' δ' : Type}

/-! ## Lists member by member -/

theorem forall₂_trans {R : α → β → Prop} {S : β → γ → Prop} {T : α → γ → Prop} {l : List α}
    {m : List β} {k : List γ} (h : List.Forall₂ R l m) (h' : List.Forall₂ S m k)
    (imp : ∀ {a b c}, R a b → S b c → T a c) : List.Forall₂ T l k := by
  induction h generalizing k with
  | nil =>
    cases h'
    exact .nil
  | cons ha _ ih =>
    cases h' with
    | cons hb h' => exact .cons (imp ha hb) (ih h')

theorem exists_forall₂ {R : α → β → Prop} {l : List α} (h : ∀ a ∈ l, ∃ b, R a b) :
    ∃ m, List.Forall₂ R l m := by
  induction l with
  | nil => exact ⟨[], .nil⟩
  | cons a l ih =>
    obtain ⟨b, hb⟩ := h a (List.mem_cons_self ..)
    obtain ⟨m, hm⟩ := ih fun a ha => h a (List.mem_cons_of_mem _ ha)
    exact ⟨b :: m, .cons hb hm⟩

/-! ## Choices of operands -/

/-- The buckets list related elements, level by level. -/
def Buckets.Matches (R : α → α' → Prop) (b : Buckets α) (b' : Buckets α') : Prop :=
  ∀ n, List.Forall₂ R (b.level n) (b'.level n)

/-- The members of the pairs are related. -/
def Both (R : α → α' → Prop) (S : β → β' → Prop) (x : α × β) (x' : α' × β') : Prop :=
  R x.1 x'.1 ∧ S x.2 x'.2

/-- Different elements on one side are related to different elements on the other. -/
def Distinguishes (R : α → α' → Prop) : Prop :=
  ∀ {x y : α} {x' y' : α'}, R x x' → R y y' → (x = y ↔ x' = y')

variable {R : α → α' → Prop} {S : β → β' → Prop} {T : γ → γ' → Prop} {P : δ → δ' → Prop} {n : Nat}

/-- Levels without elements contribute nothing. -/
theorem Buckets.flatMap_occupied {b : Buckets α} {f : Nat → List δ} (p : Nat → Bool)
    (empty : ∀ i, b.level i = [] → f i = []) :
    ((b.occupied n).filter p).flatMap f = ((List.range' 1 (n - 1)).filter p).flatMap f := by
  unfold occupied
  rw [List.filter_filter]
  generalize List.range' 1 (n - 1) = l
  induction l with
  | nil => rfl
  | cons i l ih =>
    by_cases held : b.levels.contains i = true
    · by_cases hp : p i <;> simp [held, hp, ih]
    · have vacant := empty i (level_eq_nil (by simpa using held))
      by_cases hp : p i <;> simp [held, hp, ih, vacant]

/-- Which levels are occupied does not matter if what is read off them matches. -/
theorem Buckets.forall₂_flatMap_occupied (b : Buckets α) (b' : Buckets α') (p : Nat → Bool)
    {f : Nat → List δ} {f' : Nat → List δ'} (empty : ∀ i, b.level i = [] → f i = [])
    (empty' : ∀ i, b'.level i = [] → f' i = []) (h : ∀ i, List.Forall₂ P (f i) (f' i)) :
    List.Forall₂ P (((b.occupied n).filter p).flatMap f)
      (((b'.occupied n).filter p).flatMap f') := by
  rw [flatMap_occupied p empty, flatMap_occupied p empty']
  refine List.rel_flatMap (List.forall₂_same.mpr fun i _ => rfl) ?_
  rintro i _ rfl
  exact h i

/-- All pairs with a first member from one list and a second from the other. -/
theorem forall₂_product {l : List α} {l' : List α'} {m : List β} {m' : List β'}
    (hl : List.Forall₂ R l l') (hm : List.Forall₂ S m m') :
    List.Forall₂ (Both R S) (l.flatMap fun a => m.map fun b => (a, b))
      (l'.flatMap fun a => m'.map fun b => (a, b)) :=
  List.rel_flatMap hl fun _ _ ha => List.rel_map (fun _ _ hb => ⟨ha, hb⟩) hm

theorem forall₂_pairs {left : Buckets α} {left' : Buckets α'} {right : Buckets β}
    {right' : Buckets β'} (hl : left.Matches R left') (hr : right.Matches S right') :
    List.Forall₂ (Both R S) (pairs left right n).toList (pairs left' right' n).toList := by
  have all := Buckets.forall₂_flatMap_occupied left left' (fun _ => true) (n := n) (P := Both R S)
    (fun i vacant => by simp [vacant]) (fun i vacant => by simp [vacant])
    fun i => forall₂_product (hl i) (hr (n - i))
  simpa [pairs] using all

theorem forall₂_distinctPairs [DecidableEq α] [DecidableEq α'] {b : Buckets α} {b' : Buckets α'}
    (distinguishes : Distinguishes R) (hb : b.Matches R b') :
    List.Forall₂ (Both R R) (distinctPairs b n).toList (distinctPairs b' n).toList := by
  unfold distinctPairs
  rw [LazyList.toList_filter, LazyList.toList_filter]
  refine List.rel_filter (fun x x' hx => ?_) (forall₂_pairs hb hb)
  simpa using not_congr (distinguishes hx.1 hx.2)

theorem forall₂_laterPairs {l : List α} {l' : List α'} (h : List.Forall₂ R l l') :
    List.Forall₂ (Both R R) (laterPairs l).toList (laterPairs l').toList := by
  induction h with
  | nil => exact .nil
  | cons ha hl ih =>
    simp only [laterPairs, LazyList.toList_append, LazyList.toList_map, LazyList.toList_ofList]
    exact List.rel_append (List.rel_map (fun _ _ hb => ⟨ha, hb⟩) hl) ih

theorem forall₂_commutativePairs {b : Buckets α} {b' : Buckets α'} (hb : b.Matches R b') :
    List.Forall₂ (Both R R) (commutativePairs b n).toList (commutativePairs b' n).toList := by
  unfold commutativePairs
  simp only [LazyList.toList_flatMap, LazyList.toList_ofList]
  refine Buckets.forall₂_flatMap_occupied b b' _ ?_ ?_ fun i => ?_
  · intro i vacant
    simp [vacant, laterPairs, apply_ite LazyList.toList]
  · intro i vacant
    simp [vacant, laterPairs, apply_ite LazyList.toList]
  · by_cases h : i = n - i
    · rw [if_pos h, if_pos h]
      exact forall₂_laterPairs (hb i)
    · simp only [if_neg h, LazyList.toList_flatMap, LazyList.toList_ofList, LazyList.toList_map]
      exact forall₂_product (hb i) (hb (n - i))

/-- All triples with members from three lists. -/
theorem forall₂_product₃ {l : List α} {l' : List α'} {m : List β} {m' : List β'} {k : List γ}
    {k' : List γ'} (hl : List.Forall₂ R l l') (hm : List.Forall₂ S m m')
    (hk : List.Forall₂ T k k') :
    List.Forall₂ (Both R (Both S T))
      (l.flatMap fun a => m.flatMap fun b => k.map fun c => (a, b, c))
      (l'.flatMap fun a => m'.flatMap fun b => k'.map fun c => (a, b, c)) := by
  refine List.rel_flatMap hl fun a a' ha => List.rel_flatMap hm fun b b' hb => ?_
  exact List.rel_map (fun c c' hc => ⟨ha, hb, hc⟩) hk

theorem forall₂_triples {first : Buckets α} {first' : Buckets α'} {second : Buckets β}
    {second' : Buckets β'} {third : Buckets γ} {third' : Buckets γ'} (h₁ : first.Matches R first')
    (h₂ : second.Matches S second') (h₃ : third.Matches T third') :
    List.Forall₂ (Both R (Both S T)) (triples first second third n).toList
      (triples first' second' third' n).toList := by
  have inner (i : Nat) :=
    Buckets.forall₂_flatMap_occupied second second' (fun j => j < n - i) (n := n)
      (P := Both R (Both S T)) (fun j vacant => by simp [vacant]) (fun j vacant => by simp [vacant])
      fun j => forall₂_product₃ (h₁ i) (h₂ j) (h₃ (n - i - j))
  have all := Buckets.forall₂_flatMap_occupied first first' (fun _ => true) (n := n)
    (P := Both R (Both S T)) (fun i vacant => by simp [vacant]) (fun i vacant => by simp [vacant])
    inner
  simpa [triples] using all

/-! ## Nodes -/

/-- The nodes are of one operator, and their operands are related. -/
inductive AnyNode.Rel (R : {c : Category} → Handle c → Handle c → Prop) :
    AnyNode → AnyNode → Prop where
  | intro {c : Category} {n m : Node Handle c} : n.Rel R m → AnyNode.Rel R ⟨c, n⟩ ⟨c, m⟩

/-- The pools list related handles, level by level. -/
def Pool.Matches (R : {c : Category} → Handle c → Handle c → Prop) (pool pool' : Pool) : Prop :=
  ∀ c, (pool.get c).Matches R (pool'.get c)

section Nodes

variable {R : {c : Category} → Handle c → Handle c → Prop} {c d e : Category} {o : Operator c}

theorem AnyNode.rel_of {ps : List Parameter} {as bs : Args Handle ps} (h : o.signature = ps)
    (hab : as.Rel R bs) : AnyNode.Rel R (.of o (h ▸ as)) (.of o (h ▸ bs)) := by
  subst h
  exact .intro (.intro hab)

theorem forall₂_unary {xs xs' : List (Handle d)} (h : o.signature = [.element d])
    (hxs : List.Forall₂ R xs xs') :
    List.Forall₂ (AnyNode.Rel R) (unary o h xs).toList (unary o h xs').toList := by
  unfold unary
  rw [LazyList.toList_map, LazyList.toList_map, LazyList.toList_ofList, LazyList.toList_ofList]
  exact List.rel_map (fun _ _ hx => AnyNode.rel_of h (.element hx .nil)) hxs

theorem forall₂_binary {xs xs' : LazyList (Handle d × Handle e)}
    (h : o.signature = [.element d, .element e])
    (hxs : List.Forall₂ (Both R R) xs.toList xs'.toList) :
    List.Forall₂ (AnyNode.Rel R) (binary o h xs).toList (binary o h xs').toList := by
  unfold binary
  rw [LazyList.toList_map, LazyList.toList_map]
  exact List.rel_map (fun _ _ hx => AnyNode.rel_of h (.element hx.1 (.element hx.2 .nil))) hxs

theorem forall₂_distances {xs xs' : LazyList (Handle d × Handle e × Handle d)}
    (h : o.signature = [.element d, .element e, .element d])
    (distinguishes : Distinguishes (R (c := d)))
    (hxs : List.Forall₂ (Both R (Both R R)) xs.toList xs'.toList) :
    List.Forall₂ (AnyNode.Rel R) (distances o h xs).toList (distances o h xs').toList := by
  unfold distances
  simp only [LazyList.toList_map, LazyList.toList_filter]
  refine List.rel_map ?_ (List.rel_filter (fun x x' hx => ?_) hxs)
  · exact fun _ _ hx => AnyNode.rel_of h (.element hx.1 (.element hx.2.1 (.element hx.2.2 .nil)))
  · simpa using not_congr (distinguishes hx.1 hx.2.2)

/-- Arguments without elements are related to themselves. -/
theorem Pool.Holds.rel_self {pool : Pool} {ps : List Parameter} {as : Args Handle ps}
    (tidy : pool.Tidy) (held : Pool.Holds pool as 0) : as.Rel R as := by
  induction as with
  | nil => exact .nil
  | predicate p _ ih => exact .predicate p (ih held)
  | constant k _ ih => exact .constant k (ih held)
  | position i _ ih => exact .position i (ih held)
  | element x _ _ => exact absurd (one_le_of_holds_element tidy held) (by omega)

end Nodes

end DescLogic.Generator

namespace DescLogic.Rule

open Generator

variable {R : {c : Category} → Handle c → Handle c → Prop} {v : Vocabulary} {pool pool' : Pool}
  {n : Nat}

/-- What a seed rule proposes has no operands. -/
theorem forall₂_seeds (rule : Rule) (hv : v.Valid) :
    List.Forall₂ (AnyNode.Rel R) (rule.seeds v).toList (rule.seeds v).toList := by
  refine List.forall₂_same.mpr fun y hy => ?_
  have tidy : Pool.Tidy (.ofFn fun _ => .empty) := fun c => by simpa using Buckets.tidy_empty
  obtain ⟨-, held, -⟩ := of_mem_seeds hv hy
  obtain ⟨c, o, as⟩ := y
  exact .intro (.intro (held.rel_self tidy))

/-- What a rule proposes over pools that match is related, one node after the other. -/
theorem forall₂_composites (rule : Rule) (distinguishes : ∀ c, Distinguishes (R (c := c)))
    (h : pool.Matches R pool') :
    List.Forall₂ (AnyNode.Rel R) (rule.composites pool n).toList
      (rule.composites pool' n).toList := by
  have concepts : pool.concepts.Matches R pool'.concepts := h .concept
  have roles : pool.roles.Matches R pool'.roles := h .role
  cases rule with
  | primitiveConcept | botConcept | topConcept | oneOfConcept | primitiveRole | topRole
  | nullaryBoolean => exact .nil
  | notConcept | identityRole => exact forall₂_unary rfl (concepts n)
  | notRole | inverseRole | transitiveClosureRole | transitiveReflexiveClosureRole =>
    exact forall₂_unary rfl (roles n)
  | andConcept | orConcept => exact forall₂_binary rfl (forall₂_commutativePairs concepts)
  | equalConcept | andRole | orRole => exact forall₂_binary rfl (forall₂_commutativePairs roles)
  | diffConcept => exact forall₂_binary rfl (forall₂_distinctPairs (distinguishes _) concepts)
  | subsetConcept | diffRole | composeRole =>
    exact forall₂_binary rfl (forall₂_distinctPairs (distinguishes _) roles)
  | someConcept | allConcept | restrictRole =>
    exact forall₂_binary rfl (forall₂_pairs roles concepts)
  | projectionConcept =>
    simp only [composites, LazyList.toList_flatMap, LazyList.toList_ofList]
    refine List.rel_flatMap (roles n) fun r r' hr => ?_
    have projection (i : Nat) : AnyNode.Rel R (.of .projection (.element r (.position i .nil)))
        (.of .projection (.element r' (.position i .nil))) :=
      AnyNode.rel_of rfl (.element hr (.position i .nil))
    exact .cons (projection 0) (.cons (projection 1) .nil)
  | countNumerical | emptyBoolean =>
    simp only [composites, LazyList.toList_append]
    exact List.rel_append (forall₂_unary rfl (concepts n)) (forall₂_unary rfl (roles n))
  | inclusionBoolean =>
    simp only [composites, LazyList.toList_append]
    exact List.rel_append
      (forall₂_binary rfl (forall₂_distinctPairs (distinguishes _) concepts))
      (forall₂_binary rfl (forall₂_distinctPairs (distinguishes _) roles))
  | conceptDistanceNumerical | sumConceptDistanceNumerical =>
    exact forall₂_distances rfl (distinguishes _) (forall₂_triples concepts roles concepts)
  | roleDistanceNumerical | sumRoleDistanceNumerical =>
    exact forall₂_distances rfl (distinguishes _) (forall₂_triples roles roles roles)

/-- **A rule proposes related nodes over pools that match**, in the same order. -/
theorem forall₂_candidates (rule : Rule) (hv : v.Valid)
    (distinguishes : ∀ c, Distinguishes (R (c := c))) (h : pool.Matches R pool') :
    List.Forall₂ (AnyNode.Rel R) (rule.candidates v pool n).toList
      (rule.candidates v pool' n).toList := by
  cases n with
  | zero => exact rule.forall₂_seeds hv
  | succ n => exact rule.forall₂_composites distinguishes h

end DescLogic.Rule
