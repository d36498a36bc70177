import DescLogic.Proofs.Evaluation.Counts
import DescLogic.Proofs.Evaluation.Success
import DescLogic.Proofs.Factory.Preconditions
import Mathlib.Data.Set.Card
import Mathlib.Data.Set.Finite.Lattice
/-!
# Every denotation is computed once

A look-up is counted before anything is computed, and what was computed is remembered after its
operands were. Since no element is a part of its own operands, nothing is remembered under the key
of an element while the element is computed. So each miss is followed by exactly one new denotation.

* `Factory.parts`: an element and all that it is formed from. Operands are less complex
  (`Operand.depthBound_lt`), so an element is no part of its operands.
* `Caches.Spends`: misses and new denotations in one state, as many of them as elements.
* `EvalM.spends_meaning`: evaluating a stored element spends on its parts only.
* `Session.misses_eq_size`: in a session that forgets nothing there are as many denotations as there
  were misses, and repeating a call that succeeded finds its outcome and adds nothing.
-/

namespace DescLogic

open Procedure

variable {c d : Category} {v : Vocabulary} {f : Factory} {k k' k'' : Caches} {h : Handle c}
  {s : State} {id n : Nat}

/-! ## Parts -/

namespace Factory

/-- The element at `y` is an operand of the one at `x`. -/
def Operand (f : Factory) (x y : AnyHandle) : Prop :=
  ∃ e, f.get? x.2 = some e ∧ y ∈ e.node.operands

/-- The element at `x` and all elements that it is formed from. -/
def parts (f : Factory) (x : AnyHandle) : Set AnyHandle :=
  {y | Relation.ReflTransGen f.Operand x y}

variable {x y : AnyHandle}

/-- Operands are stored, and they are less complex. -/
theorem Operand.depthBound_lt (hf : f.Valid) (h : f.Operand x y) :
    y.2.index < f.count y.1 ∧ EvalM.depthBound f y.2 < EvalM.depthBound f x.2 := by
  obtain ⟨e, he, hy⟩ := h
  obtain ⟨operands, stored, composed⟩ := hf.composed he
  have each : e.node.args.All fun {d} h =>
      h.index < f.count d ∧ EvalM.depthBound f h < EvalM.depthBound f x.2 := by
    have both := stored.imp_of_all_right (S := fun {d} h _ =>
      h.index < f.count d ∧ EvalM.depthBound f h < EvalM.depthBound f x.2) composed.complexity_lt
    refine (both fun {d e' h} lt he' => ⟨index_lt_count he', ?_⟩).all_left fun found => found
    rw [EvalM.depthBound, EvalM.depthBound, he, he']
    exact lt
  exact Args.all_iff_elements (e := fun {d} h => (⟨d, h⟩ : AnyHandle))
    (p := fun y => y.2.index < f.count y.1 ∧ EvalM.depthBound f y.2 < EvalM.depthBound f x.2)
    |>.mp each y hy

/-- An element is no part of its operands. -/
theorem not_transGen_operand (hf : f.Valid) : ¬ Relation.TransGen f.Operand x x := by
  have lt : ∀ {y}, Relation.TransGen f.Operand x y →
      EvalM.depthBound f y.2 < EvalM.depthBound f x.2 := by
    intro y h
    induction h with
    | single h => exact (h.depthBound_lt hf).2
    | tail _ h ih => exact (h.depthBound_lt hf).2.trans ih
  exact fun h => Nat.lt_irrefl _ (lt h)

/-- There are finitely many parts. -/
theorem finite_parts (hf : f.Valid) (hx : x.2.index < f.count x.1) : (f.parts x).Finite := by
  have handles : ∀ c : Category, {y : AnyHandle | y.1 = c ∧ y.2.index < f.count c}.Finite := by
    intro c
    refine ((Set.finite_lt_nat (f.count c)).image fun i => (⟨c, ⟨i⟩⟩ : AnyHandle)).subset ?_
    rintro ⟨c', i⟩ ⟨rfl, lt⟩
    exact ⟨i.index, lt, rfl⟩
  refine (Category.all.finite_toSet.biUnion fun c _ => handles c).subset fun y hy => ?_
  have listed : y.1 ∈ Category.all := by cases y.1 <;> decide
  refine Set.mem_biUnion listed ⟨rfl, ?_⟩
  cases hy.cases_tail with
  | inl same => exact same ▸ hx
  | inr last =>
    obtain ⟨_, -, operand⟩ := last
    exact (operand.depthBound_lt hf).1

end Factory

/-! ## Misses and new denotations -/

namespace Caches

/-- Something is remembered for the element in the state with this identity. -/
def Remembers (k : Caches) (id : Nat) (x : AnyHandle) : Prop :=
  ∃ d, (k.states.get x.1).entries[(x.2, id)]? = some d

/-- The elements for which something is remembered in `k'` but not in `k`. -/
def gained (k k' : Caches) (id : Nat) : Set AnyHandle :=
  {x | k'.Remembers id x ∧ ¬ k.Remembers id x}

/-- All that is remembered in `k` is remembered in `k'`, and there are as many new denotations as
new misses. -/
structure Balances (k k' : Caches) : Prop where
  /-- Denotations in single states stay. -/
  states : ∀ {c : Category} {i : Handle c × Nat} {d : Meaning c},
    (k.states.get c).entries[i]? = some d → (k'.states.get c).entries[i]? = some d
  /-- Denotations in batches stay. -/
  batches : ∀ {c : Category} {i : Handle c × Nat} {ds : List (Meaning c)},
    (k.batches.get c).entries[i]? = some ds → (k'.batches.get c).entries[i]? = some ds
  /-- Batches keep their numbers. -/
  numbers : ∀ {ids : List Nat} {n : Nat},
    k.batchNumbers[ids]? = some n → k'.batchNumbers[ids]? = some n
  /-- Each miss is followed by one new denotation. -/
  balance : k'.misses + k.size = k.misses + k'.size

instance : IsPreorder Caches Balances where
  refl _ := ⟨fun h => h, fun h => h, fun h => h, rfl⟩
  trans k k' k'' h h' :=
    { states := fun found => h'.states (h.states found)
      batches := fun found => h'.batches (h.batches found)
      numbers := fun found => h'.numbers (h.numbers found)
      balance := by
        have := h.balance
        have := h'.balance
        omega }

/-- Evaluations in the state with this identity led from `k` to `k'`. There is one miss for each
element that is new, and these are among `A`. -/
structure Spends (A : Set AnyHandle) (id : Nat) (k k' : Caches) : Prop extends Balances k k' where
  /-- The new elements are among `A`. -/
  gained_subset : k.gained k' id ⊆ A
  /-- There are finitely many of them. -/
  finite_gained : (k.gained k' id).Finite
  /-- Each of them was missed once. -/
  misses_eq : k'.misses = k.misses + (k.gained k' id).ncard

variable {A B : Set AnyHandle}

theorem Spends.mono (h : k.Spends A id k') (sub : A ⊆ B) : k.Spends B id k' :=
  { h with gained_subset := h.gained_subset.trans sub }

theorem Balances.remembers {x : AnyHandle} (h : k.Balances k') (hx : k.Remembers id x) :
    k'.Remembers id x :=
  hx.imp fun _ found => h.states found

/-- What is gained is gained in the one step or in the other. -/
theorem Balances.gained_trans (h : k.Balances k') (h' : k'.Balances k'') :
    k.gained k'' id = k.gained k' id ∪ k'.gained k'' id := by
  ext x
  constructor
  · rintro ⟨new, absent⟩
    by_cases between : k'.Remembers id x
    · exact .inl ⟨between, absent⟩
    · exact .inr ⟨new, between⟩
  · rintro (⟨new, absent⟩ | ⟨new, absent⟩)
    · exact ⟨h'.remembers new, absent⟩
    · exact ⟨new, fun hx => absent (h.remembers hx)⟩

theorem gained_self : k.gained k id = ∅ :=
  Set.eq_empty_of_forall_notMem fun _ h => h.2 h.1

instance : IsPreorder Caches (Spends A id) where
  refl k :=
    { refl_of Balances k with
      gained_subset := gained_self.trans_subset (Set.empty_subset A)
      finite_gained := gained_self ▸ Set.finite_empty
      misses_eq := by rw [gained_self, Set.ncard_empty, Nat.add_zero] }
  trans k k' k'' h h' := by
    have union : k.gained k'' id = k.gained k' id ∪ k'.gained k'' id :=
      h.gained_trans h'.toBalances
    have disjoint : Disjoint (k.gained k' id) (k'.gained k'' id) :=
      Set.disjoint_left.mpr fun _ h h' => h'.2 h.1
    exact
      { trans_of Balances h.toBalances h'.toBalances with
        gained_subset := union.trans_subset (Set.union_subset h.gained_subset h'.gained_subset)
        finite_gained := union ▸ h.finite_gained.union h'.finite_gained
        misses_eq := by
          rw [union, Set.ncard_union_eq disjoint h.finite_gained h'.finite_gained,
            h'.misses_eq, h.misses_eq, Nat.add_assoc] }

theorem remembers_asked {id' : Nat} {x : AnyHandle} :
    (k.asked h id').Remembers id x ↔ k.Remembers id x := by
  unfold Remembers
  rw [entries_asked]

/-- A look-up that finds something spends nothing. -/
theorem spends_asked {x : Meaning c} (found : (k.states.get c).entries[(h, id)]? = some x) :
    k.Spends A id (k.asked h id) := by
  obtain ⟨-, misses, size⟩ := exchanges_asked.hit found
  have nothing : k.gained (k.asked h id) id = ∅ :=
    Set.eq_empty_of_forall_notMem fun _ h => h.2 (remembers_asked.mp h.1)
  exact
    { states := fun found => by rwa [entries_asked]
      batches := fun found => found
      numbers := fun found => found
      balance := by omega
      gained_subset := nothing.trans_subset (Set.empty_subset A)
      finite_gained := nothing ▸ Set.finite_empty
      misses_eq := by rw [nothing, Set.ncard_empty, misses, Nat.add_zero] }

theorem remembers_stored {x : Meaning c} {y : AnyHandle} :
    (k.stored h id x).Remembers id y ↔ y = ⟨c, h⟩ ∨ k.Remembers id y := by
  by_cases same : y = ⟨c, h⟩
  · subst same
    exact iff_of_true ⟨x, getElem?_modify_insert_self⟩ (.inl rfl)
  · have other : (⟨y.1, (y.2, id)⟩ : (c : Category) × (Handle c × Nat)) ≠ ⟨c, (h, id)⟩ := by
      rintro ⟨⟩
      exact same rfl
    unfold Remembers
    rw [stored, getElem?_modify_insert_of_ne other, or_iff_right same]

/-- An element that is missed is computed after others, and is not among them. -/
theorem Spends.stored {x : Meaning c} (absent : (k.states.get c).entries[(h, id)]? = none)
    (apart : (⟨c, h⟩ : AnyHandle) ∉ A) (spent : (k.asked h id).Spends A id k') :
    k.Spends (insert ⟨c, h⟩ A) id (k'.stored h id x) := by
  have new : ¬ k.Remembers id ⟨c, h⟩ := by
    rintro ⟨_, found⟩
    cases absent.symm.trans found
  -- The element was not computed in the meantime.
  have still : ¬ k'.Remembers id ⟨c, h⟩ := fun early =>
    apart (spent.gained_subset ⟨early, fun found => new (remembers_asked.mp found)⟩)
  have gained : k.gained (k'.stored h id x) id = insert ⟨c, h⟩ ((k.asked h id).gained k' id) := by
    ext y
    simp only [Caches.gained, Set.mem_ofPred_eq, Set.mem_insert_iff, remembers_stored,
      remembers_asked]
    constructor
    · rintro ⟨rfl | found, old⟩
      · exact .inl rfl
      · exact .inr ⟨found, old⟩
    · rintro (rfl | ⟨found, old⟩)
      · exact ⟨.inl rfl, new⟩
      · exact ⟨.inr found, old⟩
  have apart' : (⟨c, h⟩ : AnyHandle) ∉ (k.asked h id).gained k' id :=
    fun early => still early.1
  have absent' : (k'.states.get c).entries[(h, id)]? = none := by
    by_contra found
    exact still (Option.ne_none_iff_exists'.mp found)
  obtain ⟨misses, size⟩ := exchanges_asked.miss absent
  have misses' : (k'.stored h id x).misses = k'.misses := exchanges_stored.misses_insert
  have size' : (k'.stored h id x).size = k'.size + 1 := exchanges_stored.size_insert absent'
  exact
    { states := fun found =>
        getElem?_modify_insert_of_some absent' (spent.states (by rwa [entries_asked]))
      batches := spent.batches
      numbers := spent.numbers
      balance := by
        have := spent.balance
        omega
      gained_subset := gained.trans_subset (Set.insert_subset_insert spent.gained_subset)
      finite_gained := gained ▸ spent.finite_gained.insert _
      misses_eq := by
        have := spent.misses_eq
        rw [gained, Set.ncard_insert_of_notMem apart' spent.finite_gained]
        omega }

/-! ## Batches -/

/-- What is known of batches is the same. -/
structure SameBatches (k k' : Caches) : Prop where
  /-- The denotations in batches are the same. -/
  batches : k'.batches = k.batches
  /-- The numbers of the batches are the same. -/
  numbers : k'.batchNumbers = k.batchNumbers

instance : IsPreorder Caches SameBatches where
  refl _ := ⟨rfl, rfl⟩
  trans _ _ _ h h' := ⟨h'.batches.trans h.batches, h'.numbers.trans h.numbers⟩

theorem balances_askedBatch {xs : List (Meaning c)}
    (found : (k.batches.get c).entries[(h, n)]? = some xs) : k.Balances (k.askedBatch h n) := by
  obtain ⟨-, misses, size⟩ := exchanges_askedBatch.hit found
  exact
    { states := fun found => found
      batches := fun found => by rwa [entries_askedBatch]
      numbers := fun found => found
      balance := by omega }

/-- A batch that is missed is computed state by state, and batches are not touched meanwhile. -/
theorem Balances.storedBatch {xs : List (Meaning c)}
    (absent : (k.batches.get c).entries[(h, n)]? = none)
    (same : (k.askedBatch h n).SameBatches k') (balances : (k.askedBatch h n).Balances k') :
    k.Balances (k'.storedBatch h n xs) := by
  have absent' : (k'.batches.get c).entries[(h, n)]? = none := by
    rwa [same.batches, entries_askedBatch]
  obtain ⟨misses, size⟩ := exchanges_askedBatch.miss absent
  have misses' : (k'.storedBatch h n xs).misses = k'.misses := exchanges_storedBatch.misses_insert
  have size' : (k'.storedBatch h n xs).size = k'.size + 1 :=
    exchanges_storedBatch.size_insert absent'
  exact
    { states := balances.states
      batches := fun found =>
        getElem?_modify_insert_of_some absent' (balances.batches (by rwa [entries_askedBatch]))
      numbers := balances.numbers
      balance := by
        have := balances.balance
        omega }

theorem getElem?_of_batchNumber {ids : List Nat} (numbered : k.batchNumber ids = (n, k')) :
    k'.batchNumbers[ids]? = some n := by
  rw [batchNumber] at numbered
  split at numbered <;> cases numbered
  · assumption
  · exact Std.HashMap.getElem?_insert_self

theorem balances_of_batchNumber {ids : List Nat} (numbered : k.batchNumber ids = (n, k')) :
    k.Balances k' := by
  have size : k'.size = k.size := total_of_batchNumber numbered
  have misses : k'.misses = k.misses := total_of_batchNumber numbered
  rw [batchNumber] at numbered
  split at numbered
  case h_1 found =>
    cases numbered
    exact refl_of Balances k
  case h_2 absent =>
    cases numbered
    refine ⟨fun found => found, fun found => found, fun {ids' n} found => ?_, by omega⟩
    have other : ¬ (ids == ids') = true := by
      rw [beq_iff_eq]
      rintro rfl
      cases absent.symm.trans found
    rw [Std.HashMap.getElem?_insert, if_neg other]
    exact found

end Caches

/-! ## One call -/

namespace EvalM

open Caches

/-- What the evaluation of an operand spends on are parts of the element, and not the element. -/
theorem spends_operands {o : Operator c} {hs : Args Handle o.signature} {info : Summary}
    {fuel : Nat} (he : f.get? h = some ⟨⟨o, hs⟩, info⟩)
    (each : hs.All fun {d} x => Moves (Spends (f.parts ⟨d, x⟩) s.id) (meaning f s fuel x)) :
    hs.All fun x => Moves (Spends {y | Relation.TransGen f.Operand ⟨c, h⟩ y} s.id)
      (meaning f s fuel x) := by
  have operands : hs.All fun {d} x => f.Operand ⟨c, h⟩ ⟨d, x⟩ :=
    Args.all_iff_elements (e := fun {d} h => (⟨d, h⟩ : AnyHandle)) (p := f.Operand ⟨c, h⟩)
      |>.mpr fun y hy => ⟨_, he, hy⟩
  refine (each.and operands).imp fun {d x} spent k => (spent.1 k).mono fun y hy => ?_
  exact .head' spent.2 hy

/-- **Evaluating a stored element spends on its parts only.** -/
theorem spends_meaning (hf : f.Valid) {t : Term c} (ht : f.Spells h t) {fuel : Nat}
    (hfuel : t.complexity ≤ fuel) :
    Moves (Spends (f.parts ⟨c, h⟩) s.id) (meaning f s fuel h) := by
  induction t using Term.induction generalizing fuel with
  | @mk c o ts ih =>
    cases fuel with
    | zero =>
      have := Term.one_le_complexity (.mk o ts)
      omega
    | succ fuel =>
      intro k
      cases found : (k.states.get c).entries[(h, s.id)]? with
      | some x =>
        rw [run_meaning_of_some found]
        exact spends_asked found
      | none =>
        cases ht with
        | @intro _ _ _ hs info _ he hts =>
          have rel := hts.imp_of_all_right (S := fun {d} x _ =>
              Succeeds (meaning f s fuel x) ∧
                Moves (Spends (f.parts ⟨d, x⟩) s.id) (meaning f s fuel x))
            (ih.and (Term.complexity_lt ⟨o, ts⟩)) ?_
          · have operands := spends_operands he (rel.all_left And.right)
            have spent := moves_ofNode (s := s) (n := ⟨o, hs⟩) operands (k.asked h s.id)
            obtain ⟨x, k', hrun, -⟩ := succeeds_ofNode (s := s) (n := ⟨o, hs⟩)
              (rel.imp And.left) (k.asked h s.id) trivial
            rw [run_meaning_of_none found he]
            dsimp only
            rw [hrun] at spent ⊢
            refine (spent.stored found (Factory.not_transGen_operand hf)).mono ?_
            rintro y (rfl | part)
            · exact .refl
            · exact part.to_reflTransGen
          · rintro d x t ⟨ih, lt⟩ ht
            have deep : t.complexity ≤ fuel :=
              Nat.le_of_lt_succ (Nat.lt_of_lt_of_le lt hfuel)
            exact ⟨succeeds_meaning ht deep, ih ht deep⟩

theorem spends_evaluate (hf : f.Valid) (stored : h.index < f.count c) :
    Moves (Spends (f.parts ⟨c, h⟩) s.id) (evaluate f h s) := by
  obtain ⟨e, he⟩ := Factory.exists_get?_iff.mpr stored
  obtain ⟨t, ht, -⟩ := hf.exists_spells he
  exact .bind .lift fun _ => spends_meaning hf ht (Nat.le_of_eq (depthBound_eq hf ht).symm)

/-- Evaluations in single states do not touch batches. -/
theorem sameBatches_meaning (f : Factory) (s : State) (fuel : Nat) {c : Category} (h : Handle c) :
    Moves SameBatches (meaning f s fuel h) := by
  induction fuel generalizing c with
  | zero => exact .throw
  | succ fuel ih =>
    refine .bind (fun _ => ⟨rfl, rfl⟩) fun found => ?_
    cases found with
    | some x => exact .pure
    | none =>
      refine .bind .lift fun e => ?_
      refine .bind (moves_ofNode (Args.all_of_forall ih e.node.args)) fun d => ?_
      exact .bind (fun _ => ⟨rfl, rfl⟩) fun _ => .pure

theorem balances_evaluateBatch (hf : f.Valid) (stored : h.index < f.count c) (l : List State) :
    Moves Balances (evaluateBatch f h l) := by
  intro k
  cases checked : l.forM (checkVocabulary f) with
  | error e =>
    rw [run_evaluateBatch_of_error checked]
    exact refl_of Balances k
  | ok _ =>
    rcases numbered : k.batchNumber (l.map State.id) with ⟨n, k'⟩
    refine trans_of Balances (balances_of_batchNumber numbered) ?_
    cases found : (k'.batches.get c).entries[(h, n)]? with
    | some xs =>
      rw [run_evaluateBatch_of_some checked numbered found]
      exact balances_askedBatch found
    | none =>
      obtain ⟨e, he⟩ := Factory.exists_get?_iff.mpr stored
      obtain ⟨t, ht, -⟩ := hf.exists_spells he
      have deep : t.complexity ≤ depthBound f h := Nat.le_of_eq (depthBound_eq hf ht).symm
      have each : Moves Balances (l.mapM fun s => meaning f s (depthBound f h) h) :=
        .mapM fun s k => (spends_meaning hf ht deep k).toBalances
      have same : Moves SameBatches (l.mapM fun s => meaning f s (depthBound f h) h) :=
        .mapM fun s => sameBatches_meaning f s _ h
      obtain ⟨xs, k'', hrun, -⟩ := Ensures.mapM (l := l) (P := fun _ => True)
        (fun s _ => succeeds_meaning (s := s) ht deep) (k'.askedBatch h n) trivial
      specialize each (k'.askedBatch h n)
      specialize same (k'.askedBatch h n)
      rw [hrun] at each same
      rw [run_evaluateBatch_of_none checked numbered found, hrun]
      exact each.storedBatch found same

/-! ## The same call again -/

theorem depthBound_pos (hf : f.Valid) (h : Handle c) : 0 < depthBound f h := by
  cases he : f.get? h with
  | none =>
    rw [depthBound, he]
    exact Nat.one_pos
  | some e =>
    obtain ⟨t, ht, -⟩ := hf.exists_spells he
    rw [depthBound_eq hf ht]
    exact Term.one_le_complexity t

/-- What an evaluation gives is remembered. -/
theorem remembered_of_evaluate {x : Meaning c} (hrun : (evaluate f h s).run k = (.ok x, k')) :
    checkVocabulary f s = .ok () ∧ (k'.states.get c).entries[(h, s.id)]? = some x := by
  obtain ⟨_, checked, hrun⟩ := run_lift_bind_eq_ok hrun
  refine ⟨checked, ?_⟩
  cases bound : depthBound f h with
  | zero =>
    rw [bound] at hrun
    cases hrun
  | succ fuel =>
    rw [bound] at hrun
    cases found : (k.states.get c).entries[(h, s.id)]? with
    | some y =>
      rw [run_meaning_of_some found] at hrun
      cases hrun
      rw [entries_asked, found]
    | none =>
      cases he : f.get? h with
      | none =>
        rw [run_meaning_of_foreign found he] at hrun
        cases hrun
      | some e =>
        rw [run_meaning_of_none found he] at hrun
        rcases computed : (ofNode s (meaning f s fuel) e.node).run (k.asked h s.id) with
          ⟨_ | y, k₁⟩ <;> rw [computed] at hrun <;> cases hrun
        exact getElem?_modify_insert_self

/-- What is remembered is found. -/
theorem run_evaluate_of_some (hf : f.Valid) (checked : checkVocabulary f s = .ok ()) {x : Meaning c}
    (found : (k.states.get c).entries[(h, s.id)]? = some x) :
    (evaluate f h s).run k = (.ok x, k.asked h s.id) := by
  obtain ⟨fuel, bound⟩ := Nat.exists_eq_add_one.mpr (depthBound_pos hf h)
  rw [evaluate, run_lift_bind_ok checked, bound, run_meaning_of_some found]

/-- What the evaluation of a batch gives is remembered. -/
theorem remembered_of_evaluateBatch {l : List State} {xs : List (Meaning c)}
    (hrun : (evaluateBatch f h l).run k = (.ok xs, k')) :
    l.forM (checkVocabulary f) = .ok ⟨⟩ ∧ ∃ n, k'.batchNumbers[l.map State.id]? = some n ∧
      (k'.batches.get c).entries[(h, n)]? = some xs := by
  cases checked : l.forM (checkVocabulary f) with
  | error e =>
    rw [run_evaluateBatch_of_error checked] at hrun
    cases hrun
  | ok _ =>
    refine ⟨rfl, ?_⟩
    rcases numbered : k.batchNumber (l.map State.id) with ⟨n, k₁⟩
    have number := getElem?_of_batchNumber numbered
    cases found : (k₁.batches.get c).entries[(h, n)]? with
    | some ys =>
      rw [run_evaluateBatch_of_some checked numbered found] at hrun
      cases hrun
      exact ⟨n, number, by rw [entries_askedBatch, found]⟩
    | none =>
      have same : Moves SameBatches (l.mapM fun s => meaning f s (depthBound f h) h) :=
        .mapM fun s => sameBatches_meaning f s _ h
      specialize same (k₁.askedBatch h n)
      rw [run_evaluateBatch_of_none checked numbered found] at hrun
      rcases computed :
          (l.mapM fun s => meaning f s (depthBound f h) h).run (k₁.askedBatch h n) with
        ⟨_ | ys, k₂⟩ <;> rw [computed] at hrun same <;> cases hrun
      refine ⟨n, ?_, getElem?_modify_insert_self⟩
      show k₂.batchNumbers[l.map State.id]? = some n
      rw [same.numbers]
      exact number

/-- What is remembered of a batch is found. -/
theorem run_evaluateBatch_of_remembered {l : List State}
    (checked : l.forM (checkVocabulary f) = .ok ⟨⟩) {xs : List (Meaning c)}
    (number : k.batchNumbers[l.map State.id]? = some n)
    (found : (k.batches.get c).entries[(h, n)]? = some xs) :
    (evaluateBatch f h l).run k = (.ok xs, k.askedBatch h n) := by
  have numbered : k.batchNumber (l.map State.id) = (n, k) := by
    rw [batchNumber, number]
  exact run_evaluateBatch_of_some checked numbered found

end EvalM

/-! ## Sessions -/

namespace Caches

/-- In `k'` one look-up more than in `k` found something, and nothing else happened. -/
structure Hit (k k' : Caches) : Prop where
  /-- There is one hit more. -/
  hits : k'.hits = k.hits + 1
  /-- There is no miss more. -/
  misses : k'.misses = k.misses
  /-- There is no denotation more. -/
  size : k'.size = k.size

end Caches

namespace Session

open Caches

variable {x y : Session}

/-- What a call leaves of a session if it evaluates a stored element or may store elements. Nothing
is forgotten. -/
inductive Ask (x : Session) : Session → Prop where
  /-- The evaluation of a stored element in a state. -/
  | evaluate {c : Category} {h : Handle c} (s : State) : h.index < x.factory.count c →
      Ask x ⟨x.factory, ((EvalM.evaluate x.factory h s).run x.caches).2⟩
  /-- The evaluation of a stored element in a batch. -/
  | evaluateBatch {c : Category} {h : Handle c} (l : List State) : h.index < x.factory.count c →
      Ask x ⟨x.factory, ((EvalM.evaluateBatch x.factory h l).run x.caches).2⟩
  /-- A call that may store elements. -/
  | call {g : Factory} : x.factory.Call g → Ask x ⟨g, x.caches⟩

/-- What a list of such calls leaves of a session. -/
def Asks (x y : Session) : Prop := Relation.ReflTransGen Ask x y

theorem Ask.balances (ask : x.Ask y) (hx : x.factory.Valid) :
    x.factory.Grows y.factory ∧ x.caches.Balances y.caches := by
  cases ask with
  | evaluate s stored => exact ⟨.refl _, (EvalM.spends_evaluate hx stored x.caches).toBalances⟩
  | evaluateBatch l stored => exact ⟨.refl _, EvalM.balances_evaluateBatch hx stored l x.caches⟩
  | call hg => exact ⟨hg.grows, refl_of Balances x.caches⟩

theorem Asks.balances (asks : x.Asks y) (hx : x.factory.Valid) :
    x.factory.Grows y.factory ∧ x.caches.Balances y.caches := by
  induction asks with
  | refl => exact ⟨.refl _, refl_of Balances x.caches⟩
  | tail _ ask ih =>
    obtain ⟨grows, balances⟩ := ih
    obtain ⟨grows', balances'⟩ := ask.balances (grows.valid hx)
    exact ⟨grows.trans grows', trans_of Balances balances balances'⟩

/-- Whatever is called, there are no more new denotations than new misses. -/
theorem Run.paid {S : State → Prop} (run : x.Run S y) : x.caches.Paid y.caches := by
  induction run with
  | refl => exact refl_of Paid x.caches
  | tail _ step ih =>
    refine trans_of Paid ih ?_
    cases step with
    | evaluate h hs => exact EvalM.paid_evaluate _ h _ _
    | evaluateBatch h hl => exact EvalM.paid_evaluateBatch _ h _ _
    | clear => exact paid_clear
    | call hg => exact refl_of Paid _

/-- A call that succeeded is a hit at any later time, if nothing was forgotten. -/
theorem Asks.hit_evaluate (hx : x.factory.Valid) {s : State} {m : Meaning c} {k : Caches}
    (hrun : (EvalM.evaluate x.factory h s).run x.caches = (.ok m, k))
    (asks : Asks ⟨x.factory, k⟩ y) :
    ∃ k', (EvalM.evaluate y.factory h s).run y.caches = (.ok m, k') ∧ y.caches.Hit k' := by
  obtain ⟨grows, balances⟩ := asks.balances hx
  obtain ⟨checked, found⟩ := EvalM.remembered_of_evaluate hrun
  have found' := balances.states found
  have checked' : EvalM.checkVocabulary y.factory s = .ok () := by
    rw [EvalM.checkVocabulary, grows.extends.vocabulary]
    exact checked
  obtain ⟨hits, misses, size⟩ := exchanges_asked.hit found'
  exact ⟨_, EvalM.run_evaluate_of_some (grows.valid hx) checked' found', hits, misses, size⟩

theorem Asks.hit_evaluateBatch (hx : x.factory.Valid) {l : List State} {ms : List (Meaning c)}
    {k : Caches} (hrun : (EvalM.evaluateBatch x.factory h l).run x.caches = (.ok ms, k))
    (asks : Asks ⟨x.factory, k⟩ y) :
    ∃ k', (EvalM.evaluateBatch y.factory h l).run y.caches = (.ok ms, k') ∧ y.caches.Hit k' := by
  obtain ⟨grows, balances⟩ := asks.balances hx
  obtain ⟨checked, n, number, found⟩ := EvalM.remembered_of_evaluateBatch hrun
  have found' := balances.batches found
  have checked' : l.forM (EvalM.checkVocabulary y.factory) = .ok ⟨⟩ := by
    have same : EvalM.checkVocabulary y.factory = EvalM.checkVocabulary x.factory := by
      funext s
      rw [EvalM.checkVocabulary, EvalM.checkVocabulary, grows.extends.vocabulary]
    rw [same]
    exact checked
  obtain ⟨hits, misses, size⟩ := exchanges_askedBatch.hit found'
  have again := EvalM.run_evaluateBatch_of_remembered checked' (balances.numbers number) found'
  exact ⟨_, again, hits, misses, size⟩

/-- **Every denotation is computed once.** In a session that starts without denotations, evaluates
stored elements and forgets nothing, there are at any time as many denotations as there were misses.
An evaluation in one state misses each part of its element once at most, and a call that succeeded,
if it is repeated at any later time, finds its outcome with one look-up and does nothing else. In
any session, with calls that fail and with forgetting, there are no more denotations than there were
misses, and forgetting keeps the counts. -/
theorem misses_eq_size (hf : Factory.Reachable v f) (asks : Asks ⟨f, ∅⟩ x) :
    x.caches.misses = x.caches.size ∧
    (∀ {c : Category} {h : Handle c} (s : State), h.index < x.factory.count c →
      ((EvalM.evaluate x.factory h s).run x.caches).2.misses ≤
        x.caches.misses + (x.factory.parts ⟨c, h⟩).ncard) ∧
    (∀ {c : Category} {h : Handle c} {s : State} {m : Meaning c} {k : Caches} {y : Session},
      (EvalM.evaluate x.factory h s).run x.caches = (.ok m, k) → Asks ⟨x.factory, k⟩ y →
        ∃ k', (EvalM.evaluate y.factory h s).run y.caches = (.ok m, k') ∧ y.caches.Hit k') ∧
    (∀ {c : Category} {h : Handle c} {l : List State} {ms : List (Meaning c)} {k : Caches}
      {y : Session},
      (EvalM.evaluateBatch x.factory h l).run x.caches = (.ok ms, k) → Asks ⟨x.factory, k⟩ y →
        ∃ k', (EvalM.evaluateBatch y.factory h l).run y.caches = (.ok ms, k') ∧
          y.caches.Hit k') ∧
    (∀ {y : Session}, Run (fun _ => True) ⟨f, ∅⟩ y → y.caches.size ≤ y.caches.misses) ∧
    ∀ k : Caches, k.clear.hits = k.hits ∧ k.clear.misses = k.misses := by
  obtain ⟨grows, balances⟩ := asks.balances hf.valid
  have valid := grows.valid hf.valid
  refine ⟨?_, ?_, Asks.hit_evaluate valid, Asks.hit_evaluateBatch valid, ?_, ?_⟩
  · have balance : x.caches.misses + 0 = 0 + x.caches.size := balances.balance
    omega
  · intro c h s stored
    have spent := EvalM.spends_evaluate (s := s) valid stored x.caches
    have le := Set.ncard_le_ncard spent.gained_subset (Factory.finite_parts valid stored)
    have := spent.misses_eq
    omega
  · intro y run
    have paid : y.caches.size + 0 ≤ 0 + y.caches.misses := run.paid
    omega
  · exact fun k => ⟨total_clear fun _ => rfl, total_clear fun _ => rfl⟩

/-- A role that is evaluated in one state and in a batch with another, and then both once more. -/
theorem misses_eq_size_twice :
    let p : Predicate := ⟨"p", 2, false, 0⟩
    let n : Node Handle .role := ⟨.primitiveRole, .predicate p (.position 0 (.position 1 .nil))⟩
    let f := ((BuildM.make n).run (Factory.empty twoPaths.vocabulary)).2
    let h : Handle .role := ⟨0⟩
    let batch := [onePath, twoPaths]
    ∃ m k ms k', (EvalM.evaluate f h twoPaths).run ∅ = (.ok m, k) ∧
      (EvalM.evaluateBatch f h batch).run k = (.ok ms, k') ∧ k'.misses = k'.size ∧
      (∃ l, (EvalM.evaluate f h twoPaths).run k' = (.ok m, l) ∧ k'.Hit l) ∧
      ∃ l, (EvalM.evaluateBatch f h batch).run k' = (.ok ms, l) ∧ k'.Hit l := by
  intro p n f h batch
  have hf : Factory.Reachable twoPaths.vocabulary f := .single (.make n)
  have he : f.get? h = some _ := Factory.get?_make_empty rfl
  have stored : h.index < f.count .role := Factory.index_lt_count he
  obtain ⟨t, ht, -⟩ := hf.valid.exists_spells he
  have checked : ∀ s ∈ batch, EvalM.checkVocabulary f s = .ok ⟨⟩ := by
    intro s hs
    have own : s.vocabulary.id = twoPaths.vocabulary.id := by
      rcases List.mem_pair.mp hs with rfl | rfl <;> rfl
    rw [EvalM.checkVocabulary, hf.vocabulary, own, if_pos rfl]
  have two : twoPaths ∈ batch := by simp [batch]
  have single : Succeeds (EvalM.evaluate f h twoPaths) :=
    .bind (.lift (checked _ two) fun _ hk => hk) fun _ =>
      EvalM.succeeds_meaning ht (Nat.le_of_eq (EvalM.depthBound_eq hf.valid ht).symm)
  have all : Succeeds (EvalM.evaluateBatch f h batch) :=
    EvalM.succeeds_evaluateBatch hf.valid ht (forM_eq_ok_iff.mpr checked)
  obtain ⟨m, k, run, -⟩ := single ∅ trivial
  obtain ⟨ms, k', run', -⟩ := all k trivial
  have first : Ask ⟨f, ∅⟩ ⟨f, ((EvalM.evaluate f h twoPaths).run ∅).2⟩ := .evaluate _ stored
  have second : Ask ⟨f, k⟩ ⟨f, ((EvalM.evaluateBatch f h batch).run k).2⟩ :=
    .evaluateBatch _ stored
  rw [run] at first
  rw [run'] at second
  have asks : Asks ⟨f, ∅⟩ ⟨f, k⟩ := .single first
  have asks' : Asks ⟨f, k⟩ ⟨f, k'⟩ := .single second
  obtain ⟨-, -, again, -⟩ := misses_eq_size hf (x := ⟨f, ∅⟩) .refl
  obtain ⟨-, -, -, againBatch, -⟩ := misses_eq_size hf asks
  obtain ⟨balanced, -⟩ := misses_eq_size hf (asks.tail second)
  have hit := again run asks'
  have hit' := againBatch run' .refl
  exact ⟨m, k, ms, k', run, run', balanced, hit, hit'⟩

end Session

end DescLogic
