import DescLogic.Proofs.Evaluation.Caching
/-!
# What look-ups and insertions do to the counts

A look-up adds one to the hits or one to the misses, and changes nothing that is remembered. An
insertion adds one denotation at most, and exactly one if there was none with the key.

* `Caches.Exchanges`: what is counted if one memo takes the place of another. It gives the counts
  after a look-up (`Exchanges.hit`, `Exchanges.miss`) and after an insertion
  (`Exchanges.size_insert`), in single states and in batches alike.
* `EvalM.moves_ofNode`: the evaluation of a node leads where those of its operands lead.
* `EvalM.paid_evaluate`, `EvalM.paid_evaluateBatch`: no evaluation, whether it succeeds or not,
  leaves more new denotations than it had misses.
-/

namespace DescLogic

open Procedure

variable {c d : Category} {k k' : Caches} {h : Handle c} {id n : Nat}

namespace Memo

variable {κ α : Type} [BEq κ] [Hashable κ] {m : Memo κ α} {i : κ} {x : α}

theorem lookup_of_some (found : m.entries[i]? = some x) :
    (m.lookup i).2 = { m with hits := m.hits + 1 } := by
  rw [lookup, found]

theorem lookup_of_none (absent : m.entries[i]? = none) :
    (m.lookup i).2 = { m with misses := m.misses + 1 } := by
  rw [lookup, absent]

variable [EquivBEq κ] [LawfulHashable κ]

theorem size_insert_of_none (absent : m.entries[i]? = none) :
    (m.insert i x).size = m.size + 1 := by
  have new : i ∉ m.entries := by simp [Std.HashMap.mem_iff_isSome_getElem?, absent]
  rw [size, insert, Std.HashMap.size_insert, if_neg new]
  rfl

theorem size_insert_le : (m.insert i x).size ≤ m.size + 1 := Std.HashMap.size_insert_le

end Memo

namespace Caches

/-! ## Counts if one memo is exchanged -/

section Exchanges

variable {κ α : Type} [BEq κ] [Hashable κ] {m m' : Memo κ α} {i : κ} {x : α}

/-- Sums over the memos of `k'` are those over the memos of `k` with `m'` in the place of `m`. -/
def Exchanges (k k' : Caches) (m m' : Memo κ α) : Prop :=
  ∀ number : {κ α : Type} → [BEq κ] → [Hashable κ] → Memo κ α → Nat,
    k'.total number + number m = k.total number + number m'

theorem exchanges_modify_states {m : StateMemo c → StateMemo c} :
    k.Exchanges { k with states := k.states.modify c m } (k.states.get c)
      (m (k.states.get c)) := by
  intro number
  cases c <;> simp only [total, Category.all, List.foldr, PerCategory.get, PerCategory.modify] <;>
    omega

theorem exchanges_modify_batches {m : BatchMemo c → BatchMemo c} :
    k.Exchanges { k with batches := k.batches.modify c m } (k.batches.get c)
      (m (k.batches.get c)) := by
  intro number
  cases c <;> simp only [total, Category.all, List.foldr, PerCategory.get, PerCategory.modify] <;>
    omega

/-- A look-up that finds something is a hit. -/
theorem Exchanges.hit (h : k.Exchanges k' m (m.lookup i).2) (found : m.entries[i]? = some x) :
    k'.hits = k.hits + 1 ∧ k'.misses = k.misses ∧ k'.size = k.size := by
  rw [Memo.lookup_of_some found] at h
  have hits : k'.hits + m.hits = k.hits + (m.hits + 1) := h Memo.hits
  have misses : k'.misses + m.misses = k.misses + m.misses := h Memo.misses
  have size : k'.size + m.size = k.size + m.size := h Memo.size
  omega

/-- A look-up that finds nothing is a miss. -/
theorem Exchanges.miss (h : k.Exchanges k' m (m.lookup i).2) (absent : m.entries[i]? = none) :
    k'.misses = k.misses + 1 ∧ k'.size = k.size := by
  rw [Memo.lookup_of_none absent] at h
  have misses : k'.misses + m.misses = k.misses + (m.misses + 1) := h Memo.misses
  have size : k'.size + m.size = k.size + m.size := h Memo.size
  omega

theorem Exchanges.misses_insert (h : k.Exchanges k' m (m.insert i x)) : k'.misses = k.misses := by
  have misses : k'.misses + m.misses = k.misses + m.misses := h Memo.misses
  omega

variable [EquivBEq κ] [LawfulHashable κ]

theorem Exchanges.size_insert (h : k.Exchanges k' m (m.insert i x))
    (absent : m.entries[i]? = none) : k'.size = k.size + 1 := by
  have size : k'.size + m.size = k.size + (m.insert i x).size := h Memo.size
  rw [Memo.size_insert_of_none absent] at size
  omega

theorem Exchanges.size_insert_le (h : k.Exchanges k' m (m.insert i x)) :
    k'.size ≤ k.size + 1 := by
  have size : k'.size + m.size = k.size + (m.insert i x).size := h Memo.size
  have le : (m.insert i x).size ≤ m.size + 1 := Memo.size_insert_le
  omega

end Exchanges

/-! ## Insertions -/

section Insert

variable {α : Category → Type} {m : PerCategory fun c => Memo (Handle c × Nat) (α c)}
  {i : Handle c × Nat} {j : Handle d × Nat} {x : α c} {y : α d}

theorem getElem?_modify_insert_self :
    ((m.modify c (·.insert i x)).get c).entries[i]? = some x := by
  rw [PerCategory.get_modify_self, Memo.insert, Std.HashMap.getElem?_insert_self]

/-- Other keys stay as they are. -/
theorem getElem?_modify_insert_of_ne
    (ne : (⟨d, j⟩ : (c : Category) × (Handle c × Nat)) ≠ ⟨c, i⟩) :
    ((m.modify c (·.insert i x)).get d).entries[j]? = (m.get d).entries[j]? := by
  by_cases hcd : c = d
  · subst hcd
    have other : ¬ (i == j) = true := by
      rw [beq_iff_eq]
      rintro rfl
      exact ne rfl
    rw [PerCategory.get_modify_self, Memo.insert, Std.HashMap.getElem?_insert, if_neg other]
  · rw [PerCategory.get_modify_of_ne hcd]

/-- What is remembered stays, if the key is new. -/
theorem getElem?_modify_insert_of_some (absent : (m.get c).entries[i]? = none)
    (found : (m.get d).entries[j]? = some y) :
    ((m.modify c (·.insert i x)).get d).entries[j]? = some y := by
  rw [getElem?_modify_insert_of_ne, found]
  intro same
  cases same
  cases absent.symm.trans found

end Insert

/-! ## Single states -/

/-- The caches after an element was looked up in the state with this identity. -/
def asked (k : Caches) (h : Handle c) (id : Nat) : Caches :=
  { k with states := k.states.modify c fun _ => ((k.states.get c).lookup (h, id)).2 }

/-- The caches with the denotation of an element in the state with this identity. -/
def stored (k : Caches) (h : Handle c) (id : Nat) (d : Meaning c) : Caches :=
  { k with states := k.states.modify c (·.insert (h, id) d) }

@[simp] theorem entries_asked : ((k.asked h id).states.get d).entries = (k.states.get d).entries :=
  entries_modify_lookup

theorem exchanges_asked :
    k.Exchanges (k.asked h id) (k.states.get c) ((k.states.get c).lookup (h, id)).2 :=
  exchanges_modify_states

theorem exchanges_stored {x : Meaning c} :
    k.Exchanges (k.stored h id x) (k.states.get c) ((k.states.get c).insert (h, id) x) :=
  exchanges_modify_states

/-! ## Batches -/

/-- The caches after an element was looked up in the batch with this number. -/
def askedBatch (k : Caches) (h : Handle c) (n : Nat) : Caches :=
  { k with batches := k.batches.modify c fun _ => ((k.batches.get c).lookup (h, n)).2 }

/-- The caches with the denotations of an element in the batch with this number. -/
def storedBatch (k : Caches) (h : Handle c) (n : Nat) (ds : List (Meaning c)) : Caches :=
  { k with batches := k.batches.modify c (·.insert (h, n) ds) }

@[simp] theorem entries_askedBatch :
    ((k.askedBatch h n).batches.get d).entries = (k.batches.get d).entries :=
  entries_modify_lookup

theorem exchanges_askedBatch :
    k.Exchanges (k.askedBatch h n) (k.batches.get c) ((k.batches.get c).lookup (h, n)).2 :=
  exchanges_modify_batches

theorem exchanges_storedBatch {xs : List (Meaning c)} :
    k.Exchanges (k.storedBatch h n xs) (k.batches.get c) ((k.batches.get c).insert (h, n) xs) :=
  exchanges_modify_batches

/-- Numbering a batch changes nothing that is counted. -/
theorem total_of_batchNumber {number : {κ α : Type} → [BEq κ] → [Hashable κ] → Memo κ α → Nat}
    {ids : List Nat} (numbered : k.batchNumber ids = (n, k')) :
    k'.total number = k.total number := by
  rw [batchNumber] at numbered
  split at numbered <;> cases numbered <;> rfl

/-! ## Forgetting -/

theorem total_clear {number : {κ α : Type} → [BEq κ] → [Hashable κ] → Memo κ α → Nat}
    (kept : ∀ {κ α : Type} [BEq κ] [Hashable κ] (m : Memo κ α), number m.clear = number m) :
    k.clear.total number = k.total number := by
  simp only [clear, total, Category.all, List.foldr, PerCategory.get_ofFn, kept]

theorem size_clear : k.clear.size = 0 := by
  simp [clear, size, total, Category.all, Memo.size, Memo.clear]

end Caches

/-! ## Runs -/

namespace EvalM

open Caches

variable {f : Factory} {s : State} {fuel : Nat}

theorem run_lookUp_asked :
    (lookUp h s).run k = (.ok (k.states.get c).entries[(h, s.id)]?, k.asked h s.id) :=
  run_lookUp

theorem run_meaning_of_some {x : Meaning c}
    (found : (k.states.get c).entries[(h, s.id)]? = some x) :
    (meaning f s (fuel + 1) h).run k = (.ok x, k.asked h s.id) := by
  rw [meaning, run_bind_ok run_lookUp_asked, found]
  rfl

theorem run_meaning_of_foreign (absent : (k.states.get c).entries[(h, s.id)]? = none)
    (hh : f.get? h = none) :
    (meaning f s (fuel + 1) h).run k = (.error (.foreignElement c h.index), k.asked h s.id) := by
  have foreign : f.entry h = .error (.foreignElement c h.index) := by
    rw [Factory.entry, hh]
  rw [meaning, run_bind_ok run_lookUp_asked, absent, foreign]
  rfl

theorem run_meaning_of_none (absent : (k.states.get c).entries[(h, s.id)]? = none) {e : Entry c}
    (he : f.get? h = some e) :
    (meaning f s (fuel + 1) h).run k =
      match (ofNode s (meaning f s fuel) e.node).run (k.asked h s.id) with
      | (.ok x, k') => (.ok x, k'.stored h s.id x)
      | (.error err, k') => (.error err, k') := by
  have entry : f.entry h = .ok e := by
    rw [Factory.entry, he]
  rw [meaning, run_bind_ok run_lookUp_asked, absent, entry]
  refine (run_lift_bind_ok rfl).trans (run_bind.trans ?_)
  rcases (ofNode s (meaning f s fuel) e.node).run (k.asked h s.id) with ⟨_ | _, _⟩ <;> rfl

section Batch

variable {l : List State}

theorem run_lookUpBatch_asked :
    (lookUpBatch h n).run k = (.ok (k.batches.get c).entries[(h, n)]?, k.askedBatch h n) :=
  run_lookUpBatch

theorem run_evaluateBatch_of_error {e : Error} (refused : l.forM (checkVocabulary f) = .error e) :
    (evaluateBatch f h l).run k = (.error e, k) := by
  rw [evaluateBatch, refused]
  exact run_bind_error run_lift

variable (checked : l.forM (checkVocabulary f) = .ok ⟨⟩)
  (numbered : k.batchNumber (l.map State.id) = (n, k'))

include checked numbered

theorem run_evaluateBatch_of_some {xs : List (Meaning c)}
    (found : (k'.batches.get c).entries[(h, n)]? = some xs) :
    (evaluateBatch f h l).run k = (.ok xs, k'.askedBatch h n) := by
  rw [evaluateBatch, checked, run_bind_ok run_lift, run_bind_ok run_modifyGet, numbered,
    run_bind_ok run_lookUpBatch_asked, found]
  rfl

theorem run_evaluateBatch_of_none (absent : (k'.batches.get c).entries[(h, n)]? = none) :
    (evaluateBatch f h l).run k =
      match (l.mapM fun s => meaning f s (depthBound f h) h).run (k'.askedBatch h n) with
      | (.ok xs, k'') => (.ok xs, k''.storedBatch h n xs)
      | (.error err, k'') => (.error err, k'') := by
  rw [evaluateBatch, checked, run_bind_ok run_lift, run_bind_ok run_modifyGet, numbered,
    run_bind_ok run_lookUpBatch_asked, absent]
  refine run_bind.trans ?_
  rcases (l.mapM fun s => meaning f s (depthBound f h) h).run (k'.askedBatch h n) with
    ⟨_ | _, _⟩ <;> rfl

end Batch

section Moves

variable {R : Caches → Caches → Prop} [IsPreorder Caches R]
  {go : {d : Category} → Handle d → EvalM (Meaning d)}

theorem moves_mapM {ps : List Parameter} {hs : Args Handle ps}
    (operands : hs.All fun x => Moves R (go x)) : Moves R (hs.mapM go) := by
  induction operands with
  | nil => exact .pure
  | predicate p _ ih => exact .bind ih fun _ => .pure
  | constant k _ ih => exact .bind ih fun _ => .pure
  | position i _ ih => exact .bind ih fun _ => .pure
  | element hx _ ih => exact .bind hx fun _ => .bind ih fun _ => .pure

theorem moves_distance {d e f : Category} {x : Handle d} {r : Handle e} {y : Handle f}
    {settled : Meaning d → Meaning f → Prop} [∀ a b, Decidable (settled a b)] {value : Nat}
    {rest : Meaning d → Meaning e → Meaning f → Nat} (hx : Moves R (go x)) (hr : Moves R (go r))
    (hy : Moves R (go y)) :
    Moves R (do
      let a ← go x
      let b ← go y
      if settled a b then return value
      return rest a (← go r) b) := by
  refine .bind hx fun a => .bind hy fun b => ?_
  exact .ite .pure (.bind hr fun _ => .pure)

/-- The evaluation of a node leads where those of its operands lead. -/
theorem moves_ofNode {n : Node Handle c} (operands : n.args.All fun x => Moves R (go x)) :
    Moves R (ofNode s go n) := by
  have whole := (moves_mapM operands).bind (g := fun ds => pure (Node.denote s ⟨n.operator, ds⟩))
    fun _ => .pure
  obtain ⟨o, hs⟩ := n
  cases o
  case conceptDistance =>
    obtain ⟨x, r, y, rfl, hx, hr, hy⟩ := operands.of_three
    refine .bind hx fun a => .bind hy fun b => ?_
    cases settledDistance? a b with
    | some value => exact .pure
    | none => exact .bind hr fun _ => .pure
  case sumConceptDistance | roleDistance | sumRoleDistance =>
    obtain ⟨x, r, y, rfl, hx, hr, hy⟩ := operands.of_three
    exact moves_distance hx hr hy
  all_goals exact whole

end Moves

end EvalM

/-! ## No denotation without a miss -/

namespace Caches

/-- There are no more new denotations in `k'` than new misses. -/
def Paid (k k' : Caches) : Prop := k'.size + k.misses ≤ k.size + k'.misses

instance : IsPreorder Caches Paid where
  refl k := Nat.le_refl (k.size + k.misses)
  trans _ _ _ h h' := by
    unfold Paid at *
    omega

theorem paid_clear : k.Paid k.clear := by
  have misses : k.clear.misses = k.misses := total_clear fun _ => rfl
  have size : k.clear.size = 0 := size_clear
  unfold Paid
  omega

section Memo

variable {κ α : Type} [BEq κ] [Hashable κ] {m m' : Memo κ α} {i : κ} {x : α} {k₁ k₂ k₃ : Caches}

theorem Exchanges.paid_lookup (h : k.Exchanges k' m (m.lookup i).2) : k.Paid k' := by
  unfold Paid
  cases found : m.entries[i]? with
  | some x => have := h.hit found; omega
  | none => have := h.miss found; omega

/-- What is remembered at the end pays with the miss at the beginning. -/
theorem Paid.insert [EquivBEq κ] [LawfulHashable κ] (asked : k.Exchanges k₁ m (m.lookup i).2)
    (absent : m.entries[i]? = none) (paid : k₁.Paid k₂)
    (stored : k₂.Exchanges k₃ m' (m'.insert i x)) : k.Paid k₃ := by
  have missed := asked.miss absent
  have size := stored.size_insert_le
  have misses := stored.misses_insert
  unfold Paid at *
  omega

end Memo

end Caches

namespace EvalM

open Caches

variable {f : Factory} {s : State}

theorem paid_meaning (f : Factory) (s : State) (fuel : Nat) {c : Category} (h : Handle c) :
    Moves Paid (meaning f s fuel h) := by
  induction fuel generalizing c with
  | zero => exact .throw
  | succ fuel ih =>
    intro k
    cases found : (k.states.get c).entries[(h, s.id)]? with
    | some x =>
      rw [run_meaning_of_some found]
      exact exchanges_asked.paid_lookup
    | none =>
      cases he : f.get? h with
      | none =>
        rw [run_meaning_of_foreign found he]
        exact exchanges_asked.paid_lookup
      | some e =>
        have operands := moves_ofNode (s := s) (Args.all_of_forall ih e.node.args)
          (k.asked h s.id)
        rw [run_meaning_of_none found he]
        rcases hrun : (ofNode s (meaning f s fuel) e.node).run (k.asked h s.id) with ⟨_ | x, k'⟩ <;>
          rw [hrun] at operands
        · exact trans_of Paid exchanges_asked.paid_lookup operands
        · exact .insert exchanges_asked found operands exchanges_stored

theorem paid_evaluate (f : Factory) (h : Handle c) (s : State) : Moves Paid (evaluate f h s) :=
  .bind .lift fun _ => paid_meaning f s _ h

theorem paid_evaluateBatch (f : Factory) (h : Handle c) (l : List State) :
    Moves Paid (evaluateBatch f h l) := by
  intro k
  cases checked : l.forM (checkVocabulary f) with
  | error e =>
    rw [run_evaluateBatch_of_error checked]
    exact refl_of Paid k
  | ok _ =>
    rcases numbered : k.batchNumber (l.map State.id) with ⟨n, k'⟩
    have number : k.Paid k' := by
      have size : k'.size = k.size := total_of_batchNumber numbered
      have misses : k'.misses = k.misses := total_of_batchNumber numbered
      unfold Paid
      omega
    refine trans_of Paid number ?_
    cases found : (k'.batches.get c).entries[(h, n)]? with
    | some xs =>
      rw [run_evaluateBatch_of_some checked numbered found]
      exact exchanges_askedBatch.paid_lookup
    | none =>
      have each := Moves.mapM (l := l) fun s => paid_meaning f s (depthBound f h) h
      specialize each (k'.askedBatch h n)
      rw [run_evaluateBatch_of_none checked numbered found]
      rcases hrun : (l.mapM fun s => meaning f s (depthBound f h) h).run (k'.askedBatch h n) with
        ⟨_ | xs, k''⟩ <;> rw [hrun] at each
      · exact trans_of Paid exchanges_askedBatch.paid_lookup each
      · exact .insert exchanges_askedBatch found each exchanges_storedBatch

end EvalM

end DescLogic
