import DescLogic.Proofs.Semantics.Relations
import Mathlib.Data.Finset.Image
import Mathlib.Data.Fintype.Prod
/-!
# Relations as finite sets of pairs

A relation among `n` objects stands for a finite set of pairs of numbers below `n`
(`ObjectRelation.HasPairs`). Each operation on relations is the operation on sets of the same name,
so a relation made by any of them, one after the other, stands for the set that is made in the same
way. No object is lost or gained on the way, for `n = 0` there is none.

* `HasPairs.insert`, `HasPairs.union`, …: what each operation does to the set.
* `ObjectRelation.Construction`: how a relation is made of others.
* `ObjectRelation.behavesAs_construction`: what can be asked of a relation that was made so is
  answered by its set, and equal relations are those with equal sets.
-/

namespace DescLogic.ObjectRelation

variable {n : Nat} {r t : ObjectRelation} {S T : Finset (Fin n × Fin n)}

/-- The relation is one among `n` objects and has the pairs in `S`. -/
structure HasPairs (r : ObjectRelation) (S : Finset (Fin n × Fin n)) : Prop where
  /-- There are `n` objects. -/
  objectCount : r.objectCount = n
  /-- The members are pairs of objects. -/
  valid : r.Valid
  /-- The pairs are those in `S`. -/
  relates_iff : ∀ {a b : Fin n}, r.Relates a b ↔ (a, b) ∈ S

/-! ## Operations -/

section Pair

variable {a b x y : Nat}

theorem Valid.insert (hr : r.Valid) (ha : a < r.objectCount) (hb : b < r.objectCount) :
    (r.insert a b).Valid := by
  intro i hi
  simp only [ObjectRelation.insert, NatSet.contains_insert, Bool.or_eq_true,
    decide_eq_true_eq] at hi ⊢
  rcases hi with hi | rfl
  · exact hr i hi
  · exact (pair_lt_iff hb).mpr ha

theorem relates_insert (ha : a < r.objectCount) (hb : b < r.objectCount) :
    (r.insert a b).Relates x y ↔ x = a ∧ y = b ∨ r.Relates x y := by
  simp only [Relates, ObjectRelation.insert, contains, pairIndex, NatSet.contains_insert,
    Bool.or_eq_true, decide_eq_true_eq]
  constructor
  · rintro ⟨hx, hy, old | new⟩
    · exact .inr ⟨hx, hy, old⟩
    · obtain ⟨rfl, rfl⟩ := (pair_inj hb hy).mp new
      exact .inl ⟨rfl, rfl⟩
  · rintro (⟨rfl, rfl⟩ | ⟨hx, hy, old⟩)
    · exact ⟨ha, hb, .inr rfl⟩
    · exact ⟨hx, hy, .inl old⟩

theorem Valid.erase (hr : r.Valid) : (r.erase a b).Valid := by
  intro i hi
  simp only [ObjectRelation.erase, NatSet.contains_erase, Bool.and_eq_true] at hi ⊢
  exact hr i hi.1

theorem relates_erase (hb : b < r.objectCount) :
    (r.erase a b).Relates x y ↔ ¬ (x = a ∧ y = b) ∧ r.Relates x y := by
  simp only [Relates, ObjectRelation.erase, contains, pairIndex, NatSet.contains_erase,
    Bool.and_eq_true, decide_eq_true_eq]
  constructor
  · rintro ⟨hx, hy, old, other⟩
    exact ⟨fun same => other ((pair_inj hb hy).mpr ⟨same.1.symm, same.2.symm⟩), hx, hy, old⟩
  · rintro ⟨other, hx, hy, old⟩
    refine ⟨hx, hy, old, fun same => other ?_⟩
    obtain ⟨rfl, rfl⟩ := (pair_inj hb hy).mp same
    exact ⟨rfl, rfl⟩

end Pair

theorem hasPairs_empty : (empty n).HasPairs (∅ : Finset (Fin n × Fin n)) where
  objectCount := rfl
  valid i hi := by simp [empty] at hi
  relates_iff := by simp [Relates, contains, empty]

theorem hasPairs_full : (full n).HasPairs (Finset.univ : Finset (Fin n × Fin n)) where
  objectCount := rfl
  valid := valid_full
  relates_iff := by simp

theorem hasPairs_ofList (l : List (Fin n × Fin n)) :
    (ofList n (l.map fun p => (p.1.val, p.2.val))).HasPairs l.toFinset := by
  have inside : ∀ p ∈ l.map fun p => (p.1.val, p.2.val), p.1 < n ∧ p.2 < n := by
    simp only [List.forall_mem_map]
    exact fun p _ => ⟨p.1.isLt, p.2.isLt⟩
  refine ⟨rfl, valid_ofList inside, ?_⟩
  intro a b
  rw [relates_ofList inside, List.mem_toFinset, List.mem_map]
  constructor
  · rintro ⟨⟨a', b'⟩, h, same⟩
    obtain ⟨first, second⟩ := Prod.mk.inj same
    rwa [← Fin.ext first, ← Fin.ext second]
  · intro h
    exact ⟨(a, b), h, rfl⟩

namespace HasPairs

theorem contains_iff (h : r.HasPairs S) {a b : Fin n} :
    r.contains a b = true ↔ (a, b) ∈ S := by
  rw [← h.relates_iff, Relates, h.objectCount]
  simp

theorem insert (h : r.HasPairs S) (a b : Fin n) :
    (r.insert a b).HasPairs (Insert.insert (a, b) S) where
  objectCount := h.objectCount
  valid := h.valid.insert (h.objectCount ▸ a.isLt) (h.objectCount ▸ b.isLt)
  relates_iff := by
    intro x y
    rw [relates_insert (h.objectCount ▸ a.isLt) (h.objectCount ▸ b.isLt), h.relates_iff,
      Finset.mem_insert, Prod.mk.injEq, Fin.ext_iff, Fin.ext_iff]

theorem erase (h : r.HasPairs S) (a b : Fin n) : (r.erase a b).HasPairs (S.erase (a, b)) where
  objectCount := h.objectCount
  valid := h.valid.erase
  relates_iff := by
    intro x y
    rw [relates_erase (h.objectCount ▸ b.isLt), h.relates_iff, Finset.mem_erase, Ne,
      Prod.mk.injEq, Fin.ext_iff, Fin.ext_iff]

theorem union (h : r.HasPairs S) (h' : t.HasPairs T) : (r.union t).HasPairs (S ∪ T) where
  objectCount := h.objectCount
  valid := h.valid.union h'.valid (h'.objectCount.trans h.objectCount.symm)
  relates_iff := by
    intro a b
    rw [relates_union (h'.objectCount.trans h.objectCount.symm), h.relates_iff, h'.relates_iff,
      Finset.mem_union]

theorem inter (h : r.HasPairs S) (h' : t.HasPairs T) : (r.inter t).HasPairs (S ∩ T) where
  objectCount := h.objectCount
  valid := h.valid.inter
  relates_iff := by
    intro a b
    rw [relates_inter (h'.objectCount.trans h.objectCount.symm), h.relates_iff, h'.relates_iff,
      Finset.mem_inter]

theorem diff (h : r.HasPairs S) (h' : t.HasPairs T) : (r.diff t).HasPairs (S \ T) where
  objectCount := h.objectCount
  valid := h.valid.diff
  relates_iff := by
    intro a b
    rw [relates_diff (h'.objectCount.trans h.objectCount.symm), h.relates_iff, h'.relates_iff,
      Finset.mem_sdiff]

theorem complement (h : r.HasPairs S) : r.complement.HasPairs Sᶜ where
  objectCount := h.objectCount
  valid := .complement
  relates_iff := by
    intro a b
    rw [relates_complement, h.relates_iff, h.objectCount, Finset.mem_compl]
    simp

theorem inverse (h : r.HasPairs S) : r.inverse.HasPairs (S.image Prod.swap) where
  objectCount := h.objectCount
  valid := valid_inverse h.valid
  relates_iff := by
    intro a b
    rw [relates_inverse h.valid, h.relates_iff, Finset.mem_image]
    simp

end HasPairs

/-! ## Constructions -/

/-- How a relation among `n` objects is made. -/
inductive Construction (n : Nat) where
  /-- Without pairs. -/
  | empty
  /-- With all pairs. -/
  | full
  /-- With the listed pairs. -/
  | ofList (pairs : List (Fin n × Fin n))
  /-- By adding a pair. -/
  | insert (c : Construction n) (a b : Fin n)
  /-- By removing a pair. -/
  | erase (c : Construction n) (a b : Fin n)
  /-- By adding the pairs of another relation. -/
  | union (c d : Construction n)
  /-- By keeping the pairs of another relation. -/
  | inter (c d : Construction n)
  /-- By removing the pairs of another relation. -/
  | diff (c d : Construction n)
  /-- By exchanging the pairs for all others. -/
  | complement (c : Construction n)
  /-- By exchanging the coordinates. -/
  | inverse (c : Construction n)

namespace Construction

/-- The relation that is made. -/
def relation : Construction n → ObjectRelation
  | empty => .empty n
  | full => .full n
  | ofList pairs => .ofList n (pairs.map fun p => (p.1.val, p.2.val))
  | insert c a b => c.relation.insert a b
  | erase c a b => c.relation.erase a b
  | union c d => c.relation.union d.relation
  | inter c d => c.relation.inter d.relation
  | diff c d => c.relation.diff d.relation
  | complement c => c.relation.complement
  | inverse c => c.relation.inverse

/-- The set of pairs that is made in the same way. -/
def pairs : Construction n → Finset (Fin n × Fin n)
  | empty => ∅
  | full => Finset.univ
  | ofList pairs => pairs.toFinset
  | insert c a b => Insert.insert (a, b) c.pairs
  | erase c a b => c.pairs.erase (a, b)
  | union c d => c.pairs ∪ d.pairs
  | inter c d => c.pairs ∩ d.pairs
  | diff c d => c.pairs \ d.pairs
  | complement c => c.pairsᶜ
  | inverse c => c.pairs.image Prod.swap

theorem hasPairs (c : Construction n) : c.relation.HasPairs c.pairs := by
  induction c with
  | empty => exact hasPairs_empty
  | full => exact hasPairs_full
  | ofList l => exact hasPairs_ofList l
  | insert c a b ih => exact ih.insert a b
  | erase c a b ih => exact ih.erase a b
  | union c d ih ih' => exact ih.union ih'
  | inter c d ih ih' => exact ih.inter ih'
  | diff c d ih ih' => exact ih.diff ih'
  | complement c ih => exact ih.complement
  | inverse c ih => exact ih.inverse

end Construction

/-! ## What can be asked of a relation -/

theorem complement_complement (hr : r.Valid) : r.complement.complement = r := by
  refine ext_relates .complement hr rfl fun a b => ?_
  rw [relates_complement, relates_complement]
  constructor
  · rintro ⟨ha, hb, h⟩
    by_contra outside
    exact h ⟨ha, hb, outside⟩
  · intro h
    exact ⟨h.1, h.2.1, fun outside => outside.2.2 h⟩

theorem inverse_inverse (hr : r.Valid) : r.inverse.inverse = r := by
  refine ext_relates (valid_inverse (valid_inverse hr)) hr rfl fun a b => ?_
  rw [relates_inverse (valid_inverse hr), relates_inverse hr]

/-- The listing goes row by row, and along each row from left to right. -/
theorem pairwise_toList (r : ObjectRelation) :
    r.toList.Pairwise fun p q => p.1 < q.1 ∨ p.1 = q.1 ∧ p.2 < q.2 := by
  refine List.Pairwise.map _ (fun i j lt => ?_) (NatSet.toList_pairwise_lt r.pairs)
  rcases Nat.lt_or_eq_of_le (Nat.div_le_div_right (c := r.objectCount) (Nat.le_of_lt lt))
    with row | row
  · exact .inl row
  · refine .inr ⟨row, ?_⟩
    have hi := Nat.div_add_mod i r.objectCount
    have hj := Nat.div_add_mod j r.objectCount
    rw [row] at hi
    show i % r.objectCount < j % r.objectCount
    omega

/-- What can be asked of the relation is answered by the set `S`. -/
structure BehavesAs (r : ObjectRelation) (S : Finset (Fin n × Fin n)) : Prop where
  /-- Members are numbers of pairs. -/
  lt_of_contains : ∀ {i : Nat}, r.pairs.contains i = true → i < n * n
  /-- The relation contains the pairs in the set. -/
  contains_iff : ∀ {a b : Fin n}, r.contains a b = true ↔ (a, b) ∈ S
  /-- It lists the pairs in the set. -/
  mem_toList : ∀ {p : Nat × Nat}, p ∈ r.toList ↔ ∃ q ∈ S, (q.1.val, q.2.val) = p
  /-- It lists them row by row, and along each row from left to right, so none is repeated. -/
  pairwise_toList : r.toList.Pairwise fun p q => p.1 < q.1 ∨ p.1 = q.1 ∧ p.2 < q.2
  /-- The successors of an object are what the set relates it to. -/
  mem_successors : ∀ {a : Fin n} {x : Nat}, x ∈ r.successors a ↔ ∃ b : Fin n, (a, b) ∈ S ∧ b.val = x
  /-- They are listed in increasing order. -/
  pairwise_successors : ∀ {a : Fin n}, (r.successors a).Pairwise (· < ·)
  /-- The size is the number of pairs in the set. -/
  size_eq : r.size = S.card
  /-- The relation is empty if the set is. -/
  isEmpty_iff : r.isEmpty = true ↔ S = ∅
  /-- Exchanging the coordinates twice changes nothing. -/
  inverse_inverse : r.inverse.inverse = r
  /-- Taking all other pairs twice changes nothing. -/
  complement_complement : r.complement.complement = r

namespace HasPairs

theorem relates_iff_exists (h : r.HasPairs S) {a b : Nat} :
    r.Relates a b ↔ ∃ q ∈ S, (q.1.val, q.2.val) = (a, b) := by
  constructor
  · intro hab
    have ha : a < n := h.objectCount ▸ hab.1
    have hb : b < n := h.objectCount ▸ hab.2.1
    exact ⟨(⟨a, ha⟩, ⟨b, hb⟩), h.relates_iff.mp hab, rfl⟩
  · rintro ⟨⟨x, y⟩, hq, ⟨⟩⟩
    exact h.relates_iff.mpr hq

theorem size_eq (h : r.HasPairs S) : r.size = S.card := by
  have nodup : r.toList.Nodup := (ObjectRelation.pairwise_toList r).imp fun less => by
    rintro rfl
    omega
  have listed : r.toList.toFinset = S.image fun q => (q.1.val, q.2.val) := by
    ext p
    rw [List.mem_toFinset, Finset.mem_image, mem_toList h.valid, h.relates_iff_exists]
  have injective : Function.Injective fun q : Fin n × Fin n => (q.1.val, q.2.val) :=
    Fin.val_injective.prodMap Fin.val_injective
  rw [← Finset.card_image_of_injective S injective, ← listed, List.toFinset_card_of_nodup nodup,
    size, NatSet.size_eq, toList, List.length_map]

theorem isEmpty_iff (h : r.HasPairs S) : r.isEmpty = true ↔ S = ∅ := by
  rw [ObjectRelation.isEmpty_iff h.valid, Finset.eq_empty_iff_forall_notMem]
  constructor
  · intro none q hq
    exact none q.1 q.2 (h.relates_iff.mpr hq)
  · intro none a b hab
    obtain ⟨q, hq, -⟩ := h.relates_iff_exists.mp hab
    exact none q hq

theorem behavesAs (h : r.HasPairs S) : r.BehavesAs S where
  lt_of_contains hi := by
    obtain rfl := h.objectCount
    exact h.valid _ hi
  contains_iff := h.contains_iff
  mem_toList := (ObjectRelation.mem_toList h.valid).trans h.relates_iff_exists
  pairwise_toList := ObjectRelation.pairwise_toList r
  mem_successors := by
    intro a x
    rw [successors, NatSet.mem_toList, NatSet.mem_iff, contains_row, h.objectCount]
    simp only [Bool.and_eq_true, decide_eq_true_eq]
    constructor
    · rintro ⟨hx, hax⟩
      exact ⟨⟨x, hx⟩, h.contains_iff.mp hax, rfl⟩
    · rintro ⟨b, hab, rfl⟩
      exact ⟨b.isLt, h.contains_iff.mpr hab⟩
  pairwise_successors := NatSet.toList_pairwise_lt _
  size_eq := h.size_eq
  isEmpty_iff := h.isEmpty_iff
  inverse_inverse := ObjectRelation.inverse_inverse h.valid
  complement_complement := ObjectRelation.complement_complement h.valid

/-- Relations are equal if their sets are. -/
theorem beq_iff (h : r.HasPairs S) (h' : t.HasPairs T) : (r == t) = true ↔ S = T := by
  rw [beq_iff_eq]
  constructor
  · rintro rfl
    ext q
    exact h.relates_iff.symm.trans h'.relates_iff
  · rintro rfl
    refine ext_relates h.valid h'.valid (h.objectCount.trans h'.objectCount.symm) fun a b => ?_
    exact h.relates_iff_exists.trans h'.relates_iff_exists.symm

end HasPairs

/-- Two ways to relate two objects to each other and not to themselves. -/
example :
    let c : Construction 2 := .complement (.ofList [(0, 0), (1, 1)])
    let d : Construction 2 := .inverse (.insert (.insert .empty 0 1) 1 0)
    c.pairs = {(0, 1), (1, 0)} ∧ c.relation = d.relation := by
  decide

end DescLogic.ObjectRelation
