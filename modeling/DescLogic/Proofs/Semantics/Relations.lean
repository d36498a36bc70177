import DescLogic.Relation.Closure
import Mathlib.Data.List.Induction
import Mathlib.Logic.Relation
import Mathlib.Tactic.Tauto
/-!
# Relations as sets of pairs

`ObjectRelation.Relates r a b` says that `(a, b)` is a pair of `r`, for objects `a` and `b`. The
pairs of a relation are told from other numbers by being below `n * n` (`ObjectRelation.Valid`), and
every operation keeps to them.

* `mem_toList`: the listing holds the pairs and nothing else.
* `relates_ofRows`, `relates_ofList`: the pairs of a relation given by its rows, or listed.
* `entry_foldl_iff`: after the rounds for some stations the rows hold the ends of the paths whose
  inner stations are among them, and nothing else.
* `relates_transitiveClosure`: the pairs of the closure are those that a nonempty path joins.
-/

namespace DescLogic

namespace NatSet

variable {s t : NatSet}

theorem isEmpty_eq_true_iff : s.isEmpty = true ↔ ∀ i, s.contains i = false := by
  rw [isEmpty_iff]
  constructor
  · rintro rfl i
    exact contains_empty
  · intro h
    exact ext_contains fun i => by rw [h i, contains_empty]

theorem isSubset_eq_true_iff :
    s.isSubset t = true ↔ ∀ i, s.contains i = true → t.contains i = true := by
  rw [isSubset, beq_iff_eq]
  constructor
  · intro h i hi
    rw [← h, contains_inter, Bool.and_eq_true] at hi
    exact hi.2
  · intro h
    refine ext_contains fun i => ?_
    rw [contains_inter, Bool.and_eq_left_iff_imp]
    exact h i

theorem intersects_eq_true_iff :
    s.intersects t = true ↔ ∃ i, s.contains i = true ∧ t.contains i = true := by
  rw [intersects, Bool.not_eq_true', ← Bool.not_eq_true, isEmpty_eq_true_iff]
  simp

theorem beq_eq_true_iff : (s == t) = true ↔ ∀ i, s.contains i = true ↔ t.contains i = true := by
  rw [beq_iff_eq]
  constructor
  · rintro rfl i
    exact Iff.rfl
  · intro h
    exact ext_contains fun i => Bool.eq_iff_iff.mpr (h i)

end NatSet

/-! ## Paths through stations -/

section Paths

variable {R : Nat → Nat → Prop} {ks ls : List Nat} {a b c k : Nat}

/-- A nonempty path leads from `a` to `b`, and its inner stations are in `ks`. -/
inductive Through (R : Nat → Nat → Prop) (ks : List Nat) (a : Nat) : Nat → Prop where
  | single {b : Nat} : R a b → Through R ks a b
  | tail {b c : Nat} : Through R ks a b → b ∈ ks → R b c → Through R ks a c

theorem Through.mono (sub : ks ⊆ ls) (h : Through R ks a b) : Through R ls a b := by
  induction h with
  | single h => exact .single h
  | tail _ hb h ih => exact .tail ih (sub hb) h

theorem Through.trans (hac : Through R ks a c) (hc : c ∈ ks) (hcb : Through R ks c b) :
    Through R ks a b := by
  induction hcb with
  | single h => exact .tail hac hc h
  | tail _ hm h ih => exact .tail ih hm h

theorem Through.transGen (h : Through R ks a b) : Relation.TransGen R a b := by
  induction h with
  | single h => exact .single h
  | tail _ _ h ih => exact .tail ih h

/-- A path that may pass `k` is one that does not, or it is cut at the first and the last time. -/
theorem through_append_singleton : Through R (ks ++ [k]) a b ↔
    Through R ks a b ∨ Through R ks a k ∧ Through R ks k b := by
  have sub : ks ⊆ ks ++ [k] := List.subset_append_left ks [k]
  constructor
  · intro h
    induction h with
    | single h => exact .inl (.single h)
    | @tail m b _ hm h ih =>
      rcases List.mem_append.mp hm with hm | hm
      · rcases ih with direct | ⟨toStation, rest⟩
        · exact .inl (direct.tail hm h)
        · exact .inr ⟨toStation, rest.tail hm h⟩
      · obtain rfl := List.mem_singleton.mp hm
        exact .inr ⟨ih.elim id And.left, .single h⟩
  · rintro (direct | ⟨toStation, rest⟩)
    · exact direct.mono sub
    · exact (toStation.mono sub).trans (List.mem_append_right ks (List.mem_singleton_self k))
        (rest.mono sub)

end Paths

namespace ObjectRelation

variable {r t : ObjectRelation} {n a b : Nat}

/-- The members are pairs of objects. -/
def Valid (r : ObjectRelation) : Prop :=
  ∀ i, r.pairs.contains i = true → i < r.objectCount * r.objectCount

/-- The pair of the objects `a` and `b` is a member. -/
def Relates (r : ObjectRelation) (a b : Nat) : Prop :=
  a < r.objectCount ∧ b < r.objectCount ∧ r.contains a b = true

/-! ## Pairs as numbers -/

theorem pair_div (hb : b < n) : (a * n + b) / n = a := by
  rw [Nat.mul_comm, Nat.mul_add_div (by omega), Nat.div_eq_of_lt hb, Nat.add_zero]

theorem pair_mod (hb : b < n) : (a * n + b) % n = b := by
  rw [Nat.mul_comm, Nat.mul_add_mod, Nat.mod_eq_of_lt hb]

theorem pair_lt_iff (hb : b < n) : a * n + b < n * n ↔ a < n := by
  rw [← Nat.div_lt_iff_lt_mul (by omega), pair_div hb]

theorem pair_inj {c d : Nat} (hb : b < n) (hd : d < n) :
    a * n + b = c * n + d ↔ a = c ∧ b = d := by
  constructor
  · intro h
    have hquot := congrArg (· / n) h
    have hrem := congrArg (· % n) h
    simp only [pair_div hb, pair_div hd, pair_mod hb, pair_mod hd] at hquot hrem
    exact ⟨hquot, hrem⟩
  · rintro ⟨rfl, rfl⟩
    rfl

/-- A number below `n * n` is a pair. -/
theorem exists_pair {i : Nat} (hi : i < n * n) : ∃ a b, a < n ∧ b < n ∧ i = a * n + b := by
  have hn : 0 < n := Nat.pos_of_ne_zero fun h => by simp [h] at hi
  refine ⟨i / n, i % n, (Nat.div_lt_iff_lt_mul hn).mpr hi, Nat.mod_lt i hn, ?_⟩
  rw [Nat.mul_comm, Nat.div_add_mod]

theorem mem_toList (hr : r.Valid) : (a, b) ∈ r.toList ↔ r.Relates a b := by
  simp only [toList, List.mem_map, NatSet.mem_toList, NatSet.mem_iff, Prod.mk.injEq]
  constructor
  · rintro ⟨i, hi, rfl, rfl⟩
    obtain ⟨a, b, ha, hb, rfl⟩ := exists_pair (hr i hi)
    rw [pair_div hb, pair_mod hb]
    exact ⟨ha, hb, hi⟩
  · rintro ⟨-, hb, h⟩
    exact ⟨_, h, pair_div hb, pair_mod hb⟩

theorem isEmpty_iff (hr : r.Valid) : r.isEmpty = true ↔ ∀ a b, ¬ r.Relates a b := by
  rw [isEmpty, NatSet.isEmpty_eq_true_iff]
  constructor
  · rintro h a b ⟨-, -, hab⟩
    rw [contains, h] at hab
    cases hab
  · intro h i
    rw [← Bool.not_eq_true]
    intro hi
    obtain ⟨a, b, ha, hb, rfl⟩ := exists_pair (hr i hi)
    exact h a b ⟨ha, hb, hi⟩

theorem isSubset_iff (hr : r.Valid) (h : t.objectCount = r.objectCount) :
    r.isSubset t = true ↔ ∀ a b, r.Relates a b → t.Relates a b := by
  rw [isSubset, NatSet.isSubset_eq_true_iff]
  constructor
  · rintro sub a b ⟨ha, hb, hab⟩
    refine ⟨h ▸ ha, h ▸ hb, ?_⟩
    rw [contains, pairIndex, h]
    exact sub _ hab
  · intro sub i hi
    obtain ⟨a, b, ha, hb, rfl⟩ := exists_pair (hr i hi)
    have hab := (sub a b ⟨ha, hb, hi⟩).2.2
    rwa [contains, pairIndex, h] at hab

/-- Relations are told apart by their pairs. -/
theorem ext_relates (hr : r.Valid) (ht : t.Valid) (hn : r.objectCount = t.objectCount)
    (h : ∀ a b, r.Relates a b ↔ t.Relates a b) : r = t := by
  have sub : r.isSubset t = true := (isSubset_iff hr hn.symm).mpr fun a b => (h a b).mp
  have sup : t.isSubset r = true := (isSubset_iff ht hn).mpr fun a b => (h a b).mpr
  rw [isSubset, NatSet.isSubset_eq_true_iff] at sub sup
  have pairs : r.pairs = t.pairs :=
    NatSet.ext_contains fun i => Bool.eq_iff_iff.mpr ⟨sub i, sup i⟩
  obtain ⟨n, ps⟩ := r
  obtain ⟨m, qs⟩ := t
  exact congrArg₂ ObjectRelation.mk hn pairs

/-! ## Operations -/

theorem valid_full : (full n).Valid := by
  intro i hi
  simpa [full] using hi

@[simp] theorem relates_full : (full n).Relates a b ↔ a < n ∧ b < n := by
  constructor
  · rintro ⟨ha, hb, -⟩
    exact ⟨ha, hb⟩
  · rintro ⟨ha, hb⟩
    refine ⟨ha, hb, ?_⟩
    simpa [contains, full, pairIndex] using (pair_lt_iff hb).mpr ha

theorem Valid.complement : r.complement.Valid := by
  intro i hi
  simp only [ObjectRelation.complement, NatSet.contains_complement, Bool.and_eq_true,
    decide_eq_true_eq] at hi ⊢
  exact hi.1

theorem relates_complement :
    r.complement.Relates a b ↔ a < r.objectCount ∧ b < r.objectCount ∧ ¬ r.Relates a b := by
  refine and_congr_right fun ha => and_congr_right fun hb => ?_
  change a < r.objectCount at ha
  change b < r.objectCount at hb
  have := (pair_lt_iff hb).mpr ha
  simp [Relates, contains, complement, pairIndex, ha, hb, this]

theorem Valid.union (hr : r.Valid) (ht : t.Valid) (h : t.objectCount = r.objectCount) :
    (r.union t).Valid := by
  intro i hi
  simp only [ObjectRelation.union, NatSet.contains_union, Bool.or_eq_true] at hi ⊢
  rcases hi with hi | hi
  · exact hr i hi
  · rw [← h]
    exact ht i hi

theorem relates_union (h : t.objectCount = r.objectCount) :
    (r.union t).Relates a b ↔ r.Relates a b ∨ t.Relates a b := by
  simp only [Relates, ObjectRelation.union, contains, pairIndex, NatSet.contains_union,
    Bool.or_eq_true, h]
  tauto

theorem Valid.inter (hr : r.Valid) : (r.inter t).Valid := by
  intro i hi
  simp only [ObjectRelation.inter, NatSet.contains_inter, Bool.and_eq_true] at hi ⊢
  exact hr i hi.1

theorem relates_inter (h : t.objectCount = r.objectCount) :
    (r.inter t).Relates a b ↔ r.Relates a b ∧ t.Relates a b := by
  simp only [Relates, ObjectRelation.inter, contains, pairIndex, NatSet.contains_inter,
    Bool.and_eq_true, h]
  tauto

theorem Valid.diff (hr : r.Valid) : (r.diff t).Valid := by
  intro i hi
  simp only [ObjectRelation.diff, NatSet.contains_diff, Bool.and_eq_true] at hi ⊢
  exact hr i hi.1

theorem relates_diff (h : t.objectCount = r.objectCount) :
    (r.diff t).Relates a b ↔ r.Relates a b ∧ ¬ t.Relates a b := by
  simp only [Relates, ObjectRelation.diff, contains, pairIndex, NatSet.contains_diff,
    Bool.and_eq_true, Bool.not_eq_true', ← Bool.not_eq_true, h]
  tauto

theorem valid_ofList {l : List (Nat × Nat)} (hl : ∀ p ∈ l, p.1 < n ∧ p.2 < n) :
    (ofList n l).Valid := by
  intro i hi
  simp only [ofList, NatSet.contains_ofList, decide_eq_true_eq, List.mem_map] at hi ⊢
  obtain ⟨p, hp, rfl⟩ := hi
  exact (pair_lt_iff (hl p hp).2).mpr (hl p hp).1

/-- The pairs of a relation that is given by a list. -/
theorem relates_ofList {l : List (Nat × Nat)} (hl : ∀ p ∈ l, p.1 < n ∧ p.2 < n) :
    (ofList n l).Relates a b ↔ (a, b) ∈ l := by
  simp only [Relates, ofList, contains, pairIndex, NatSet.contains_ofList, decide_eq_true_eq,
    List.mem_map]
  constructor
  · rintro ⟨ha, hb, ⟨c, d⟩, hp, h⟩
    obtain ⟨rfl, rfl⟩ := (pair_inj (hl _ hp).2 hb).mp h
    exact hp
  · intro hp
    exact ⟨(hl _ hp).1, (hl _ hp).2, _, hp, rfl⟩

theorem valid_inverse (hr : r.Valid) : r.inverse.Valid := by
  refine valid_ofList fun p hp => ?_
  obtain ⟨⟨a, b⟩, hab, rfl⟩ := List.mem_map.mp hp
  have := (mem_toList hr).mp hab
  exact ⟨this.2.1, this.1⟩

theorem relates_inverse (hr : r.Valid) : r.inverse.Relates a b ↔ r.Relates b a := by
  rw [inverse, relates_ofList]
  · rw [← mem_toList hr, List.mem_map]
    constructor
    · rintro ⟨⟨c, d⟩, h, ⟨⟩⟩
      exact h
    · intro h
      exact ⟨(b, a), h, rfl⟩
  · intro p hp
    obtain ⟨⟨a, b⟩, hab, rfl⟩ := List.mem_map.mp hp
    have := (mem_toList hr).mp hab
    exact ⟨this.2.1, this.1⟩

/-! ## Relations given by rows -/

section Rows

variable {row : Nat → NatSet} (bounded : ∀ a b, (row a).contains b = true → b < n)

include bounded

theorem valid_ofRows : (ofRows n row).Valid := by
  intro i hi
  rw [ofRows, NatSet.contains_ofBlocks, Nat.zero_add, Bool.and_eq_true] at hi
  · have inside : i / n < n := by
      by_cases h : i / n < n
      · exact h
      · rw [if_neg h, NatSet.contains_empty] at hi
        cases hi.2
    have hn : 0 < n := Nat.zero_lt_of_lt inside
    exact (Nat.div_lt_iff_lt_mul hn).mp inside
  · intro a b h
    split at h
    · exact bounded a b h
    · simp at h

/-- The pairs of a relation that is given by its rows. -/
theorem relates_ofRows : (ofRows n row).Relates a b ↔ a < n ∧ (row a).contains b = true := by
  constructor
  · rintro ⟨ha, hb, h⟩
    rw [contains_ofRows bounded hb, Bool.and_eq_true] at h
    exact ⟨ha, h.2⟩
  · rintro ⟨ha, h⟩
    have hb := bounded a b h
    refine ⟨ha, hb, ?_⟩
    rw [contains_ofRows bounded hb, Bool.and_eq_true]
    exact ⟨by simpa using ha, h⟩

end Rows

theorem contains_getD_rows :
    (r.rows.getD a ∅).contains b = true ↔ r.Relates a b := by
  rw [getD_rows, Relates]
  by_cases ha : a < r.objectCount <;> simp [ha]

theorem lt_of_contains_getD_rows (h : (r.rows.getD a ∅).contains b = true) :
    b < r.objectCount :=
  (contains_getD_rows.mp h).2.1

section MapRows

variable {f : NatSet → NatSet}
  (bounded : ∀ a b, (f (r.rows.getD a ∅)).contains b = true → b < r.objectCount)

include bounded

theorem valid_mapRows : (r.mapRows f).Valid := valid_ofRows bounded

theorem relates_mapRows :
    (r.mapRows f).Relates a b ↔ a < r.objectCount ∧ (f (r.rows.getD a ∅)).contains b = true :=
  relates_ofRows bounded

end MapRows

/-! ## Closure -/

/-- The object `b` is in row `a`. -/
def Entry (rows : Array NatSet) (a b : Nat) : Prop := (rows.getD a ∅).contains b = true

theorem entry_closeThrough {rows : Array NatSet} {k : Nat} :
    Entry (closeThrough rows k) a b ↔ Entry rows a b ∨ Entry rows a k ∧ Entry rows k b := by
  unfold Entry closeThrough
  by_cases ha : a < rows.size
  · simp only [Array.getD_eq_getD_getElem?, Array.getElem?_map, Array.getElem?_eq_getElem ha,
      Option.map_some, Option.getD_some]
    by_cases hk : (rows[a]).contains k = true <;> simp [hk]
  · simp [Array.getD_eq_getD_getElem?, ha]

/-- **After the rounds for `ks` the rows hold the ends of the paths through `ks`.** -/
theorem entry_foldl_iff (r : ObjectRelation) (ks : List Nat) :
    Entry (ks.foldl closeThrough r.rows) a b ↔ Through r.Relates ks a b := by
  induction ks using List.reverseRecOn generalizing a b with
  | nil =>
    constructor
    · exact fun h => .single (contains_getD_rows.mp h)
    · rintro (h | ⟨-, hm, -⟩)
      · exact contains_getD_rows.mpr h
      · cases hm
  | append_singleton ks k ih =>
    rw [List.foldl_append, List.foldl_cons, List.foldl_nil, entry_closeThrough,
      through_append_singleton, ih, ih, ih]

theorem transGen_bounded (h : Relation.TransGen r.Relates a b) :
    a < r.objectCount ∧ b < r.objectCount := by
  constructor
  · obtain ⟨c, h, -⟩ := Relation.TransGen.head'_iff.mp h
    exact h.1
  · obtain ⟨c, -, h⟩ := Relation.TransGen.tail'_iff.mp h
    exact h.2.1

/-- When all objects are stations, every path is one through stations. -/
theorem entry_closed_iff :
    Entry ((List.range r.objectCount).foldl closeThrough r.rows) a b ↔
      Relation.TransGen r.Relates a b := by
  rw [entry_foldl_iff]
  constructor
  · exact Through.transGen
  · intro h
    induction h with
    | single h => exact .single h
    | tail _ h ih => exact .tail ih (List.mem_range.mpr h.1) h

theorem closed_bounded : ∀ a b,
    (((List.range r.objectCount).foldl closeThrough r.rows).getD a ∅).contains b = true →
      b < r.objectCount :=
  fun _ _ h => (transGen_bounded (entry_closed_iff.mp h)).2

theorem valid_transitiveClosure : r.transitiveClosure.Valid := valid_ofRows closed_bounded

/-- The pairs of the closure are those that a nonempty path joins. -/
theorem relates_transitiveClosure :
    r.transitiveClosure.Relates a b ↔ Relation.TransGen r.Relates a b := by
  rw [transitiveClosure, relates_ofRows closed_bounded]
  constructor
  · rintro ⟨-, h⟩
    exact entry_closed_iff.mp h
  · intro h
    exact ⟨(transGen_bounded h).1, entry_closed_iff.mpr h⟩

section Identity

variable {d : ObjectSet}

theorem identity_bounded (hd : ∀ a, d.contains a = true → a < d.objectCount) : ∀ a b,
    (if d.contains a then NatSet.empty.insert a else ∅ : NatSet).contains b = true →
      b < d.objectCount := by
  intro a b h
  split at h
  · next ha =>
    rw [NatSet.contains_insert, Bool.or_eq_true, decide_eq_true_eq] at h
    rcases h with h | rfl
    · exact absurd h (by rw [show NatSet.empty.contains b = false from NatSet.contains_empty]; simp)
    · exact hd a ha
  · simp at h

theorem valid_identity (hd : ∀ a, d.contains a = true → a < d.objectCount) :
    (identity d).Valid :=
  valid_ofRows (identity_bounded hd)

theorem relates_identity (hd : ∀ a, d.contains a = true → a < d.objectCount) :
    (identity d).Relates a b ↔ d.contains a = true ∧ a = b := by
  rw [identity, relates_ofRows (identity_bounded hd)]
  have empty : NatSet.empty.contains b = false := NatSet.contains_empty
  by_cases ha : d.contains a = true
  · have := hd a ha
    simp [ha, this, empty]
  · simp [ha]

end Identity

theorem valid_reflexiveTransitiveClosure : r.reflexiveTransitiveClosure.Valid :=
  valid_transitiveClosure.union (valid_identity (by simp [ObjectSet.full, ObjectSet.contains])) rfl

/-- The pairs of the reflexive closure are those that a path joins. -/
theorem relates_reflexiveTransitiveClosure :
    r.reflexiveTransitiveClosure.Relates a b ↔
      Relation.TransGen r.Relates a b ∨ a < r.objectCount ∧ a = b := by
  have counts : (identity (ObjectSet.full r.objectCount)).objectCount =
      r.transitiveClosure.objectCount := rfl
  rw [reflexiveTransitiveClosure, relates_union counts, relates_transitiveClosure,
    relates_identity (by simp [ObjectSet.full, ObjectSet.contains])]
  simp [ObjectSet.full, ObjectSet.contains]

end ObjectRelation

end DescLogic
