import DescLogic.Proofs.Generator.Correspondence
import Mathlib.Data.List.Nodup
import Mathlib.Data.List.ProdSigma
/-!
# Choices of operands

The choices of operands that are enumerated for `n` are those whose complexities add up to `n`, and
each is listed once. Levels without elements are passed over, which makes no difference to what
loops over all levels would list.

* `toList_pairs`, `toList_commutativePairs`, `toList_triples`: the loops.
* `choices_listed_once`: what is listed if no element is held twice.
-/

namespace DescLogic.Generator

variable {α β γ δ : Type} {left b : Buckets α} {right : Buckets β} {first : Buckets α}
  {second : Buckets β} {third : Buckets γ} {i m n : Nat} {x y : α} {l : List α}

/-! ## Loops -/

/-- The numbers up to a bound, of which a test lets the first ones pass. -/
theorem filter_range' {p : Nat → Bool} (le : m ≤ n)
    (hp : ∀ i, 1 ≤ i → i ≤ n → (p i = true ↔ i ≤ m)) :
    (List.range' 1 n).filter p = List.range' 1 m := by
  have split : List.range' 1 n = List.range' 1 m ++ List.range' (1 + m) (n - m) := by
    rw [List.range'_append_1, Nat.add_sub_cancel' le]
  have pass : (List.range' 1 m).filter p = List.range' 1 m := by
    refine List.filter_eq_self.mpr fun i hi => ?_
    rw [List.mem_range'_1] at hi
    exact (hp i hi.1 (by omega)).mpr (by omega)
  have stop : (List.range' (1 + m) (n - m)).filter p = [] := by
    refine List.filter_eq_nil_iff.mpr fun i hi => ?_
    rw [List.mem_range'_1] at hi
    exact mt (hp i (by omega) (by omega)).mp (by omega)
  rw [split, List.filter_append, pass, stop, List.append_nil]

theorem toList_pairs :
    (pairs left right n).toList =
      (List.range' 1 (n - 1)).flatMap fun i => left.level i ×ˢ right.level (n - i) := by
  have all := Buckets.flatMap_occupied (b := left) (n := n) (fun _ => true)
    (f := fun i => left.level i ×ˢ right.level (n - i)) fun i vacant => by simp [vacant]
  rw [List.filter_true, List.filter_true] at all
  simp only [pairs, LazyList.toList_flatMap, LazyList.toList_ofList, LazyList.toList_map]
  exact all

theorem product_product {m : List β} {k : List γ} :
    (l.flatMap fun a => m.flatMap fun b => k.map fun c => (a, b, c)) = l ×ˢ (m ×ˢ k) := by
  simp only [SProd.sprod, List.product, List.map_flatMap, List.map_map]
  rfl

theorem toList_triples :
    (triples first second third n).toList =
      (List.range' 1 (n - 1)).flatMap fun i => (List.range' 1 (n - i - 1)).flatMap fun j =>
        first.level i ×ˢ (second.level j ×ˢ third.level (n - i - j)) := by
  have inner (i : Nat) := Buckets.flatMap_occupied (b := second) (n := n) (fun j => j < n - i)
    (f := fun j => first.level i ×ˢ (second.level j ×ˢ third.level (n - i - j)))
    fun j vacant => by simp [vacant]
  have below (i : Nat) : (List.range' 1 (n - 1)).filter (fun j => j < n - i) =
      List.range' 1 (n - i - 1) :=
    filter_range' (by omega) fun j _ _ => by rw [decide_eq_true_eq]; omega
  have outer := Buckets.flatMap_occupied (b := first) (n := n) (fun _ => true)
    (f := fun i => (List.range' 1 (n - i - 1)).flatMap fun j =>
      first.level i ×ˢ (second.level j ×ˢ third.level (n - i - j))) fun i vacant => by simp [vacant]
  rw [List.filter_true, List.filter_true] at outer
  simp only [triples, LazyList.toList_flatMap, LazyList.toList_ofList, LazyList.toList_map,
    product_product, inner, below]
  exact outer

/-- An element is paired with those after its place. -/
theorem toList_laterPairs :
    (laterPairs l).toList =
      l.zipIdx.flatMap fun p => (l.drop (p.2 + 1)).map fun y => (p.1, y) := by
  induction l with
  | nil => rfl
  | cons a l ih => simp [laterPairs, ih, List.zipIdx_succ, List.flatMap_map]

/-- The pairs whose first member is of complexity `i`. In the middle, where both members are of the
same complexity, those up to the place of the first are left out. -/
def unorderedLevel (b : Buckets α) (n i : Nat) : List (α × α) :=
  (b.level i).zipIdx.flatMap fun p =>
    ((b.level (n - i)).drop (if i = n - i then p.2 + 1 else 0)).map fun y => (p.1, y)

theorem unorderedLevel_eq :
    unorderedLevel b n i = if i = n - i then (laterPairs (b.level i)).toList
      else b.level i ×ˢ b.level (n - i) := by
  unfold unorderedLevel
  by_cases middle : i = n - i
  · rw [if_pos middle, toList_laterPairs, ← middle]
    simp
  · have places := List.flatMap_map (l := (b.level i).zipIdx) Prod.fst
      fun x => (b.level (n - i)).map fun y => (x, y)
    rw [List.zipIdx_map_fst] at places
    simp only [if_neg middle, List.drop_zero, ← places]
    rfl

/-- The first members are of complexities up to the half of `n`. -/
theorem toList_commutativePairs :
    (commutativePairs b n).toList = (List.range' 1 (n / 2)).flatMap (unorderedLevel b n) := by
  have half : (List.range' 1 (n - 1)).filter (fun i => i ≤ n - i) = List.range' 1 (n / 2) :=
    filter_range' (by omega) fun i _ _ => by rw [decide_eq_true_eq]; omega
  have all := Buckets.flatMap_occupied (b := b) (n := n) (fun i => i ≤ n - i)
    (f := unorderedLevel b n) fun i vacant => by simp [unorderedLevel, vacant]
  rw [← half, ← all]
  simp only [commutativePairs, LazyList.toList_flatMap, LazyList.toList_ofList]
  refine List.flatMap_congr fun i _ => ?_
  rw [unorderedLevel_eq, apply_ite LazyList.toList]
  simp only [LazyList.toList_flatMap, LazyList.toList_ofList, LazyList.toList_map]
  rfl

/-! ## Choices listed once -/

/-- The element has the complexity. Complexities begin with `1`: nothing is put at level `0`. -/
def Buckets.HasComplexity (b : Buckets α) (x : α) (n : Nat) : Prop := 1 ≤ n ∧ x ∈ b.level n

/-- The complexities of two elements add up to `n`. -/
def AddUp (left : Buckets α) (right : Buckets β) (n : Nat) (x : α) (y : β) : Prop :=
  ∃ i j, left.HasComplexity x i ∧ right.HasComplexity y j ∧ i + j = n

/-- The complexities of three elements add up to `n`. -/
def AddUp₃ (first : Buckets α) (second : Buckets β) (third : Buckets γ) (n : Nat) (x : α) (y : β)
    (z : γ) : Prop :=
  ∃ i j k, first.HasComplexity x i ∧ second.HasComplexity y j ∧ third.HasComplexity z k ∧
    i + j + k = n

/-- The list holds what has the property, and holds it once. -/
structure ListsOnce (l : List δ) (P : δ → Prop) : Prop where
  /-- Nothing is listed twice. -/
  nodup : l.Nodup
  /-- What has the property is listed, and nothing else. -/
  mem_iff : ∀ {d}, d ∈ l ↔ P d

/-- The list holds one order of each pair that has the property, and holds it once. -/
structure ListsUnordered (l : List (α × α)) (P : α → α → Prop) : Prop where
  /-- Nothing is listed twice. -/
  nodup : l.Nodup
  /-- What is listed has the property. -/
  of_mem : ∀ {x y}, (x, y) ∈ l → P x y
  /-- A pair that has the property is listed in one order and not in the other. -/
  mem_iff : ∀ {x y}, P x y → ((x, y) ∈ l ↔ (y, x) ∉ l)

/-- Lists of which no two share a member, one after the other. -/
theorem nodup_flatMap_of_unique {ι : Type} {is : List ι} {f : ι → List δ} (nodup : is.Nodup)
    (each : ∀ i, (f i).Nodup) (unique : ∀ {i j d}, d ∈ f i → d ∈ f j → i = j) :
    (is.flatMap f).Nodup := by
  rw [List.nodup_flatMap]
  exact ⟨fun i _ => each i, nodup.imp fun apart d hi hj => apart (unique hi hj)⟩

/-! ## Pairs -/

theorem mem_pairs_iff {y : β} : (x, y) ∈ (pairs left right n).toList ↔ AddUp left right n x y := by
  rw [mem_pairs]
  constructor
  · rintro ⟨i, hi, hlt, hx, hy⟩
    exact ⟨i, n - i, ⟨hi, hx⟩, ⟨by omega, hy⟩, by omega⟩
  · rintro ⟨i, j, ⟨hi, hx⟩, ⟨hj, hy⟩, rfl⟩
    exact ⟨i, hi, by omega, hx, by rwa [Nat.add_sub_cancel_left]⟩

theorem listsOnce_pairs (hl : left.Single) (hr : right.Single) :
    ListsOnce (pairs left right n).toList fun p => AddUp left right n p.1 p.2 where
  nodup := by
    rw [toList_pairs]
    refine nodup_flatMap_of_unique List.nodup_range'
      (fun i => (hl.nodup i).product (hr.nodup (n - i))) fun {_ _ p} hi hj => ?_
    exact hl.unique (List.mem_product.mp hi).1 (List.mem_product.mp hj).1
  mem_iff := mem_pairs_iff

theorem listsOnce_distinctPairs [DecidableEq α] (hb : b.Single) :
    ListsOnce (distinctPairs b n).toList fun p => p.1 ≠ p.2 ∧ AddUp b b n p.1 p.2 where
  nodup := by
    rw [distinctPairs, LazyList.toList_filter]
    exact (listsOnce_pairs hb hb).nodup.filter _
  mem_iff := by
    rintro ⟨x, y⟩
    rw [mem_distinctPairs, mem_pairs_iff, and_comm]

/-! ## Unordered pairs -/

theorem nodup_laterPairs (hl : l.Nodup) : (laterPairs l).toList.Nodup := by
  induction l with
  | nil => exact List.nodup_nil
  | cons a l ih =>
    obtain ⟨ha, hl⟩ := List.nodup_cons.mp hl
    simp only [laterPairs, LazyList.toList_append, LazyList.toList_map, LazyList.toList_ofList]
    refine (hl.map fun _ _ h => (Prod.mk.inj h).2).append (ih hl) fun p hp later => ?_
    obtain ⟨y, -, rfl⟩ := List.mem_map.mp hp
    exact ha (of_mem_laterPairs hl later).1

/-- Of two elements one comes later. -/
theorem swap_not_mem_laterPairs (hl : l.Nodup) (h : (x, y) ∈ (laterPairs l).toList) :
    (y, x) ∉ (laterPairs l).toList := by
  induction l with
  | nil => cases h
  | cons a l ih =>
    obtain ⟨ha, hl⟩ := List.nodup_cons.mp hl
    simp only [laterPairs, LazyList.toList_append, LazyList.toList_map, LazyList.toList_ofList,
      List.mem_append, List.mem_map, Prod.mk.injEq] at h ⊢
    rintro (⟨_, hx, rfl, rfl⟩ | swapped) <;> rcases h with ⟨_, hy, rfl, rfl⟩ | h
    · exact ha hx
    · exact ha (of_mem_laterPairs hl h).2.1
    · exact ha (of_mem_laterPairs hl swapped).2.1
    · exact ih hl h swapped

theorem mem_levels_of_mem_unorderedLevel (hb : b.Single) (h : (x, y) ∈ unorderedLevel b n i) :
    x ∈ b.level i ∧ y ∈ b.level (n - i) := by
  rw [unorderedLevel_eq] at h
  split at h
  · next middle =>
    obtain ⟨hx, hy, -⟩ := of_mem_laterPairs (hb.nodup i) h
    exact ⟨hx, middle ▸ hy⟩
  · exact List.mem_product.mp h

theorem nodup_unorderedLevel (hb : b.Single) : (unorderedLevel b n i).Nodup := by
  rw [unorderedLevel_eq]
  split
  · exact nodup_laterPairs (hb.nodup i)
  · exact (hb.nodup i).product (hb.nodup (n - i))

/-- A pair is not listed in both orders: the levels of the one are those of the other, so that both
are in the middle. -/
theorem swap_not_mem_commutativePairs (hb : b.Single)
    (h : (x, y) ∈ (commutativePairs b n).toList) : (y, x) ∉ (commutativePairs b n).toList := by
  intro swapped
  rw [toList_commutativePairs, List.mem_flatMap] at h swapped
  obtain ⟨i, hi, h⟩ := h
  obtain ⟨j, hj, swapped⟩ := swapped
  rw [List.mem_range'_1] at hi hj
  obtain ⟨hx, hy⟩ := mem_levels_of_mem_unorderedLevel hb h
  obtain ⟨hy', hx'⟩ := mem_levels_of_mem_unorderedLevel hb swapped
  have left := hb.unique hx hx'
  have right := hb.unique hy' hy
  have middle : i = n - i := by omega
  obtain rfl : i = j := by omega
  rw [unorderedLevel_eq, if_pos middle] at h swapped
  exact swap_not_mem_laterPairs (hb.nodup i) h swapped

theorem listsUnordered_commutativePairs (hb : b.Single) :
    ListsUnordered (commutativePairs b n).toList fun x y => x ≠ y ∧ AddUp b b n x y where
  nodup := by
    rw [toList_commutativePairs]
    refine nodup_flatMap_of_unique List.nodup_range' (fun i => nodup_unorderedLevel hb)
      fun {_ _ p} hi hj => ?_
    exact hb.unique (mem_levels_of_mem_unorderedLevel hb hi).1
      (mem_levels_of_mem_unorderedLevel hb hj).1
  of_mem := by
    intro x y h
    obtain ⟨listed, apart⟩ := of_mem_commutativePairs hb h
    exact ⟨apart, mem_pairs_iff.mp listed⟩
  mem_iff := by
    rintro x y ⟨apart, sum⟩
    constructor
    · exact swap_not_mem_commutativePairs hb
    · exact (mem_commutativePairs (mem_pairs_iff.mpr sum) apart).resolve_right

/-! ## Triples -/

theorem mem_triples_iff {y : β} {z : γ} :
    (x, y, z) ∈ (triples first second third n).toList ↔ AddUp₃ first second third n x y z := by
  rw [mem_triples]
  constructor
  · rintro ⟨i, j, hi, hj, hlt, hx, hy, hz⟩
    exact ⟨i, j, n - i - j, ⟨hi, hx⟩, ⟨hj, hy⟩, ⟨by omega, hz⟩, by omega⟩
  · rintro ⟨i, j, k, ⟨hi, hx⟩, ⟨hj, hy⟩, ⟨hk, hz⟩, rfl⟩
    refine ⟨i, j, hi, hj, by omega, hx, hy, ?_⟩
    rwa [show i + j + k - i - j = k by omega]

theorem listsOnce_triples (h₁ : first.Single) (h₂ : second.Single) (h₃ : third.Single) :
    ListsOnce (triples first second third n).toList fun t =>
      AddUp₃ first second third n t.1 t.2.1 t.2.2 where
  nodup := by
    rw [toList_triples]
    refine nodup_flatMap_of_unique List.nodup_range' (fun i => ?_) fun {_ _ t} hi hj => ?_
    · refine nodup_flatMap_of_unique List.nodup_range' (fun j => ?_) fun {_ _ t} hi hj => ?_
      · exact (h₁.nodup i).product ((h₂.nodup j).product (h₃.nodup (n - i - j)))
      · have hi := List.mem_product.mp (List.mem_product.mp hi).2
        have hj := List.mem_product.mp (List.mem_product.mp hj).2
        exact h₂.unique hi.1 hj.1
    · obtain ⟨_, -, hi⟩ := List.mem_flatMap.mp hi
      obtain ⟨_, -, hj⟩ := List.mem_flatMap.mp hj
      exact h₁.unique (List.mem_product.mp hi).1 (List.mem_product.mp hj).1
  mem_iff := mem_triples_iff

/-! ## All choices -/

/-- What is listed for `n`. -/
structure Choices [DecidableEq α] (first : Buckets α) (second : Buckets β) (third : Buckets γ)
    (n : Nat) : Prop where
  /-- Pairs whose complexities add up. -/
  pairs : ListsOnce (pairs first second n).toList fun p => AddUp first second n p.1 p.2
  /-- Such pairs of different elements. -/
  distinct : ListsOnce (distinctPairs first n).toList fun p =>
    p.1 ≠ p.2 ∧ AddUp first first n p.1 p.2
  /-- Such pairs in one order. -/
  unordered : ListsUnordered (commutativePairs first n).toList fun x y =>
    x ≠ y ∧ AddUp first first n x y
  /-- Triples whose complexities add up. -/
  triples : ListsOnce (triples first second third n).toList fun t =>
    AddUp₃ first second third n t.1 t.2.1 t.2.2

/-- **Each choice of operands is listed once.** -/
theorem choices_listed_once [DecidableEq α] (h₁ : first.Single) (h₂ : second.Single)
    (h₃ : third.Single) : Choices first second third n where
  pairs := listsOnce_pairs h₁ h₂
  distinct := listsOnce_distinctPairs h₁
  unordered := listsUnordered_commutativePairs h₁
  triples := listsOnce_triples h₁ h₂ h₃

/-- Three elements of complexity `1` and one of complexity `2`. -/
theorem choices_listed_once_four :
    let b : Buckets Nat := (((Buckets.empty.push 1 1).push 1 2).push 1 3).push 2 4
    b.Single ∧ (commutativePairs b 2).toList = [(1, 2), (1, 3), (2, 3)] ∧
      (commutativePairs b 3).toList = [(1, 4), (2, 4), (3, 4)] ∧ Choices b b b 3 := by
  intro b
  have one : b.level 1 = [1, 2, 3] := by simp [b, Buckets.level_push]
  have two : b.level 2 = [4] := by simp [b, Buckets.level_push]
  have single : b.Single := by
    refine Buckets.Tidy.single ?_
    iterate 4 refine Buckets.Tidy.push ?_ (by decide) fun n => ?_
    · exact Buckets.tidy_empty
    all_goals
      simp only [Buckets.mem_level_push, Buckets.level_empty]
      simp
  refine ⟨single, ?_, ?_, choices_listed_once single single single⟩
  · rw [toList_commutativePairs]
    simp [unorderedLevel, one]
  · rw [toList_commutativePairs]
    simp [unorderedLevel, one, two]

end DescLogic.Generator
