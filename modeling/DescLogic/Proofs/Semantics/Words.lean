import DescLogic.Proofs.Semantics.Distances
import Mathlib.Algebra.Ring.Int.Defs
/-!
# Distances in words

A distance is kept in a word of 32 bits with a sign, where the greatest word stands for
`unreachable`. Sums of such words are compared with sums of numbers: on the way from the one to the
other no sum is wrapped around.

* `Word.Shows`: the number that a word shows, and what addition and comparison do to it.
* `Word.saturatingSum`: adding words up until the sum is the greatest word.
* `Word.isSum_saturatingSum`: the sum of words that are not negative is exact below the greatest
  word and the greatest word otherwise, however the terms are ordered and grouped.
-/

namespace DescLogic

/-- A word of 32 bits with a sign. -/
abbrev Word := Int32

/-- The word for a distance that is not there, the greatest one. -/
def Word.unreachable : Word := Int32.maxValue

/-- The sum, or the word nearest to it if it is not a word. -/
def Word.clampedAdd (x y : Word) : Word := Int32.ofIntClamp (x.toInt + y.toInt)

/-- The sum of two distances. There is none if one of them is not there. -/
def Word.saturatingAdd (x y : Word) : Word :=
  if x = Word.unreachable ∨ y = Word.unreachable then Word.unreachable else x.clampedAdd y

/-- Adds terms to a sum, one after the other. Once the sum is `unreachable` the other terms are not
looked at. -/
def Word.addTerms (sum : Word) : List Word → Word
  | [] => sum
  | x :: rest =>
    let next := sum.saturatingAdd x
    if next = Word.unreachable then next else next.addTerms rest

/-- The sum of the terms. -/
def Word.saturatingSum (terms : List Word) : Word := Word.addTerms 0 terms

/-- The least of the terms, or `unreachable` if there is none. -/
def Word.least (terms : List Word) : Word := terms.foldl min Word.unreachable

/-- The sum, if it is a word. -/
def Word.add? (x y : Word) : Option Word :=
  if (x + y).toInt = x.toInt + y.toInt then some (x + y) else none

namespace Word

variable {x y s : Word} {j k m : Nat} {terms : List Word}

/-! ## Numbers that words show -/

/-- The word shows the number. -/
def Shows (x : Word) (k : Nat) : Prop := x.toInt = k

theorem toInt_unreachable : Word.unreachable.toInt = DescLogic.unreachable := by decide

theorem shows_unreachable : Word.unreachable.Shows DescLogic.unreachable := toInt_unreachable

theorem shows_zero : (0 : Word).Shows 0 := rfl

theorem shows_one : (1 : Word).Shows 1 := rfl

theorem shows_toNat (h : 0 ≤ x) : x.Shows x.toNatClampNeg := by
  have nonneg : 0 ≤ x.toInt := Int32.le_iff_toInt_le.mp h
  rw [Shows, ← Int32.toNat_toInt, Int.toNat_of_nonneg nonneg]

namespace Shows

theorem le (h : x.Shows k) : k ≤ DescLogic.unreachable := by
  have bound : x.toInt ≤ Word.unreachable.toInt := Int32.toInt_le x
  rw [toInt_unreachable, h] at bound
  omega

theorem unique (hj : x.Shows j) (hk : x.Shows k) : j = k := Int.ofNat_inj.mp (hj.symm.trans hk)

theorem eq (hx : x.Shows k) (hy : y.Shows k) : x = y := Int32.toInt_inj.mp (hx.trans hy.symm)

theorem toNat_eq (h : x.Shows k) : x.toNatClampNeg = k := by
  rw [← Int32.toNat_toInt, h, Int.toNat_natCast]

theorem nonneg (h : x.Shows k) : 0 ≤ x := by
  rw [Int32.le_iff_toInt_le, h]
  exact Int.natCast_nonneg k

theorem eq_unreachable_iff (h : x.Shows k) :
    x = Word.unreachable ↔ k = DescLogic.unreachable := by
  constructor
  · rintro rfl
    exact h.unique shows_unreachable
  · rintro rfl
    exact h.eq shows_unreachable

theorem lt_iff (hx : x.Shows j) (hy : y.Shows k) : x < y ↔ j < k := by
  rw [Int32.lt_iff_toInt_lt, hx, hy, Int.ofNat_lt]

theorem minimum (hx : x.Shows j) (hy : y.Shows k) : (min x y).Shows (min j k) := by
  have le : x ≤ y ↔ j ≤ k := by rw [Int32.le_iff_toInt_le, hx, hy, Int.ofNat_le]
  change (if x ≤ y then x else y).Shows _
  by_cases h : j ≤ k
  · rw [if_pos (le.mpr h), Nat.min_eq_left h]
    exact hx
  · rw [if_neg (mt le.mp h), Nat.min_eq_right (by omega)]
    exact hy

/-- The word nearest to the sum shows the sum of the numbers, capped. -/
theorem clampedAdd (hx : x.Shows j) (hy : y.Shows k) :
    (x.clampedAdd y).Shows (min (j + k) DescLogic.unreachable) := by
  have sum : x.toInt + y.toInt = (j + k : Nat) := by rw [hx, hy, Int.natCast_add]
  have above : Int32.minValue.toInt ≤ ((j + k : Nat) : Int) := by
    rw [Int32.toInt_minValue]
    omega
  have limit : Int32.maxValue.toInt = DescLogic.unreachable := toInt_unreachable
  unfold Word.clampedAdd
  rw [sum]
  by_cases word : ((j + k : Nat) : Int) ≤ Int32.maxValue.toInt
  · rw [Nat.min_eq_left (by omega)]
    exact Int32.toInt_ofIntClamp above word
  · rw [Nat.min_eq_right (by omega), Int32.ofIntClamp, dif_pos above, dif_neg word]
    exact shows_unreachable

/-- The sum of distances is the sum of the numbers, capped. -/
theorem saturatingAdd (hx : x.Shows j) (hy : y.Shows k) :
    (x.saturatingAdd y).Shows (DescLogic.saturatingAdd j k) := by
  unfold Word.saturatingAdd DescLogic.saturatingAdd
  by_cases missing : x = Word.unreachable ∨ y = Word.unreachable
  · rw [if_pos missing]
    rw [hx.eq_unreachable_iff, hy.eq_unreachable_iff] at missing
    rw [Nat.min_eq_right (by omega)]
    exact shows_unreachable
  · rw [if_neg missing]
    exact hx.clampedAdd hy

/-- A sum that is not above the greatest word is a word. -/
theorem exists_add? (hx : x.Shows j) (hy : y.Shows k) (h : j + k ≤ DescLogic.unreachable) :
    ∃ z, x.add? y = some z ∧ z.Shows (j + k) := by
  have fits : (x + y).toInt = x.toInt + y.toInt := by
    have limit : DescLogic.unreachable = 2147483647 := rfl
    rw [Int32.toInt_add, hx, hy]
    exact Int.bmod_eq_of_le (by omega) (by omega)
  refine ⟨x + y, if_pos fits, ?_⟩
  rw [Shows, fits, hx, hy, Int.natCast_add]

end Shows

/-- The least of the words shows the least of the numbers. -/
theorem shows_least {l : List Nat} {f : Nat → Word} {g : Nat → Nat}
    (h : ∀ a ∈ l, (f a).Shows (g a)) :
    (Word.least (l.map f)).Shows (DescLogic.least (l.map g)) := by
  have fold : ∀ {x k}, x.Shows k → ((l.map f).foldl min x).Shows ((l.map g).foldl min k) := by
    induction l with
    | nil => exact id
    | cons a l ih =>
      rw [List.forall_mem_cons] at h
      exact fun hx => ih h.2 (hx.minimum h.1)
  exact fold shows_unreachable

/-! ## Sums -/

/-- Nothing is added to a distance that is not there. -/
theorem foldl_unreachable :
    terms.foldl Word.saturatingAdd Word.unreachable = Word.unreachable := by
  induction terms with
  | nil => rfl
  | cons x rest ih => exact ih

/-- Stopping early makes no difference, whatever the terms are. -/
theorem addTerms_eq_foldl : s.addTerms terms = terms.foldl Word.saturatingAdd s := by
  induction terms generalizing s with
  | nil => rfl
  | cons x rest ih =>
    rw [addTerms, List.foldl_cons]
    by_cases last : s.saturatingAdd x = Word.unreachable
    · rw [if_pos last, last, foldl_unreachable]
    · rw [if_neg last, ih]

/-- A sum is not there if one of its terms is not, whatever the others are. -/
theorem saturatingSum_eq_unreachable (missing : Word.unreachable ∈ terms) :
    Word.saturatingSum terms = Word.unreachable := by
  obtain ⟨front, rest, rfl⟩ := List.append_of_mem missing
  have here (s : Word) : s.saturatingAdd Word.unreachable = Word.unreachable := if_pos (.inr rfl)
  rw [Word.saturatingSum, addTerms_eq_foldl, List.foldl_append, List.foldl_cons, here,
    foldl_unreachable]

theorem shows_foldl (hs : s.Shows m) (nonneg : ∀ x ∈ terms, 0 ≤ x) :
    (terms.foldl Word.saturatingAdd s).Shows
      ((terms.map Int32.toNatClampNeg).foldl DescLogic.saturatingAdd m) := by
  induction terms generalizing s m with
  | nil => exact hs
  | cons x rest ih =>
    rw [List.forall_mem_cons] at nonneg
    exact ih (hs.saturatingAdd (shows_toNat nonneg.1)) nonneg.2

/-- The sum of words shows the sum of the numbers that they show. -/
theorem shows_saturatingSum (nonneg : ∀ x ∈ terms, 0 ≤ x) :
    (Word.saturatingSum terms).Shows
      (DescLogic.saturatingSum (terms.map Int32.toNatClampNeg)) := by
  rw [Word.saturatingSum, addTerms_eq_foldl]
  exact shows_foldl shows_zero nonneg

/-- Numbers that add up to the same may be summed in any order. -/
theorem saturatingSum_perm {l l' : List Nat} (h : l.Perm l') :
    DescLogic.saturatingSum l = DescLogic.saturatingSum l' := by
  rw [saturatingSum_eq, saturatingSum_eq, h.sum_eq]

/-- Numbers may be summed in groups. -/
theorem saturatingSum_flatten {groups : List (List Nat)} :
    DescLogic.saturatingSum (groups.map DescLogic.saturatingSum) =
      DescLogic.saturatingSum groups.flatten := by
  have capped : groups.map DescLogic.saturatingSum =
      (groups.map List.sum).map fun k => min k DescLogic.unreachable := by
    rw [List.map_map]
    exact List.map_congr_left fun _ _ => saturatingSum_eq
  rw [capped, saturatingSum_map_min, saturatingSum_eq, saturatingSum_eq, List.sum_flatten]

theorem nonneg_saturatingSum (nonneg : ∀ x ∈ terms, 0 ≤ x) : 0 ≤ Word.saturatingSum terms :=
  (shows_saturatingSum nonneg).nonneg

/-- Words that are not negative may be summed in any order. -/
theorem saturatingSum_reorder (nonneg : ∀ x ∈ terms, 0 ≤ x) {terms' : List Word}
    (same : terms'.Perm terms) : Word.saturatingSum terms' = Word.saturatingSum terms := by
  have reordered := shows_saturatingSum fun x hx => nonneg x (same.mem_iff.mp hx)
  rw [saturatingSum_perm (same.map Int32.toNatClampNeg)] at reordered
  exact reordered.eq (shows_saturatingSum nonneg)

/-- They may be summed in any groups, too. -/
theorem saturatingSum_regroup (nonneg : ∀ x ∈ terms, 0 ≤ x) {groups : List (List Word)}
    (same : groups.flatten.Perm terms) :
    Word.saturatingSum (groups.map Word.saturatingSum) = Word.saturatingSum terms := by
  have inside : ∀ g ∈ groups, ∀ x ∈ g, 0 ≤ x := fun g hg x hx =>
    nonneg x (same.mem_iff.mp (List.mem_flatten.mpr ⟨g, hg, hx⟩))
  have outside : ∀ x ∈ groups.map Word.saturatingSum, 0 ≤ x :=
    List.forall_mem_map.mpr fun g hg => nonneg_saturatingSum (inside g hg)
  have numbers : (groups.map Word.saturatingSum).map Int32.toNatClampNeg =
      (groups.map (List.map Int32.toNatClampNeg)).map DescLogic.saturatingSum := by
    rw [List.map_map, List.map_map]
    exact List.map_congr_left fun g hg => (shows_saturatingSum (inside g hg)).toNat_eq
  have grouped := shows_saturatingSum outside
  rw [numbers, saturatingSum_flatten, ← List.map_flatten,
    saturatingSum_perm (same.map Int32.toNatClampNeg)] at grouped
  exact grouped.eq (shows_saturatingSum nonneg)

/-- The numbers that words show add up to their sum. -/
theorem sum_toInt (nonneg : ∀ x ∈ terms, 0 ≤ x) :
    (terms.map Int32.toInt).sum = ((terms.map Int32.toNatClampNeg).sum : Nat) := by
  induction terms with
  | nil => rfl
  | cons x rest ih =>
    rw [List.forall_mem_cons] at nonneg
    have first : x.toInt = x.toNatClampNeg := shows_toNat nonneg.1
    rw [List.map_cons, List.map_cons, List.sum_cons, List.sum_cons, ih nonneg.2, first,
      Int.natCast_add]

/-- What the sum of words is as a sum. -/
structure IsSum (terms : List Word) (sum : Word) : Prop where
  /-- It is the exact sum if that is below the greatest word, and the greatest word otherwise. -/
  value : sum.toInt = if (terms.map Int32.toInt).sum < Word.unreachable.toInt
    then (terms.map Int32.toInt).sum else Word.unreachable.toInt
  /-- It is there only if all terms are. -/
  absorbs : Word.unreachable ∈ terms → sum = Word.unreachable
  /-- It is what adding all terms gives, none left out. -/
  whole : sum = terms.foldl Word.saturatingAdd 0
  /-- On the way to it no sum is wrapped around, each is the exact one or the greatest word. -/
  stages : ∀ front, front <+: terms → (front.foldl Word.saturatingAdd 0).toInt =
    min (front.map Int32.toInt).sum Word.unreachable.toInt
  /-- The order of the terms does not matter. -/
  order : ∀ terms' : List Word, terms'.Perm terms → Word.saturatingSum terms' = sum
  /-- Nor does it matter in which groups they are summed. -/
  groups : ∀ groups : List (List Word), groups.flatten.Perm terms →
    Word.saturatingSum (groups.map Word.saturatingSum) = sum
  /-- It shows the sum of the numbers that the terms show. -/
  number : sum.Shows (DescLogic.saturatingSum (terms.map Int32.toNatClampNeg))

theorem toInt_foldl (nonneg : ∀ x ∈ terms, 0 ≤ x) :
    (terms.foldl Word.saturatingAdd 0).toInt =
      min (terms.map Int32.toInt).sum Word.unreachable.toInt := by
  have number := shows_foldl shows_zero nonneg
  change Shows _ (DescLogic.saturatingSum _) at number
  rw [number, saturatingSum_eq, sum_toInt nonneg, toInt_unreachable]
  omega

/-- **Sums of words.** The sum of finitely many words that are not negative is the exact sum as long
as that is below the greatest word. -/
theorem isSum_saturatingSum (nonneg : ∀ x ∈ terms, 0 ≤ x) :
    IsSum terms (Word.saturatingSum terms) where
  value := by
    rw [Word.saturatingSum, addTerms_eq_foldl, toInt_foldl nonneg]
    split <;> omega
  absorbs := saturatingSum_eq_unreachable
  whole := addTerms_eq_foldl
  stages := fun front part => toInt_foldl fun x hx => nonneg x (part.subset hx)
  order := fun _ => saturatingSum_reorder nonneg
  groups := fun _ => saturatingSum_regroup nonneg
  number := shows_saturatingSum nonneg

/-- Two terms that pass the greatest word together, and one that is not added any more. -/
theorem isSum_saturatingSum_capped :
    let terms : List Word := [2147483646, 5, 3]
    (∀ x ∈ terms, 0 ≤ x) ∧ Word.saturatingSum terms = Word.unreachable ∧
      IsSum terms (Word.saturatingSum terms) := by
  intro terms
  have nonneg : ∀ x ∈ terms, 0 ≤ x := by
    simp only [terms, List.forall_mem_cons, List.not_mem_nil, false_implies, implies_true]
    decide
  exact ⟨nonneg, by decide, isSum_saturatingSum nonneg⟩

end Word

end DescLogic
