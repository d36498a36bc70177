import DescLogic.LazyList
import Std.Data.HashMap
/-!
# Enumerating operands

`Buckets α` holds elements by complexity. A rule that forms elements of complexity `n + 1` takes
operands whose complexities add up to `n`; the functions below list the choices of two or three
such operands, each choice once, and form a choice only when it is asked for.

* `Buckets.level_push`: a new element comes last among those of its complexity.
* `mem_pairs`, `mem_triples`: the choices listed are those whose complexities add up.
-/

namespace DescLogic.Generator

variable {α β γ : Type}

/-- Elements by complexity. -/
structure Buckets (α : Type) where
  /-- The elements of each complexity that has some, in order of arrival. -/
  levels : Std.HashMap Nat (Array α)

namespace Buckets

/-- No element. -/
def empty : Buckets α := ⟨∅⟩

/-- Adds an element. -/
def push (b : Buckets α) (complexity : Nat) (x : α) : Buckets α :=
  ⟨b.levels.alter complexity fun level => some ((level.getD #[]).push x)⟩

/-- The elements of a complexity, in order of arrival. -/
def level (b : Buckets α) (complexity : Nat) : List α := (b.levels.getD complexity #[]).toList

/-- The complexities from `1` to `n - 1` of which there are elements, in increasing order. -/
def occupied (b : Buckets α) (n : Nat) : List Nat :=
  (List.range' 1 (n - 1)).filter fun i => b.levels.contains i

@[simp] theorem level_empty {n : Nat} : (empty : Buckets α).level n = [] := by
  simp [level, empty]

theorem level_push {b : Buckets α} {m n : Nat} {x : α} :
    (b.push m x).level n = if m = n then b.level n ++ [x] else b.level n := by
  unfold level push
  rw [Std.HashMap.getD_alter]
  by_cases h : m = n
  · subst h
    simp [Std.HashMap.getD_eq_getD_getElem?]
  · simp [h]

theorem level_eq_nil {b : Buckets α} {n : Nat} (h : b.levels.contains n = false) :
    b.level n = [] := by
  simp [level, Std.HashMap.getD_eq_fallback_of_contains_eq_false h]

theorem mem_occupied {b : Buckets α} {n i : Nat} (h : b.level i ≠ []) :
    i ∈ b.occupied n ↔ 1 ≤ i ∧ i < n := by
  have held : b.levels.contains i = true := by
    by_cases hc : b.levels.contains i
    · exact hc
    · exact absurd (level_eq_nil (by simpa using hc)) h
  simp only [occupied, List.mem_filter, List.mem_range'_1, held, and_true]
  omega

end Buckets

/-- Pairs whose complexities add up to `n`. -/
def pairs (left : Buckets α) (right : Buckets β) (n : Nat) : LazyList (α × β) :=
  (LazyList.ofList (left.occupied n)).flatMap fun i =>
    let bs := right.level (n - i)
    (LazyList.ofList (left.level i)).flatMap fun a => (LazyList.ofList bs).map fun b => (a, b)

/-- Ordered pairs of different elements whose complexities add up to `n`. -/
def distinctPairs [DecidableEq α] (b : Buckets α) (n : Nat) : LazyList (α × α) :=
  (pairs b b n).filter fun p => p.1 ≠ p.2

/-- The pairs of an element of the list and a later one. -/
def laterPairs : List α → LazyList (α × α)
  | [] => .nil
  | a :: l => ((LazyList.ofList l).map fun b => (a, b)).append fun _ => laterPairs l

/-- Pairs whose complexities add up to `n`, one for each two elements: the first is of the lower
complexity, or came first if both are of the same. -/
def commutativePairs (b : Buckets α) (n : Nat) : LazyList (α × α) :=
  (LazyList.ofList ((b.occupied n).filter fun i => i ≤ n - i)).flatMap fun i =>
    if i = n - i then laterPairs (b.level i)
    else
      let ys := b.level (n - i)
      (LazyList.ofList (b.level i)).flatMap fun x => (LazyList.ofList ys).map fun y => (x, y)

/-- Triples whose complexities add up to `n`. -/
def triples (first : Buckets α) (second : Buckets β) (third : Buckets γ) (n : Nat) :
    LazyList (α × β × γ) :=
  let middle := second.occupied n
  (LazyList.ofList (first.occupied n)).flatMap fun i =>
    (LazyList.ofList (middle.filter fun j => j < n - i)).flatMap fun j =>
      let bs := second.level j
      let cs := third.level (n - i - j)
      (LazyList.ofList (first.level i)).flatMap fun a =>
        (LazyList.ofList bs).flatMap fun b => (LazyList.ofList cs).map fun c => (a, b, c)

theorem mem_pairs {left : Buckets α} {right : Buckets β} {n : Nat} {a : α} {b : β} :
    (a, b) ∈ (pairs left right n).toList ↔
      ∃ i, 1 ≤ i ∧ i < n ∧ a ∈ left.level i ∧ b ∈ right.level (n - i) := by
  simp only [pairs, LazyList.toList_flatMap, LazyList.toList_ofList, LazyList.toList_map,
    List.mem_flatMap, List.mem_map, Prod.mk.injEq]
  constructor
  · rintro ⟨i, hi, x, hx, y, hy, rfl, rfl⟩
    have := (Buckets.mem_occupied (List.ne_nil_of_mem hx)).mp hi
    exact ⟨i, this.1, this.2, hx, hy⟩
  · rintro ⟨i, hi, hi', hx, hy⟩
    exact ⟨i, (Buckets.mem_occupied (List.ne_nil_of_mem hx)).mpr ⟨hi, hi'⟩, a, hx, b, hy, rfl, rfl⟩

theorem mem_triples {first : Buckets α} {second : Buckets β} {third : Buckets γ} {n : Nat}
    {a : α} {b : β} {c : γ} :
    (a, b, c) ∈ (triples first second third n).toList ↔
      ∃ i j, 1 ≤ i ∧ 1 ≤ j ∧ i + j < n ∧ a ∈ first.level i ∧ b ∈ second.level j ∧
        c ∈ third.level (n - i - j) := by
  simp only [triples, LazyList.toList_flatMap, LazyList.toList_ofList, LazyList.toList_map,
    List.mem_flatMap, List.mem_map, List.mem_filter, Prod.mk.injEq, decide_eq_true_eq]
  constructor
  · rintro ⟨i, hi, j, ⟨hj, hlt⟩, x, hx, y, hy, z, hz, rfl, rfl, rfl⟩
    have hi := (Buckets.mem_occupied (List.ne_nil_of_mem hx)).mp hi
    have hj := (Buckets.mem_occupied (List.ne_nil_of_mem hy)).mp hj
    exact ⟨i, j, hi.1, hj.1, by omega, hx, hy, hz⟩
  · rintro ⟨i, j, hi, hj, hlt, hx, hy, hz⟩
    exact ⟨i, (Buckets.mem_occupied (List.ne_nil_of_mem hx)).mpr ⟨hi, by omega⟩, j,
      ⟨(Buckets.mem_occupied (List.ne_nil_of_mem hy)).mpr ⟨hj, by omega⟩, by omega⟩,
      a, hx, b, hy, c, hz, rfl, rfl, rfl⟩

end DescLogic.Generator
