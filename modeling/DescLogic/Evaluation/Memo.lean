import DescLogic.Evaluation.Meaning
import DescLogic.Factory.Table
/-!
# Caches

A `Memo` remembers values by key and counts the look-ups that found one and those that did not.
`Caches` remembers denotations: those of an element in one state, and those of an element in a
list of states, a batch. Batches are numbered in the order in which they are first met.

Handles and batch numbers are keys without a bound here. Kept in 32 bits they tell elements and
batches apart as long as no table holds more than `2 ^ 32` elements and no more than `2 ^ 32`
batches are met between two calls of `Caches.clear`.
-/

namespace DescLogic

/-- Values by key, with counts of successful and failed look-ups. Different keys are assumed to stay
different in 32 bits: there are at most `2 ^ 32` elements of a category and as many batches. -/
structure Memo (κ α : Type) [BEq κ] [Hashable κ] where
  /-- The values. -/
  entries : Std.HashMap κ α
  /-- The number of look-ups that found a value. -/
  hits : Nat
  /-- The number of look-ups that found none. -/
  misses : Nat

namespace Memo

variable {κ α : Type} [BEq κ] [Hashable κ]

/-- The memo without values or look-ups. -/
def empty : Memo κ α := ⟨∅, 0, 0⟩

instance : EmptyCollection (Memo κ α) where
  emptyCollection := empty

/-- The number of values. -/
def size (m : Memo κ α) : Nat := m.entries.size

/-- Looks a key up, and counts whether that found a value. -/
def lookup (m : Memo κ α) (k : κ) : Option α × Memo κ α :=
  match m.entries[k]? with
  | some x => (some x, { m with hits := m.hits + 1 })
  | none => (none, { m with misses := m.misses + 1 })

/-- Remembers a value. -/
def insert (m : Memo κ α) (k : κ) (x : α) : Memo κ α := { m with entries := m.entries.insert k x }

/-- Forgets all values and keeps the counts. -/
def clear (m : Memo κ α) : Memo κ α := { m with entries := ∅ }

end Memo

/-- The denotations of elements of category `c` by handle and state identity. -/
abbrev StateMemo (c : Category) := Memo (Handle c × Nat) (Meaning c)

/-- The denotations of elements of category `c` by handle and batch number. -/
abbrev BatchMemo (c : Category) := Memo (Handle c × Nat) (List (Meaning c))

/-- What was computed for states and for batches of states. -/
structure Caches where
  /-- Denotations in single states. -/
  states : PerCategory StateMemo
  /-- Denotations in batches. -/
  batches : PerCategory BatchMemo
  /-- The numbers of the batches met so far, by the identities of their states. -/
  batchNumbers : Std.HashMap (List Nat) Nat

namespace Caches

/-- Caches that remember nothing. -/
def empty : Caches := ⟨.ofFn fun _ => ∅, .ofFn fun _ => ∅, ∅⟩

instance : EmptyCollection Caches where
  emptyCollection := empty

/-- The sum over all memos of a number that each of them has. -/
def total (k : Caches) (number : {κ α : Type} → [BEq κ] → [Hashable κ] → Memo κ α → Nat) : Nat :=
  Category.all.foldr (fun c n => number (k.states.get c) + number (k.batches.get c) + n) 0

/-- The number of denotations remembered. -/
def size (k : Caches) : Nat := k.total Memo.size

/-- The number of look-ups that found a denotation. -/
def hits (k : Caches) : Nat := k.total Memo.hits

/-- The number of look-ups that found none. -/
def misses (k : Caches) : Nat := k.total Memo.misses

/-- Forgets all denotations and batches and keeps the counts. -/
def clear (k : Caches) : Caches :=
  ⟨.ofFn fun c => (k.states.get c).clear, .ofFn fun c => (k.batches.get c).clear, ∅⟩

/-- The number of a batch, which is the next one if the batch is new. Fewer than `2 ^ 32` batches
are assumed to have been met, so that the next number fits into 32 bits. -/
def batchNumber (k : Caches) (ids : List Nat) : Nat × Caches :=
  match k.batchNumbers[ids]? with
  | some number => (number, k)
  | none =>
    let number := k.batchNumbers.size
    (number, { k with batchNumbers := k.batchNumbers.insert ids number })

end Caches

end DescLogic
