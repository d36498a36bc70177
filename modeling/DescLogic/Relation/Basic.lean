import DescLogic.ObjectSet
/-!
# Relations between objects

A role denotes a relation, a set of pairs of objects. Among `n` objects the pair `(a, b)` is kept as
the number `a * n + b`, so the pairs are the numbers below `n * n`, listed row by row. Row `a` is
the set of the objects that `a` is related to, and a relation can be given by its rows.

* `ObjectRelation.contains_row`, `ObjectRelation.getD_rows`: the members of a row, and the table of
  all rows.
* `ObjectRelation.contains_ofRows`: the pairs of a relation that is given by its rows.
-/

namespace DescLogic

/-- A relation between the numbers below `objectCount`. -/
structure ObjectRelation where
  /-- The number of objects there are. -/
  objectCount : Nat
  /-- The members, the pair `(a, b)` as `a * objectCount + b`. -/
  pairs : NatSet
deriving DecidableEq, Hashable, Repr

namespace ObjectRelation

/-- No pair. -/
def empty (n : Nat) : ObjectRelation := ⟨n, ∅⟩

/-- Every pair. -/
def full (n : Nat) : ObjectRelation := ⟨n, NatSet.full (n * n)⟩

/-- The relation among `n` objects with the given rows. -/
def ofRows (n : Nat) (row : Nat → NatSet) : ObjectRelation :=
  ⟨n, NatSet.ofBlocks n (fun a => if a < n then row a else ∅) (n.log2 + 1) 0⟩

/-- The listed pairs. -/
def ofList (n : Nat) (pairs : List (Nat × Nat)) : ObjectRelation :=
  ⟨n, NatSet.ofList (pairs.map fun p => p.1 * n + p.2)⟩

/-- The number that stands for the pair `(a, b)`. -/
def pairIndex (r : ObjectRelation) (a b : Nat) : Nat := a * r.objectCount + b

/-- Is the pair a member? -/
def contains (r : ObjectRelation) (a b : Nat) : Bool := r.pairs.contains (r.pairIndex a b)

/-- Adds a pair. -/
def insert (r : ObjectRelation) (a b : Nat) : ObjectRelation :=
  { r with pairs := r.pairs.insert (r.pairIndex a b) }

/-- Removes a pair. -/
def erase (r : ObjectRelation) (a b : Nat) : ObjectRelation :=
  { r with pairs := r.pairs.erase (r.pairIndex a b) }

/-- The pairs in either relation. -/
def union (r s : ObjectRelation) : ObjectRelation := { r with pairs := r.pairs.union s.pairs }

/-- The pairs in both relations. -/
def inter (r s : ObjectRelation) : ObjectRelation := { r with pairs := r.pairs.inter s.pairs }

/-- The pairs of `r` that are not in `s`. -/
def diff (r s : ObjectRelation) : ObjectRelation := { r with pairs := r.pairs.diff s.pairs }

/-- The pairs that are not members. -/
def complement (r : ObjectRelation) : ObjectRelation :=
  { r with pairs := r.pairs.complement (r.objectCount * r.objectCount) }

/-- Has the relation no pair? -/
def isEmpty (r : ObjectRelation) : Bool := r.pairs.isEmpty

/-- Is every pair of `r` in `s`? -/
def isSubset (r s : ObjectRelation) : Bool := r.pairs.isSubset s.pairs

/-- The pairs row by row. -/
def toList (r : ObjectRelation) : List (Nat × Nat) :=
  r.pairs.toList.map fun i => (i / r.objectCount, i % r.objectCount)

/-- The number of pairs. -/
def size (r : ObjectRelation) : Nat := r.pairs.size

/-- The objects that `a` is related to. -/
def row (r : ObjectRelation) (a : Nat) : NatSet := r.pairs.slice (a * r.objectCount) r.objectCount

/-- All rows. -/
def rows (r : ObjectRelation) : Array NatSet :=
  let n := r.objectCount
  ((NatSet.prependBlocks n (n.log2 + 1) r.pairs []).take n).toArray

/-- The relation with `f row` in the place of each row. -/
def mapRows (r : ObjectRelation) (f : NatSet → NatSet) : ObjectRelation :=
  let rows := r.rows
  ofRows r.objectCount fun a => f (rows.getD a ∅)

/-- The objects that `a` is related to, in increasing order. -/
def successors (r : ObjectRelation) (a : Nat) : List Nat := (r.row a).toList

/-- The pairs with their coordinates exchanged. -/
def inverse (r : ObjectRelation) : ObjectRelation := ofList r.objectCount (r.toList.map Prod.swap)

/-- The pairs in braces. -/
def text (r : ObjectRelation) : String :=
  "\x7b" ++ Text.joined ", " (r.toList.map fun p => s!"({p.1}, {p.2})") ++ "\x7d"

instance : ToString ObjectRelation where
  toString := text

/-- The pairs and the number of objects, under the name of the type. -/
def longText (r : ObjectRelation) : String := s!"RoleDenotation({r.text}/{r.objectCount})"

/-! ## Rows -/

variable {r : ObjectRelation} {n a b : Nat}

@[simp] theorem contains_row :
    (r.row a).contains b = (decide (b < r.objectCount) && r.contains a b) :=
  NatSet.contains_slice

/-- A row's members show in the relation if they are below the number of objects. -/
theorem contains_ofRows {row : Nat → NatSet}
    (bounded : ∀ a b, (row a).contains b = true → b < n) (hb : b < n) :
    (ofRows n row).contains a b = (decide (a < n) && (row a).contains b) := by
  have hn : 0 < n := Nat.zero_lt_of_lt hb
  have hquot : (a * n + b) / n = a := by
    rw [Nat.mul_comm, Nat.mul_add_div hn, Nat.div_eq_of_lt hb, Nat.add_zero]
  have hrem : (a * n + b) % n = b := by
    rw [Nat.mul_comm, Nat.mul_add_mod, Nat.mod_eq_of_lt hb]
  rw [contains, ofRows, pairIndex, NatSet.contains_ofBlocks, hquot, hrem, Nat.zero_add]
  · by_cases ha : a < n
    · have hdepth : a < 2 ^ (n.log2 + 1) := Nat.lt_trans ha Nat.lt_log2_self
      have := Nat.mul_le_mul_right n (Nat.succ_le_of_lt hdepth)
      rw [Nat.succ_mul] at this
      have hlt : a * n + b < n <<< (n.log2 + 1) := by
        rw [Nat.shiftLeft_eq, Nat.mul_comm n]
        omega
      simp [ha, hlt]
    · simp [ha]
  · intro a b h
    split at h
    · exact bounded a b h
    · simp at h

theorem rows_eq : r.rows = ((List.range r.objectCount).map r.row).toArray := by
  have hle : r.objectCount ≤ 1 <<< (r.objectCount.log2 + 1) := by
    rw [Nat.one_shiftLeft]
    exact Nat.le_of_lt Nat.lt_log2_self
  rw [rows, NatSet.prependBlocks_eq, List.append_nil, ← List.map_take, List.take_range,
    Nat.min_eq_left hle]
  rfl

@[simp] theorem getD_rows : r.rows.getD a ∅ = if a < r.objectCount then r.row a else ∅ := by
  rw [rows_eq]
  by_cases h : a < r.objectCount <;> simp [h]

end ObjectRelation

end DescLogic
