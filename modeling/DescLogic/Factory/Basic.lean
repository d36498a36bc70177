import DescLogic.Factory.Table
/-!
# Factories

A `Factory` forms elements over a vocabulary and stores each of them once: two nodes with the same
text get the same handle. Operands of commutative operators are put in the order of their texts
first, so exchanging them changes nothing.

Elements are never moved or removed. `order` keeps the order of insertion over all categories.

* `Factory.make`: the handle of a node, which is stored if it is new and well formed.
* `BuildM.make`: the same as a step of a longer construction. A refused node leaves the factory as
  it was.
-/

namespace DescLogic

/-- A store of elements over a vocabulary. -/
structure Factory where
  /-- The predicates and constants that elements speak of. -/
  vocabulary : Vocabulary
  /-- The elements of each category. -/
  tables : PerCategory Table
  /-- All elements in order of insertion. -/
  order : Array AnyHandle

namespace Factory

variable {c : Category}

/-- The factory without elements. -/
def empty (v : Vocabulary) : Factory := ⟨v, .ofFn fun _ => .empty, #[]⟩

/-- The element at a handle. -/
def get? (f : Factory) (h : Handle c) : Option (Entry c) := (f.tables.get c).get? h

/-- The element of a category with this text. -/
def find? (f : Factory) (c : Category) (text : String) : Option (Handle c) :=
  (f.tables.get c).find? text

/-- The number of elements of a category. -/
def count (f : Factory) (c : Category) : Nat := (f.tables.get c).size

/-- The element at a handle; a handle past the table is an error. -/
def entry (f : Factory) (h : Handle c) : Except Error (Entry c) :=
  match f.get? h with
  | some e => .ok e
  | none => .error (.foreignElement c h.index)

/-- Appends an element whose text is new. -/
def push (f : Factory) (e : Entry c) : Factory :=
  let h : Handle c := ⟨f.count c⟩
  { f with tables := f.tables.modify c (·.push e), order := f.order.push ⟨c, h⟩ }

/-- The handle of the element with the entry's text, which is appended if there is none. -/
def insert (f : Factory) (e : Entry c) : Handle c × Factory :=
  match f.find? c e.summary.text with
  | some h => (h, f)
  | none => (⟨f.count c⟩, f.push e)

/-- A handle beside what is known of the element there. -/
abbrev Known (c : Category) := Handle c × Summary

/-- The handle beside what is known of the element there. -/
def known (f : Factory) (h : Handle c) : Except Error (Known c) := do
  return (h, (← f.entry h).summary)

/-- The entry of a node whose operands are known, in canonical form. -/
def entryOf (n : Node Known c) : Entry c :=
  let n := n.sorted fun x y => decide (x.2.text ≤ y.2.text)
  ⟨⟨n.operator, n.args.map Prod.fst⟩, n.summary Prod.snd⟩

/-- The entry of a node. Its names have to be entries of the vocabulary, its positions have to be
in range, and its operands have to be stored. -/
def prepare (f : Factory) (n : Node Handle c) : Except Error (Entry c) := do
  n.args.checkNames f.vocabulary
  n.checkPositions
  return entryOf ⟨n.operator, ← n.args.mapM f.known⟩

/-- The handle of a node, which is stored if it is new and well formed. -/
def make (f : Factory) (n : Node Handle c) : Except Error (Handle c × Factory) := do
  return f.insert (← f.prepare n)

end Factory

/-- Computations that may fail and that store elements; what they stored before failing stays. -/
abbrev BuildM := ExceptT Error (StateM Factory)

/-- The handle of a node, which is stored if it is new and well formed. -/
def BuildM.make {c : Category} (n : Node Handle c) : BuildM (Handle c) := do
  let e ← ((← get).prepare n : Except Error (Entry c))
  modifyGet fun f => f.insert e

end DescLogic
