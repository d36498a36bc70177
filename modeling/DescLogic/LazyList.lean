/-!
# Lazy lists

A `LazyList` works out its tail only when the tail is asked for, so whoever stops early pays for
no more than was looked at. Its view is `toList`, the members in order.

* `toList_ofList`, `toList_range'`, `toList_append`, `toList_map`, `toList_filter`,
  `toList_flatMap`: each operation does to the view what the operation of that name does to a
  list.
-/

namespace DescLogic

/-- A list whose tail is worked out on demand. -/
inductive LazyList (α : Type) where
  /-- No member. -/
  | nil
  /-- A member and those after it. -/
  | cons (head : α) (tail : Unit → LazyList α)

namespace LazyList

variable {α β : Type}

/-- The members in order. -/
def toList : LazyList α → List α
  | nil => []
  | cons a tail => a :: (tail ()).toList

/-- The members of a list. -/
def ofList : List α → LazyList α
  | [] => nil
  | a :: l => cons a fun _ => ofList l

/-- The numbers from `start` up to, but not including, `start + count`. -/
def range' (start : Nat) : (count : Nat) → LazyList Nat
  | 0 => nil
  | count + 1 => cons start fun _ => range' (start + 1) count

/-- The members of `l`, and then those of `m`. -/
def append (l : LazyList α) (m : Unit → LazyList α) : LazyList α :=
  match l with
  | nil => m ()
  | cons a tail => cons a fun _ => (tail ()).append m

/-- What `f` makes of each member. -/
def map (f : α → β) : LazyList α → LazyList β
  | nil => nil
  | cons a tail => cons (f a) fun _ => (tail ()).map f

/-- The members that satisfy `p`. -/
def filter (p : α → Bool) : LazyList α → LazyList α
  | nil => nil
  | cons a tail => if p a then cons a fun _ => (tail ()).filter p else (tail ()).filter p

/-- The members of the lists that `f` makes of each member. Empty lists are passed over in one go,
however many of them follow each other. -/
def flatMap (l : LazyList α) (f : α → LazyList β) : LazyList β :=
  match l with
  | nil => nil
  | cons a tail =>
    match f a with
    | nil => (tail ()).flatMap f
    | cons b rest => cons b fun _ => (rest ()).append fun _ => (tail ()).flatMap f

/-! ## What each operation does to the view -/

@[simp] theorem toList_nil : (nil : LazyList α).toList = [] := rfl

@[simp] theorem toList_cons {a : α} {tail : Unit → LazyList α} :
    (cons a tail).toList = a :: (tail ()).toList := rfl

@[simp] theorem toList_ofList {l : List α} : (ofList l).toList = l := by
  induction l with
  | nil => rfl
  | cons a l ih => simp [ofList, ih]

@[simp] theorem toList_range' {start count : Nat} :
    (range' start count).toList = List.range' start count := by
  induction count generalizing start with
  | zero => rfl
  | succ count ih => simp [range', ih, List.range'_succ]

@[simp] theorem toList_append {l : LazyList α} {m : Unit → LazyList α} :
    (l.append m).toList = l.toList ++ (m ()).toList := by
  induction l with
  | nil => rfl
  | cons a tail ih => simp [append, ih]

@[simp] theorem toList_map {f : α → β} {l : LazyList α} : (l.map f).toList = l.toList.map f := by
  induction l with
  | nil => rfl
  | cons a tail ih => simp [map, ih]

@[simp] theorem toList_filter {p : α → Bool} {l : LazyList α} :
    (l.filter p).toList = l.toList.filter p := by
  induction l with
  | nil => rfl
  | cons a tail ih => by_cases h : p a <;> simp [filter, h, ih]

@[simp] theorem toList_flatMap {l : LazyList α} {f : α → LazyList β} :
    (l.flatMap f).toList = l.toList.flatMap fun a => (f a).toList := by
  induction l with
  | nil => rfl
  | cons a tail ih => cases h : f a <;> simp [flatMap, h, ih]

end LazyList

end DescLogic
