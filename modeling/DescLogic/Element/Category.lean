/-!
# Categories of elements

An element of a description denotes a set of objects, a relation between objects, a number or a
truth value. The category of an element can be read off the first two letters of its keyword.
`PerCategory F` is a family with one member of type `F c` for each category `c`.

* `PerCategory.get_modify_self`, `PerCategory.get_modify_of_ne`: changing the member of one
  category leaves the other three alone.
-/

namespace DescLogic

/-- What an element denotes. -/
inductive Category where
  /-- A set of objects. -/
  | concept
  /-- A binary relation between objects. -/
  | role
  /-- A natural number. -/
  | numerical
  /-- A truth value. -/
  | boolean
deriving DecidableEq, Hashable, Repr

namespace Category

/-- All categories. -/
def all : List Category := [concept, role, numerical, boolean]

/-- The category's name. -/
def name : Category → String
  | concept => "concept"
  | role => "role"
  | numerical => "numerical"
  | boolean => "boolean"

instance : ToString Category where
  toString := name

/-- The two letters that every keyword of the category starts with. -/
def keywordStem : Category → String
  | concept => "c_"
  | role => "r_"
  | numerical => "n_"
  | boolean => "b_"

/-- The category whose stem the text starts with. -/
def ofKeyword? (text : String) : Option Category :=
  all.find? fun c => c.keywordStem.toList.isPrefixOf text.toList

example : ofKeyword? "c_and" = some concept ∧ ofKeyword? "c" = none := by decide

end Category

/-- One member for each category. -/
structure PerCategory (F : Category → Type) where
  /-- The member for concepts. -/
  concepts : F .concept
  /-- The member for roles. -/
  roles : F .role
  /-- The member for numericals. -/
  numericals : F .numerical
  /-- The member for booleans. -/
  booleans : F .boolean

namespace PerCategory

variable {F : Category → Type}

/-- The family with the members `f c`. -/
def ofFn (f : (c : Category) → F c) : PerCategory F :=
  ⟨f .concept, f .role, f .numerical, f .boolean⟩

/-- The member for `c`. -/
def get (p : PerCategory F) : (c : Category) → F c
  | .concept => p.concepts
  | .role => p.roles
  | .numerical => p.numericals
  | .boolean => p.booleans

/-- Changes the member for `c`. -/
def modify (p : PerCategory F) (c : Category) (f : F c → F c) : PerCategory F :=
  match c, f with
  | .concept, f => { p with concepts := f p.concepts }
  | .role, f => { p with roles := f p.roles }
  | .numerical, f => { p with numericals := f p.numericals }
  | .boolean, f => { p with booleans := f p.booleans }

variable {p : PerCategory F} {c d : Category} {f : F c → F c}

@[simp] theorem get_ofFn {f : (c : Category) → F c} : (ofFn f).get c = f c := by
  cases c <;> rfl

@[simp] theorem get_modify_self : (p.modify c f).get c = f (p.get c) := by
  cases c <;> rfl

theorem get_modify_of_ne (h : c ≠ d) : (p.modify c f).get d = p.get d := by
  cases c <;> cases d <;> first | rfl | exact absurd rfl h

end PerCategory

end DescLogic
