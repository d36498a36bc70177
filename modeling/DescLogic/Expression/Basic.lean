import DescLogic.Text.Joined
/-!
# Expressions

An `Expression` is a name with arguments, as in `c_and(c_primitive(on,0),c_top)`. Nothing is said
yet about which names mean something.

* `Expression.render`: the written form, without blanks.
-/

namespace DescLogic

/-- A name with arguments. -/
inductive Expression where
  /-- The name `name` applied to `args`. -/
  | node (name : String) (args : List Expression)
deriving Repr

namespace Expression

/-- The name at the head. -/
def name : Expression → String
  | .node name _ => name

/-- The arguments. -/
def args : Expression → List Expression
  | .node _ args => args

/-- A name without arguments. -/
def leaf (name : String) : Expression := .node name []

mutual

/-- The written form: the name, and the arguments in parentheses if there are any. -/
def render : Expression → String
  | .node name args => Text.applied name (renderAll args)

/-- The written forms of a list of expressions. -/
def renderAll : List Expression → List String
  | [] => []
  | e :: es => render e :: renderAll es

end

instance : ToString Expression where
  toString := render

mutual

/-- The number of levels: one for a leaf. -/
def depth : Expression → Nat
  | .node _ args => 1 + depthAll args

/-- The greatest depth in a list of expressions. -/
def depthAll : List Expression → Nat
  | [] => 0
  | e :: es => max (depth e) (depthAll es)

end

mutual

/-- Decides equality by recursion on both expressions. -/
def decEq : (a b : Expression) → Decidable (a = b)
  | .node m as, .node n bs =>
    if hn : m = n then
      match decEqAll as bs with
      | isTrue ha => isTrue (by rw [hn, ha])
      | isFalse ha => isFalse (by intro h; cases h; exact ha rfl)
    else isFalse (by intro h; cases h; exact hn rfl)

/-- Decides equality of lists of expressions. -/
def decEqAll : (as bs : List Expression) → Decidable (as = bs)
  | [], [] => isTrue rfl
  | [], _ :: _ => isFalse (by simp)
  | _ :: _, [] => isFalse (by simp)
  | a :: as, b :: bs =>
    match decEq a b, decEqAll as bs with
    | isTrue h, isTrue hs => isTrue (by rw [h, hs])
    | isFalse h, _ => isFalse (by intro e; cases e; exact h rfl)
    | _, isFalse hs => isFalse (by intro e; cases e; exact hs rfl)

end

instance : DecidableEq Expression := decEq

@[simp] theorem render_node {name : String} {args : List Expression} :
    (node name args).render = Text.applied name (args.map render) := by
  have all : ∀ l : List Expression, renderAll l = l.map render := by
    intro l
    induction l with
    | nil => rfl
    | cons e es ih => simp [renderAll, ih]
  simp [render, all]

end Expression

end DescLogic
