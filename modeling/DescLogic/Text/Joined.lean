/-!
# Joined text

Listings with a separator between neighbours. The separator may depend on the item that follows
it.

* `joined_cons`: a joined text is its first item, then each later item after the separator.
-/

namespace DescLogic.Text

variable {α : Type}

/-- The items with `sep x` put before each item `x` but the first. -/
def interleave (sep : α → α) : List α → List α
  | [] => []
  | x :: xs => x :: xs.flatMap fun y => [sep y, y]

/-- The items one after the other, with `sep` between neighbours. -/
def joined (sep : String) (items : List String) : String :=
  String.join (interleave (fun _ => sep) items)

/-- A head with its arguments in parentheses, separated by commas; a head without arguments
stands alone. -/
def applied (head : String) : List String → String
  | [] => head
  | args => head ++ "(" ++ joined "," args ++ ")"

@[simp] theorem applied_nil (head : String) : applied head [] = head := rfl

theorem joined_cons (sep x : String) (xs : List String) :
    joined sep (x :: xs) = x ++ String.join (xs.map (sep ++ ·)) := by
  simp only [joined, interleave, String.join_cons]
  congr 1
  induction xs with
  | nil => rfl
  | cons y ys ih => simp [ih, String.append_assoc]

end DescLogic.Text
