import DescLogic.Expression.Basic
import DescLogic.Expression.Token
/-!
# Reading expressions

An expression is a name, or a name followed by a group: an opening parenthesis, one or more
expressions separated by commas, and a closing parenthesis. Names are identifiers and integers.

The reader walks the tokens once, from left to right, and keeps the groups that are open, each
with its name and the arguments read so far. A group may stand inside at most `maxDepth - 1` open
ones.

* `Expression.parse`: the expression that a text spells, or the reason why it spells none.
-/

namespace DescLogic

namespace Expression

/-- The greatest number of groups open at once. -/
def maxDepth : Nat := 256

/-- A group that is still open: its name, and its arguments with the latest first. -/
structure OpenGroup where
  /-- The name before the parenthesis. -/
  name : String
  /-- The arguments read so far, the latest first. -/
  args : List Expression

/-- A fault, and the lexeme at which it shows; `none` for the end of the text. -/
abbrev FaultAt := ReadFault × Option Lexeme

mutual

/-- Reads on where an expression is due, inside the groups `stack`. -/
def readName (stack : List OpenGroup) : List Lexeme → Except FaultAt Expression
  | [] => .error (.endOfInput, none)
  | l :: ls =>
    match l.token with
    | .identifier name | .integer name => readRest stack (leaf name) true ls
    | _ => .error (.nameExpected, some l)

/-- Reads on after the expression `e`. If it is `fresh`, a name just read, a group may follow. -/
def readRest (stack : List OpenGroup) (e : Expression) (fresh : Bool) :
    List Lexeme → Except FaultAt Expression
  | [] =>
    match stack with
    | [] => .ok e
    | _ :: _ => .error (.unbalanced, none)
  | l :: ls =>
    if fresh && l.token == .opening then
      if stack.length = maxDepth then .error (.tooDeep, some l)
      else readName (⟨e.name, []⟩ :: stack) ls
    else
      match stack with
      | [] => .error (.trailing, some l)
      | group :: outer =>
        match l.token with
        | .comma => readName (⟨group.name, e :: group.args⟩ :: outer) ls
        | .closing => readRest outer (.node group.name (e :: group.args).reverse) false ls
        | _ => .error (.separatorExpected, some l)

end

/-- The expression that the text spells. A fault at the end is placed after the last byte. -/
def parse (text : String) : Except Error Expression := do
  let lexemes ← Token.lex text
  match readName [] lexemes with
  | .ok e => .ok e
  | .error (fault, at?) =>
    .error (.unreadable fault ((at?.map Lexeme.offset).getD text.utf8ByteSize) text)

end Expression

end DescLogic
