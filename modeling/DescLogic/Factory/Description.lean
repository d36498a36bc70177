import DescLogic.Expression.Reader
import DescLogic.Factory.Basic
/-!
# Elements from descriptions

A description is an expression whose heads are keywords. The category that is due at each place
settles which keywords may stand there. A keyword that two operators share is settled by the
category of its first argument.

Arguments are taken from left to right. The operands of an element are stored before the element
is, and a description that fails keeps those that were stored before the failure.

* `BuildM.ofExpression`: the element that an expression describes.
* `BuildM.ofText`: the element that a text describes.
-/

namespace DescLogic

/-- One more than the greatest position that can be written. -/
def positionBound : Nat := UInt64.size

/-- The number that is spelt like `n` with the digit `d` after it, if it is below the bound. -/
def appendDigit? (n : Nat) (d : Char) : Option Nat :=
  let value := 10 * n + (d.toNat - '0'.toNat)
  if d.isDigit && value < positionBound then some value else none

/-- The number that decimal digits spell, if it is below the bound. -/
def digitsValue? (digits : List Char) : Option Nat :=
  if digits.isEmpty then none else digits.foldlM appendDigit? 0

/-- A position is written in decimal digits, which one plus sign may precede. -/
def positionValue? (text : String) : Option Nat :=
  match text.toList with
  | '+' :: digits => digitsValue? digits
  | digits => digitsValue? digits

namespace Expression

/-- The name that an argument gives: a name without arguments. -/
def bareName (e : Expression) : Except Error String :=
  if e.args.isEmpty then .ok e.name else .error (.compoundName e.name)

/-- The position that an argument gives. -/
def position (e : Expression) : Except Error Nat :=
  match positionValue? e.name with
  | some i => if e.args.isEmpty then .ok i else .error (.notAPosition e.name)
  | none => .error (.notAPosition e.name)

/-- The category of an argument that may be a concept or a role. -/
def setCategory (parent : String) (e : Expression) : Except Error Category :=
  match Category.ofKeyword? e.name with
  | some .concept => .ok .concept
  | some .role => .ok .role
  | some d => .error (.notASet parent e.name d)
  | none => .error (.unknownSetKeyword e.name)

end Expression

/-- Why a head is refused where an element of category `c` is due. -/
def unexpectedKeyword (c : Category) (head : String) : Error :=
  match Category.ofKeyword? head with
  | some d => if d = c then .unknownKeyword c head else .wrongCategory c head d
  | none => .unknownKeyword c head

/-- The operator that a head with arguments stands for where an element of category `c` is due. -/
def Operator.ofHead (c : Category) (head : String) (args : List Expression) :
    Except Error (Operator c) :=
  match Operator.withKeyword c head with
  | [] => .error (unexpectedKeyword c head)
  | o :: others =>
    if args.length ≠ o.signature.length then
      .error (.argumentCount head o.signature.length args.length)
    else
      match others, args with
      | _ :: _, first :: _ => do
        let d ← first.setCategory head
        return ((o :: others).find? fun o => o.firstCategory? == some d).getD o
      | _, _ => .ok o

namespace BuildM

mutual

/-- The element of category `c` that an expression describes. -/
def ofExpression (c : Category) : Expression → BuildM (Handle c)
  | .node head args => do
    let o ← (Operator.ofHead c head args : Except Error (Operator c))
    BuildM.make ⟨o, ← ofArguments head o.signature args⟩

/-- The arguments that fit a signature. -/
def ofArguments (head : String) :
    (ps : List Parameter) → List Expression → BuildM (Args Handle ps)
  | [], _ => return .nil
  | ps, [] => throw (.argumentCount head ps.length 0)
  | .predicate :: ps, e :: es => do
    let p ← ((← get).vocabulary.predicate (← e.bareName) : Except Error Predicate)
    return .predicate p (← ofArguments head ps es)
  | .constant :: ps, e :: es => do
    let k ← ((← get).vocabulary.constant (← e.bareName) : Except Error Constant)
    return .constant k (← ofArguments head ps es)
  | .position :: ps, e :: es => do
    let i ← (e.position : Except Error Nat)
    return .position i (← ofArguments head ps es)
  | .element c :: ps, e :: es => do
    let x ← ofExpression c e
    return .element x (← ofArguments head ps es)

end

/-- The element of category `c` that a text describes. -/
def ofText (c : Category) (text : String) : BuildM (Handle c) := do
  let e ← (Expression.parse text : Except Error Expression)
  ofExpression c e

end BuildM

end DescLogic
