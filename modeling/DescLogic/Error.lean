import DescLogic.Element.Category
import DescLogic.Text.Quoted
/-!
# Errors

`Error` lists the causes of failure, `Error.kind` sorts them and `Error.message` words them. Every
message starts with the name of its kind, a foreign vocabulary apart.
-/

namespace DescLogic

/-- Why a text is not a description, beyond its characters. -/
inductive ReadFault where
  /-- A name was due and another token stands there. -/
  | nameExpected
  /-- A name was due and the text ends. -/
  | endOfInput
  /-- One more group would nest too deeply. -/
  | tooDeep
  /-- A comma or a closing parenthesis was due and another token stands there. -/
  | separatorExpected
  /-- The text ends inside a group. -/
  | unbalanced
  /-- A complete description is followed by more. -/
  | trailing
deriving DecidableEq, Repr

/-- The wording of a fault. -/
def ReadFault.message : ReadFault → String
  | nameExpected => "expected a name or an integer"
  | endOfInput => "unexpected end of input"
  | tooDeep => "expression nested too deeply"
  | separatorExpected => "expected ',' or ')'"
  | unbalanced => "unbalanced parentheses"
  | trailing => "trailing input"

/-- The cause of a failure. -/
inductive Error where
  /-- No token starts with this character. Offsets count bytes of UTF-8. -/
  | unexpectedCharacter (c : Char) (offset : Nat) (text : String)
  /-- The tokens of the text do not form a description. -/
  | unreadable (fault : ReadFault) (offset : Nat) (text : String)
  /-- An operator has another number of arguments than it takes. -/
  | argumentCount (head : String) (expected found : Nat)
  /-- A predicate or constant was due and a compound expression stands there. -/
  | compoundName (head : String)
  /-- A position was due and something else stands there. -/
  | notAPosition (head : String)
  /-- The argument's head is no keyword, where a concept or a role was due. -/
  | unknownSetKeyword (head : String)
  /-- The head is no keyword of the category that was due. -/
  | unknownKeyword (expected : Category) (head : String)
  /-- The head has the stem of another category than the one that was due. -/
  | wrongCategory (expected : Category) (head : String) (found : Category)
  /-- A concept or a role was due and the argument is of another category. -/
  | notASet (parent head : String) (found : Category)
  /-- No predicate has this name. -/
  | unknownPredicate (name : String)
  /-- No constant has this name. -/
  | unknownConstant (name : String)
  /-- No atom has this name. -/
  | unknownAtom (name : String)
  /-- The index is past the atoms of the instance. -/
  | unknownAtomIndex (index count : Nat)
  /-- The predicate's name is taken. -/
  | duplicatePredicate (name : String)
  /-- The constant's name is taken. -/
  | duplicateConstant (name : String)
  /-- The object's name is taken. -/
  | duplicateObject (name : String)
  /-- The atom's name is taken. -/
  | duplicateAtom (name : String)
  /-- An atom has another number of objects than its predicate takes. -/
  | atomArity (predicate : String) (expected found : Nat)
  /-- The predicate is no entry of the factory's vocabulary. -/
  | foreignPredicate (predicate : String)
  /-- The constant is no entry of the factory's vocabulary. -/
  | foreignConstant (constant : String)
  /-- The position is not below the predicate's arity. -/
  | positionOutOfRange (position : Nat) (predicate : String)
  /-- A predicate without arguments was due. -/
  | notNullary (predicate : String)
  /-- A state's instance is over another vocabulary than the factory. -/
  | vocabularyMismatch
  /-- A pair has only the positions 0 and 1. -/
  | projectionPosition (position : Nat)
  /-- The factory holds no element of this category at this index. -/
  | foreignElement (category : Category) (index : Nat)
deriving DecidableEq, Repr

namespace Error

/-- The kinds of error. -/
inductive Kind where
  /-- The description is malformed. -/
  | malformed
  /-- A name is unknown or taken, or an argument does not fit it. -/
  | vocabulary
  /-- A state belongs to another vocabulary. -/
  | mismatch
  /-- A handle or a projection position is out of range. -/
  | structural
deriving DecidableEq, Repr

/-- The kind of an error. -/
def kind : Error → Kind
  | unexpectedCharacter .. | unreadable .. | argumentCount .. | compoundName .. | notAPosition ..
  | unknownSetKeyword .. | unknownKeyword .. => .malformed
  | vocabularyMismatch => .mismatch
  | projectionPosition .. | foreignElement .. => .structural
  | _ => .vocabulary

/-- What went wrong, without the kind. -/
def detail : Error → String
  | unexpectedCharacter c offset text =>
    s!"unexpected character {Text.quoted c.toString} at offset {offset} in {Text.quoted text}"
  | unreadable fault offset text => s!"{fault.message} at offset {offset} in {Text.quoted text}"
  | argumentCount head expected found =>
    s!"{head} expects {expected} arguments but {found} were given"
  | compoundName head => s!"expected a name but found an expression headed by {head}"
  | notAPosition head => s!"expected a non-negative integer but found {head}"
  | unknownSetKeyword head => s!"unknown keyword {head}"
  | unknownKeyword expected head => s!"unknown {expected} keyword {head}"
  | wrongCategory expected head found =>
    s!"expected a {expected} but found {head}, which is a {found}"
  | notASet parent head found =>
    s!"{parent} expects a concept or a role but {head} is a {found}"
  | unknownPredicate name => s!"unknown predicate {name}"
  | unknownConstant name => s!"unknown constant {name}"
  | unknownAtom name => s!"unknown atom {name}"
  | unknownAtomIndex index count =>
    s!"atom index {index} does not belong to an instance with {count} atoms"
  | duplicatePredicate name => s!"duplicate predicate {name}"
  | duplicateConstant name => s!"duplicate constant {name}"
  | duplicateObject name => s!"duplicate object {name}"
  | duplicateAtom name => s!"duplicate atom {name}"
  | atomArity predicate expected found =>
    s!"predicate {predicate} expects {expected} arguments but {found} were given"
  | foreignPredicate predicate => s!"predicate {predicate} is not part of the factory's vocabulary"
  | foreignConstant constant => s!"constant {constant} is not part of the factory's vocabulary"
  | positionOutOfRange position predicate =>
    s!"position {position} is out of range for predicate {predicate}"
  | notNullary predicate => s!"b_nullary requires a nullary predicate but {predicate} is not"
  | vocabularyMismatch =>
    "the state's instance does not share the element factory's vocabulary"
  | projectionPosition position => s!"projection position {position} is not 0 or 1"
  | foreignElement category index => s!"{category} {index} does not belong to this factory"

/-- The full wording of an error. -/
def message (e : Error) : String :=
  match e.kind with
  | .malformed => "syntax error: " ++ e.detail
  | .vocabulary => "vocabulary error: " ++ e.detail
  | .mismatch => e.detail
  | .structural => "structural error: " ++ e.detail

instance : ToString Error where
  toString := message

end Error

end DescLogic
