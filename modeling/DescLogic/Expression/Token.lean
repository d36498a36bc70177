import DescLogic.Error
/-!
# Tokens of a description

A description is made of identifiers, integers, parentheses and commas. Blanks, tabs and line ends
separate tokens and mean nothing else. An identifier or an integer is as long as it can be, so
`a1` is one token and `1a` is two. All characters of a token are ASCII, one byte each.

* `Token.lex`: the tokens of a text, each with the byte offset at which it starts.
-/

namespace DescLogic

/-- A token. -/
inductive Token where
  /-- An opening parenthesis. -/
  | opening
  /-- A closing parenthesis. -/
  | closing
  /-- A comma. -/
  | comma
  /-- A letter or underscore, then letters, digits, underscores and hyphens. -/
  | identifier (text : String)
  /-- One or more digits. -/
  | integer (text : String)
deriving DecidableEq, Repr

/-- A token and the byte offset at which it starts. -/
structure Lexeme where
  /-- The token. -/
  token : Token
  /-- The number of bytes before it. -/
  offset : Nat
deriving DecidableEq, Repr

namespace Token

/-- Blank, tab and line ends separate tokens. -/
def isBlank (c : Char) : Bool := c == ' ' || c == '\t' || c == '\n' || c == '\r'

/-- The characters that start an identifier: ASCII letters and the underscore. -/
def isNameStart (c : Char) : Bool := c.isAlpha || c == '_'

/-- The characters that continue an identifier. -/
def isNamePart (c : Char) : Bool := c.isAlphanum || c == '_' || c == '-'

/-- Where the tokens stop: at the byte offset, before the character. -/
structure LexFault where
  /-- The character that starts no token. -/
  found : Char
  /-- The number of bytes before it. -/
  offset : Nat
deriving DecidableEq, Repr

/-- The tokens of `cs`, which stand `offset` bytes into the text. -/
def lexFrom (offset : Nat) : List Char → Except LexFault (List Lexeme)
  | [] => .ok []
  | c :: cs =>
    if isBlank c then lexFrom (offset + c.utf8Size) cs
    else if c = '(' then (⟨.opening, offset⟩ :: ·) <$> lexFrom (offset + 1) cs
    else if c = ')' then (⟨.closing, offset⟩ :: ·) <$> lexFrom (offset + 1) cs
    else if c = ',' then (⟨.comma, offset⟩ :: ·) <$> lexFrom (offset + 1) cs
    else if isNameStart c then
      let text := c :: cs.takeWhile isNamePart
      (⟨.identifier (String.ofList text), offset⟩ :: ·) <$>
        lexFrom (offset + text.length) (cs.dropWhile isNamePart)
    else if c.isDigit then
      let text := c :: cs.takeWhile Char.isDigit
      (⟨.integer (String.ofList text), offset⟩ :: ·) <$>
        lexFrom (offset + text.length) (cs.dropWhile Char.isDigit)
    else .error ⟨c, offset⟩
termination_by cs => cs.length
decreasing_by
  all_goals
    have := (List.dropWhile_sublist isNamePart (l := cs)).length_le
    have := (List.dropWhile_sublist Char.isDigit (l := cs)).length_le
    rw [List.length_cons]
    omega

/-- The tokens of a text, or the first character that starts none. -/
def lex (text : String) : Except Error (List Lexeme) :=
  match lexFrom 0 text.toList with
  | .ok lexemes => .ok lexemes
  | .error fault => .error (.unexpectedCharacter fault.found fault.offset text)

end Token

end DescLogic
