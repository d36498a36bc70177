import DescLogic.Text.Unprintable
/-!
# Quoted text

A quoted text stands in double quotes. Inside, the quote and the backslash are escaped by a
backslash, line ends, tab and NUL have one-letter escapes, every other character without a glyph
of its own is written by its code point in lowercase hexadecimal, and all else stands as it is. A
single quote is not escaped.
-/

namespace DescLogic.Text

/-- The code point of `c` in lowercase hexadecimal, in braces after a backslash and `u`. -/
def escapeCodePoint (c : Char) : List Char :=
  ['\\', 'u', '\x7b'] ++ Nat.toDigits 16 c.toNat ++ ['\x7d']

/-- One character as it stands inside double quotes. -/
def escape (c : Char) : List Char :=
  match c with
  | '"' => ['\\', '"']
  | '\\' => ['\\', '\\']
  | '\n' => ['\\', 'n']
  | '\r' => ['\\', 'r']
  | '\t' => ['\\', 't']
  | '\x00' => ['\\', '0']
  | c => if isUnprintable c then escapeCodePoint c else [c]

/-- The text in double quotes. -/
def quoted (s : String) : String :=
  String.ofList ('"' :: s.toList.flatMap escape ++ ['"'])

example : quoted "\"\n" = "\"\\\"\\n\"" := by decide

end DescLogic.Text
