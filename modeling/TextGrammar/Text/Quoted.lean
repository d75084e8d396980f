import TextGrammar.Text.Shapeless

/-! # Quoted text

Quoted text stands between two quotes. The quote, the backslash, the null character, the tab,
the carriage return and the line feed are written as a backslash and a letter, characters
without a shape of their own as a number, and every other character as it is. -/

namespace TextGrammar.Text

/-- A character written as its number in hexadecimal digits. -/
def numbered (c : Char) : List Char :=
  ['\\', 'u', '\x7b'] ++ Nat.toDigits 16 c.toNat ++ ['\x7d']

/-- How a character is written inside quoted text. -/
def quotedChar (c : Char) : List Char :=
  match c with
  | '"' => ['\\', '"']
  | '\\' => ['\\', '\\']
  | '\x00' => ['\\', '0']
  | '\t' => ['\\', 't']
  | '\r' => ['\\', 'r']
  | '\n' => ['\\', 'n']
  | c => if isShapeless c then numbered c else [c]

def quoted (cs : List Char) : List Char := '"' :: (cs.flatMap quotedChar ++ ['"'])

/-- How a message names a single character: the tab, the line ends, both quotes and the backslash
with a backslash, the other printable ASCII characters as they are, all else as a number. -/
def namedChar (c : Char) : List Char :=
  match c with
  | '\t' => ['\\', 't']
  | '\r' => ['\\', 'r']
  | '\n' => ['\\', 'n']
  | '\x27' => ['\\', '\x27']
  | '"' => ['\\', '"']
  | '\\' => ['\\', '\\']
  | c => if ' '.val ≤ c.val ∧ c.val ≤ '~'.val then [c] else numbered c

end TextGrammar.Text
