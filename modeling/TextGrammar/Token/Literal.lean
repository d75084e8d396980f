import TextGrammar.Text.Offset
import TextGrammar.Text.Quoted
import TextGrammar.Token

/-! # String literals

A string literal is the text between two quotes, with six escapes: a backslash before a
backslash, a quote, or one of the letters `n`, `t`, `r` and `0`. -/

namespace TextGrammar.Literal

inductive Fault where
  | unclosed
  | unknownEscape (c : Char)
deriving DecidableEq, Repr

def Fault.message : Fault → String
  | .unclosed => "Expected closing quote"
  | .unknownEscape c => "Unknown character escape '" ++ String.ofList (Text.namedChar c) ++ "'"

def escaped? : Char → Option Char
  | '\\' => some '\\'
  | '"' => some '"'
  | 'n' => some '\n'
  | 't' => some '\t'
  | 'r' => some '\r'
  | '0' => some '\x00'
  | _ => none

def body? : List Char → Option (List Char)
  | '"' :: cs => if cs.getLast? = some '"' then some cs.dropLast else none
  | _ => none

/-- Reads the body of a literal from byte offset `start` on. A fault comes with its offset: a
backslash at the end takes the closing quote for itself, which ends two bytes further. -/
def decodeBody (start : Nat) : List Char → Except (Nat × Fault) (List Char)
  | [] => .ok []
  | '\\' :: [] => .error (start + 2, .unclosed)
  | '\\' :: c :: cs =>
    match escaped? c with
    | some d => (decodeBody (start + 1 + c.utf8Size) cs).map (d :: ·)
    | none => .error (start + 1, .unknownEscape c)
  | c :: cs => (decodeBody (start + c.utf8Size) cs).map (c :: ·)

/-- The text that a string literal stands for, or a fault and its byte offset in the literal. -/
def decode (text : List Char) : Except (Nat × Fault) (List Char) :=
  match body? text with
  | some body => decodeBody 1 body
  | none => .error (Text.byteLength text, .unclosed)

/-- The text of the literal at a span of a source; the offset of a fault is one of the source. A
span that cuts a character or leaves the source covers no text. -/
def extract (source : List Char) (span : Span) : Except (Nat × Fault) (List Char) :=
  (decode ((Text.slice? span.start span.stop source).getD [])).mapError
    fun (offset, fault) => (span.start + offset, fault)

end TextGrammar.Literal
