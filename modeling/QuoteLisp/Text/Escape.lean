/-!
# Escaped text

A string is written between quotes with eleven characters replaced by a backslash and a letter.
`escape` writes that form and `unescape` reads it. Reading is total: a backslash before any other
character stands for itself, and so does one at the very end.
-/

namespace QuoteLisp

/-- The letter that stands for a character after a backslash, if the character is written so. -/
def escapeLetter? : Char → Option Char
  | '\x07' => some 'a'
  | '\x08' => some 'b'
  | '\x0c' => some 'f'
  | '\n' => some 'n'
  | '\r' => some 'r'
  | '\t' => some 't'
  | '\x0b' => some 'v'
  | '\\' => some '\\'
  | '\'' => some '\''
  | '"' => some '"'
  | '\x00' => some '0'
  | _ => none

/-- The character that a letter stands for after a backslash, if there is one. -/
def escapedBy? : Char → Option Char
  | 'a' => some '\x07'
  | 'b' => some '\x08'
  | 'f' => some '\x0c'
  | 'n' => some '\n'
  | 'r' => some '\r'
  | 't' => some '\t'
  | 'v' => some '\x0b'
  | '\\' => some '\\'
  | '\'' => some '\''
  | '"' => some '"'
  | '0' => some '\x00'
  | _ => none

/-- The written form of one character. -/
def escapeChar (c : Char) : List Char :=
  match escapeLetter? c with
  | some letter => ['\\', letter]
  | none => [c]

/-- The written form of a text, without the quotes around it. -/
def escape (text : List Char) : List Char :=
  text.flatMap escapeChar

@[simp] theorem escape_nil : escape [] = [] := rfl

@[simp] theorem escape_cons (c : Char) (cs : List Char) :
    escape (c :: cs) = escapeChar c ++ escape cs := by
  simp [escape]

@[simp] theorem escape_append (cs ds : List Char) : escape (cs ++ ds) = escape cs ++ escape ds := by
  simp [escape]

/-- The text that a written form stands for. -/
def unescape : List Char → List Char
  | [] => []
  | ['\\'] => ['\\']
  | '\\' :: letter :: rest =>
    match escapedBy? letter with
    | some c => c :: unescape rest
    | none => '\\' :: letter :: unescape rest
  | c :: rest => c :: unescape rest

end QuoteLisp
