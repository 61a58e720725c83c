/-!
# Tokens

A token is one instruction of the machine. `grab` and `ret` have no surface spelling: they appear in the code of a
constant only. `Token.ofAtom` classifies an atom of the source, `Token.text` is the text that a token stands for, and
reading a keyword back gives the keyword (`ofAtom_text`).
-/

namespace Stepwise

/-- The text that names a constant or a variable. Any text is a name, the empty one included; a binder without a name
holds `none : Option Name`. -/
abbrev Name := String

/-- What is shown in place of an absent name. -/
def anonymous : Name := "_"

inductive Token where
  | type
  | arrow
  | colon
  | lparen
  | rparen
  | lbrack
  | rbrack
  | dot
  | id (name : Name)
  | grab
  | ret
  | eof
  deriving DecidableEq, Repr, Inhabited

namespace Token

/-- The text that a token stands for; also the name that it gives when it follows a colon. -/
def text : Token → String
  | type => "type"
  | arrow => "->"
  | colon => ":"
  | lparen => "("
  | rparen => ")"
  | lbrack => "["
  | rbrack => "]"
  | dot => "."
  | id name => name
  | grab => "grab"
  | ret => "ret"
  | eof => "EOF"

/-- Classifies an atom; what is no keyword is an identifier. The arrow has two spellings. -/
def ofAtom (atom : String) : Token :=
  match atom with
  | "type" => type
  | "->" => arrow
  | "→" => arrow
  | ":" => colon
  | "(" => lparen
  | ")" => rparen
  | "[" => lbrack
  | "]" => rbrack
  | "." => dot
  | "EOF" => eof
  | name => id name

def isOpening : Token → Bool
  | lparen | lbrack => true
  | _ => false

def isClosing : Token → Bool
  | rparen | rbrack => true
  | _ => false

/-- The tokens with a spelling of their own. -/
def keywords : List Token := [type, arrow, colon, lparen, rparen, lbrack, rbrack, dot, eof]

theorem ofAtom_text : ∀ t ∈ keywords, ofAtom t.text = t := by decide

end Token

end Stepwise
