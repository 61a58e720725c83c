import Stepwise.State

/-!
# Text for people

Machine values as text, one line an item. A spelling chooses between ASCII and Unicode symbols; with ASCII a token is
shown as its own text (`token_ascii`), and a line of tokens as their texts separated by spaces.
-/

namespace Stepwise

inductive Spelling where
  | ascii
  | unicode
  deriving DecidableEq, Repr, Inhabited

namespace Spelling

/-- The ASCII or the Unicode form of a symbol. -/
def choose (u : Spelling) (inAscii inUnicode : String) : String :=
  match u with
  | ascii => inAscii
  | unicode => inUnicode

def token (u : Spelling) (t : Token) : String :=
  match u, t with
  | unicode, .type => "*"
  | unicode, .arrow => "→"
  | unicode, .grab => "▷"
  | unicode, .ret => "⤶"
  | _, t => t.text

@[simp] theorem token_ascii (t : Token) : ascii.token t = t.text := rfl

def code (u : Spelling) (ts : List Token) : String := " ".intercalate (ts.map u.token)

/-- A name, or the placeholder for none. -/
def name (n : Option Name) : String := n.getD anonymous

/-- The argument list that follows a head; a head without arguments stands alone. -/
def application (u : Spelling) : List String → String
  | [] => ""
  | args => u.choose "(" "·(" ++ ", ".intercalate args ++ ")"

mutual

def expr (u : Spelling) : Expr → String
  | .type => "type"
  | .kind => "kind"
  | .pi none a b => "(" ++ u.expr a ++ ") " ++ u.choose "->" "→" ++ " " ++ u.expr b
  | .pi (some n) a b => u.choose "Pi" "Π" ++ " " ++ n ++ ":" ++ u.expr a ++ ". " ++ u.expr b
  | .lam n a b => u.choose "\\" "λ " ++ name n ++ ":" ++ u.expr a ++ ". " ++ u.expr b
  | .const n spine => n ++ u.application (u.exprs spine)
  | .var n spine => n ++ u.application (u.exprs spine)

def exprs (u : Spelling) : List Expr → List String
  | [] => []
  | e :: es => u.expr e :: u.exprs es

end

def constant (u : Spelling) (c : Constant) : String :=
  c.name ++ " : " ++ u.expr c.type ++ " [" ++ u.code c.code ++ "]"

/-- An address, with the instruction there if it has one, and the pending name. -/
def control (u : Spelling) (s : State) (c : Control) : String :=
  let place :=
    match s.tokenAt? c.pc with
    | some t => c.pc.text ++ " (" ++ u.token t ++ ")"
    | none => c.pc.text
  if c.readingName then place ++ ", name: ?"
  else
    match c.name with
    | some n => place ++ ", name: " ++ n
    | none => place

def slot (u : Spelling) (s : State) : Slot → String
  | .value v => u.expr v.term ++ " : " ++ u.expr v.type
  | .saved c => "<return to " ++ u.control s c ++ ">"

def binder (u : Spelling) (b : Binder) : String := name b.name ++ ":" ++ u.expr b.type

def argument (u : Spelling) (a : Argument) : String :=
  "[" ++ u.expr a.term ++ "/" ++ name a.name ++ "]:" ++ u.expr a.type

def frame (u : Spelling) : Frame → String
  | .scope s => s.kind.text ++ "(" ++ ", ".intercalate (s.binders.map u.binder) ++ ")"
  | .call c => "sub " ++ c.name ++ "(" ++ ", ".intercalate (c.arguments.map u.argument) ++ ")"

/-- A heading and its items, each on a line of its own. -/
def block (heading : String) (items : List String) : String :=
  heading ++ "\n" ++ String.join (items.map fun item => "    " ++ item ++ "\n")

/-- A whole state, bottom of the stack and outermost frame first. Of a state with an error only the error is shown. -/
def state (u : Spelling) (s : State) : String :=
  "CONTROL: " ++ u.control s s.current ++ "\n" ++
    match s.error with
    | some e => "ERROR: " ++ e ++ "\n"
    | none =>
      block "SIG:" (s.signature.map u.constant) ++ block "STACK:" (s.stack.reverse.map (u.slot s)) ++
        block "META:" (s.frames.reverse.map u.frame)

end Spelling

end Stepwise
