import Stepwise.Code
import Stepwise.Step.Take

/-!
# What each instruction does

* Brackets open and close scopes (`openScope`, `closePi`, `closeLam`).
* An arrow or a dot binds (`bindTop`): under a call it captures an argument (`grab`), in a scope it adds a variable
  (`extend`), and a dot outside all bracketed scopes declares a constant (`define`).
* An identifier that names a constant calls it (`enter`), and `ret` ends the call (`leave`).

`effect` picks the rule of a token. Right after a colon the token is read as a name instead.
-/

namespace Stepwise.State

/-! ## Scopes -/

/-- Opens a scope with no variables. -/
def openScope (s : State) (kind : ScopeKind) : State :=
  { s with frames := .scope ⟨kind, s.current.pc, []⟩ :: s.frames }

/-- Closes a parenthesis: the body, which has to be a type, becomes a function type over the variables of the scope. -/
def closePi (s : State) : Except Failure State := do
  let (body, s) ← s.takeType .rparen
  let (scope, s) ← s.takeScope .pi .rparen
  let (name, s) := s.takeName body.name
  .ok (s.push ⟨.pis scope.telescope body.term, body.type, name⟩)

/-- Closes a bracket: the body becomes a function of the variables of the scope, and its type the type of that
function. -/
def closeLam (s : State) : Except Failure State := do
  let (body, s) ← s.takeValue .rbrack
  let (scope, s) ← s.takeScope .lam .rbrack
  let (name, s) := s.takeName body.name
  .ok (s.push ⟨.lams scope.telescope body.term, .pis scope.telescope body.type, name⟩)

/-! ## Binding -/

/-- Adds a variable, whose type is on the stack, to the scope `sc` inside `outer`. -/
def extend (s : State) (sc : Scope) (outer : List Frame) (during : Token) : Except Failure State := do
  let (v, s) ← s.takeType during
  let (name, s) := s.takeName v.name
  .ok { s with frames := .scope (sc.push ⟨name, v.term, s.current.pc⟩) :: outer }

/-- Declares a constant whose type is on the stack, under the given binders, and leaves the frames `outer`. The next
declaration begins after the dot. -/
def define (s : State) (binders : List (Option Name × Expr)) (outer : List Frame) : Except Failure State :=
  match s.current.pc with
  | .code _ _ => stuck (.outsideStream .dot)
  | .stream index => do
    let (v, s) ← s.takeType .dot
    let (name, s) := s.takeName v.name
    let program : Span := ⟨s.current.program.first, index⟩
    if program.first ≤ index ∧ index ≤ s.source.tokens.length then
      let declaration := (s.source.tokens.take index).drop program.first
      let constant : Constant :=
        ⟨name.getD anonymous, .pis binders v.term, program, Code.ofDeclaration declaration⟩
      .ok { s with
        frames := outer
        signature := s.signature ++ [constant]
        current.program := ⟨index + 1, index + 1⟩ }
    else .error (.fault (.spanOutOfRange program))

/-- Captures the next argument of the innermost call. From the top, the stack holds the type of the parameter, the
control of the caller and the argument, whose type has to match. The control goes back on top, so that the next
parameter finds its argument in the same place. -/
def grab (s : State) (during : Token) : Except Failure State :=
  match s.frames with
  | [] => stuck (.frameUnderflow during)
  | .scope sc :: _ => stuck (.frameMismatch .call (.scope sc.kind) during)
  | .call c :: outer => do
    let (parameter, s) ← s.takeType during
    let (caller, s) ← s.takeControl during
    let (argument, s) ← s.takeValue during
    if argument.type.Matches parameter.term then
      let (name, s) := s.takeName parameter.name
      .ok { s with
        frames := .call (c.push ⟨name, argument.term, argument.type, s.current.pc⟩) :: outer
        stack := .saved caller :: s.stack }
    else stuck (.typeMismatch parameter.term argument.type during)

/-- An arrow or a dot. The innermost frame decides what it binds; with none open, an arrow opens the scope of the
declaration. -/
def bindTop (s : State) (during : Token) : Except Failure State :=
  match s.frames with
  | .call _ :: _ => s.grab during
  | .scope sc :: outer =>
    if sc.kind = .decl ∧ during = .dot then s.define sc.telescope outer else s.extend sc outer during
  | [] => if during = .dot then s.define [] [] else s.extend ⟨.decl, s.current.pc, []⟩ [] during

/-! ## Calls -/

/-- Calls the constant `c` at index `entry`: the control of the caller is saved, and execution goes to the code. -/
def enter (s : State) (entry : Nat) (c : Constant) : State :=
  { s with
    current := { pc := .code entry 0, program := c.program }
    frames := .call ⟨c.name, entry, s.current.pc, []⟩ :: s.frames
    stack := .saved s.current :: s.stack }

/-- Ends a call. The code has left the type of the result on the stack; the result is the constant applied to the
captured arguments. -/
def leave (s : State) : Except Failure State := do
  let (result, s) ← s.takeType .ret
  let (call, s) ← s.takeCall .ret
  let (caller, s) ← s.takeControl .ret
  .ok ({ s with current := caller }.push ⟨.const call.name call.spine, result.term, none⟩)

/-! ## Instructions -/

/-- Where execution goes after an instruction. -/
inductive Effect where
  /-- To the instruction after the current one. -/
  | next (s : State)
  /-- Where the state says. -/
  | jump (s : State)
  | halt
  deriving DecidableEq, Repr

/-- Takes a token as a name; only the end of the program is none. -/
def acceptName (s : State) (t : Token) : Except Failure State :=
  if t = .eof then stuck .missingName
  else .ok { s with current.name := some t.text, current.readingName := false }

/-- An identifier: a variable or an argument pushes its value, a constant is called. -/
def mention (s : State) (name : Name) : Except Failure Effect :=
  match s.lookup name with
  | some (.argument a) => .ok (.next (s.push ⟨a.term, a.type, none⟩))
  | some (.variable b) => .ok (.next (s.push ⟨.var name [], b.type, none⟩))
  | some (.constant entry c) => .ok (.jump (s.enter entry c))
  | none => stuck (.notFound name)

/-- What a token does in a state. -/
def effect (s : State) (t : Token) : Except Failure Effect :=
  if s.current.readingName then (s.acceptName t).map .next
  else
    match t with
    | .type => .ok (.next (s.push ⟨.type, .kind, none⟩))
    | .colon => .ok (.next { s with current.readingName := true })
    | .lparen => .ok (.next (s.openScope .pi))
    | .rparen => s.closePi.map .next
    | .lbrack => .ok (.next (s.openScope .lam))
    | .rbrack => s.closeLam.map .next
    | .arrow => (s.bindTop .arrow).map .next
    | .dot => (s.bindTop .dot).map .next
    | .grab => (s.grab .grab).map .next
    | .ret => s.leave.map .next
    | .id name => s.mention name
    | .eof => .ok .halt

end Stepwise.State
