import Stepwise.Address
import Stepwise.Expr.Basic

/-!
# Frames

A frame is what the machine has open: a scope, which collects the variables bound in it, or a call, which collects the
arguments captured for it. Both list their entries oldest first. A name refers to the newest entry that has it
(`Scope.binder?`, `Call.argument?`).
-/

namespace Stepwise

inductive ScopeKind where
  /-- Opened by a left parenthesis; closing it makes a function type. -/
  | pi
  /-- Opened by a left bracket; closing it makes a function. -/
  | lam
  /-- Opened by an arrow outside all scopes; the dot of the declaration closes it. -/
  | decl
  deriving DecidableEq, Repr, Inhabited

/-- A variable bound by an open scope. -/
structure Binder where
  name : Option Name
  type : Expr
  /-- The instruction that bound it. -/
  pc : Address
  deriving DecidableEq, Repr, Inhabited

/-- An open scope. -/
structure Scope where
  kind : ScopeKind
  /-- The instruction that opened it. -/
  origin : Address
  binders : List Binder
  deriving DecidableEq, Repr, Inhabited

/-- An argument captured by a call. -/
structure Argument where
  name : Option Name
  term : Expr
  type : Expr
  /-- The instruction that captured it. -/
  pc : Address
  deriving DecidableEq, Repr, Inhabited

/-- A call in progress. -/
structure Call where
  /-- The name of the constant called. -/
  name : Name
  /-- The index of that constant in the signature. -/
  entry : Nat
  /-- The instruction that made the call. -/
  origin : Address
  arguments : List Argument
  deriving DecidableEq, Repr, Inhabited

inductive Frame where
  | scope (scope : Scope)
  | call (call : Call)
  deriving DecidableEq, Repr, Inhabited

namespace Scope

/-- The newest binder with a name. -/
def binder? (s : Scope) (name : Name) : Option Binder := s.binders.reverse.find? (·.name = some name)

/-- The names and types bound, oldest first. -/
def telescope (s : Scope) : List (Option Name × Expr) := s.binders.map fun b => (b.name, b.type)

def push (s : Scope) (b : Binder) : Scope := { s with binders := s.binders ++ [b] }

@[simp] theorem telescope_push (s : Scope) (b : Binder) :
    (s.push b).telescope = s.telescope ++ [(b.name, b.type)] := by
  simp [push, telescope]

end Scope

namespace Call

/-- The newest argument with a name. -/
def argument? (c : Call) (name : Name) : Option Argument := c.arguments.reverse.find? (·.name = some name)

/-- The terms captured, the one for the first parameter first. -/
def spine (c : Call) : List Expr := c.arguments.map (·.term)

def push (c : Call) (a : Argument) : Call := { c with arguments := c.arguments ++ [a] }

end Call

/-- What a frame is, without its entries. -/
inductive FrameShape where
  | scope (kind : ScopeKind)
  | call
  deriving DecidableEq, Repr, Inhabited

def Frame.shape : Frame → FrameShape
  | .scope s => .scope s.kind
  | .call _ => .call

def ScopeKind.text : ScopeKind → String
  | pi => "pi scope"
  | lam => "lambda scope"
  | decl => "declaration scope"

def FrameShape.text : FrameShape → String
  | scope kind => kind.text
  | call => "sub"

end Stepwise
