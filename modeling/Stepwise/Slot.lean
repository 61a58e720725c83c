import Stepwise.Address
import Stepwise.Expr.Basic

/-!
# Stack slots

A slot of the stack holds a value, or the control that a call saved and its return restores.
-/

namespace Stepwise

/-- Where execution is, which declaration it is in, and the name that it has read but not used yet. -/
structure Control where
  pc : Address
  /-- The declaration being read. -/
  program : Span
  /-- The name read after the latest colon, until something takes it. -/
  name : Option Name := none
  /-- Whether the next token is taken as a name. -/
  readingName : Bool := false
  deriving DecidableEq, Repr, Inhabited

/-- A term with its type. The name was read inside a scope and waits for the binder that takes the value. -/
structure Value where
  term : Expr
  type : Expr
  name : Option Name := none
  deriving DecidableEq, Repr, Inhabited

inductive Slot where
  | value (value : Value)
  | saved (control : Control)
  deriving DecidableEq, Repr, Inhabited

/-- Whether the slot holds a saved control. -/
def Slot.isSaved : Slot → Bool
  | value _ => false
  | saved _ => true

end Stepwise
