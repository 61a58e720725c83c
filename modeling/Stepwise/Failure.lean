import Stepwise.Expr.Flat
import Stepwise.Frame

/-!
# Failures of a step

A step error is a defect of the program: the machine records its message and stops. A fault leaves no state to stop
in: an address outside the machine words, or a declaration whose span does not lie in the token stream.
-/

namespace Stepwise

/-- Why an instruction cannot be executed; `during` is that instruction. -/
inductive StepError where
  | stackUnderflow (during : Token)
  | frameUnderflow (during : Token)
  | expectedValue (during : Token)
  | expectedControl (during : Token)
  | frameMismatch (expected found : FrameShape) (during : Token)
  /-- The value on top of the stack is no type: `found` classifies it. -/
  | expectedClassifier (found : Expr) (during : Token)
  | typeMismatch (expected got : Expr) (during : Token)
  | notFound (name : Name)
  | missingName
  | outsideStream (during : Token)
  | noInstruction (pc : Address)
  deriving DecidableEq, Repr, Inhabited

def StepError.message : StepError → String
  | stackUnderflow during => "stack underflow during " ++ during.text
  | frameUnderflow during => "metacontext underflow during " ++ during.text
  | expectedValue during => "expected data on stack during " ++ during.text ++ ", found a control entry"
  | expectedControl during => "expected control entry on stack during " ++ during.text ++ ", found data"
  | frameMismatch expected found during =>
    "expected " ++ expected.text ++ " during " ++ during.text ++ ", found " ++ found.text
  | expectedClassifier found during =>
    "expected classifier on stack during " ++ during.text ++ ", found " ++ found.flatText
  | typeMismatch expected got during =>
    "type mismatch during " ++ during.text ++ ": expected " ++ expected.flatText ++ ", got " ++ got.flatText
  | notFound name => name ++ " not found"
  | missingName => "missing name after :"
  | outsideStream during => during.text ++ " executed outside the token stream"
  | noInstruction pc => "program counter " ++ pc.text ++ " does not address an instruction"

/-- Why there is no state after an instruction. -/
inductive Fault where
  /-- The address of the next instruction is no machine word. -/
  | addressOverflow (pc : Address)
  /-- A declaration is said to begin after its dot, or its dot to stand beyond the end of the stream. -/
  | spanOutOfRange (program : Span)
  deriving DecidableEq, Repr, Inhabited

inductive Failure where
  | error (error : StepError)
  | fault (fault : Fault)
  deriving DecidableEq, Repr, Inhabited

end Stepwise
