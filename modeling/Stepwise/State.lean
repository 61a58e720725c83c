import Stepwise.Frame
import Stepwise.Signature
import Stepwise.Slot
import Stepwise.Source

/-!
# Machine states

A state is a complete snapshot of the machine. The stack and the open frames list their top first, the signature its
oldest constant first. A state that carries an error message is final.
-/

namespace Stepwise

structure State where
  /-- The control in force; the controls of the callers are on the stack. -/
  current : Control
  signature : Signature := []
  /-- The open scopes and calls, innermost first. -/
  frames : List Frame := []
  /-- Top first. -/
  stack : List Slot := []
  source : Source
  error : Option String := none
  deriving DecidableEq, Repr, Inhabited

namespace State

/-- The state in which a run of a source begins. -/
def start (source : Source) : State where
  current := { pc := .stream 0, program := ⟨0, 0⟩ }
  source := source

def ofText (text : String) : State := start (Source.ofText text)

/-- The instruction at an address, if it has one. -/
def tokenAt? (s : State) : Address → Option Token
  | .stream index => s.source.tokens[index]?
  | .code entry offset => (s.signature[entry]?).bind fun c => c.code[offset]?

/-- The instruction to be executed next. -/
def fetch (s : State) : Option Token := s.tokenAt? s.current.pc

/-- The number of saved controls on the stack. -/
def callDepth (s : State) : Nat := s.stack.countP Slot.isSaved

def push (s : State) (v : Value) : State := { s with stack := .value v :: s.stack }

/-! ## Names in scope -/

/-- What a name refers to. -/
inductive Binding where
  /-- An argument of a call in progress. -/
  | argument (argument : Argument)
  /-- A variable of an open scope. -/
  | variable (binder : Binder)
  /-- A constant, with its index in the signature. -/
  | constant (entry : Nat) (constant : Constant)
  deriving DecidableEq, Repr, Inhabited

/-- What a name refers to in a list of frames, innermost first. From inside code the innermost call is the last frame
that is visible, so the names of the caller stay out of sight. -/
def resolve (inCode : Bool) (name : Name) : List Frame → Option Binding
  | [] => none
  | .scope s :: outer =>
    match s.binder? name with
    | some b => some (.variable b)
    | none => resolve inCode name outer
  | .call c :: outer =>
    match c.argument? name with
    | some a => some (.argument a)
    | none => if inCode then none else resolve inCode name outer

/-- What a name refers to: the innermost open frame that has it, then the newest constant. -/
def lookup (s : State) (name : Name) : Option Binding :=
  match resolve s.current.pc.inCode name s.frames with
  | some b => some b
  | none => (s.signature.newest? name).map fun found => .constant found.1 found.2

theorem resolve_ne_constant (inCode : Bool) (name : Name) :
    ∀ (frames : List Frame) (entry : Nat) (c : Constant), resolve inCode name frames ≠ some (.constant entry c)
  | [], _, _ => by simp [resolve]
  | .scope s :: outer, entry, c => by
    unfold resolve
    split
    · simp
    · exact resolve_ne_constant inCode name outer entry c
  | .call d :: outer, entry, c => by
    unfold resolve
    split
    · simp
    · split
      · simp
      · exact resolve_ne_constant inCode name outer entry c

/-- A name that refers to a constant is the name of the constant at that index. -/
theorem getElem?_of_lookup {s : State} {name : Name} {entry : Nat} {c : Constant}
    (h : s.lookup name = some (.constant entry c)) : s.signature[entry]? = some c ∧ c.name = name := by
  unfold lookup at h
  split at h
  · rename_i b hb
    obtain rfl := Option.some.inj h
    exact absurd hb (resolve_ne_constant _ _ _ _ _)
  · obtain ⟨found, hfound, heq⟩ := Option.map_eq_some_iff.mp h
    obtain ⟨rfl, rfl⟩ := Binding.constant.inj heq
    exact Signature.getElem?_of_newest? hfound

end State

end Stepwise
