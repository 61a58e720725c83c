import Stepwise.Trace

/-!
# A cursor into a trace

What a debugger front end works with: a finished trace, the position of the state that is shown, and what is selected
in it. No move leaves the trace: the position is clamped to the last one (`position_apply_le`).
-/

namespace Stepwise

/-- Something picked in the state shown. -/
inductive Selection where
  /-- The constant at an index of the signature. -/
  | constant (entry : Nat)
  /-- The saved control at an index of the stack, counted from the bottom. -/
  | control (index : Nat)
  deriving DecidableEq, Repr, Inhabited

/-- Whether the token at `index` of the stream belongs to what is selected: it lies in the declaration of the
constant, or the saved control returns to it. -/
def State.highlights (s : State) (selection : Selection) (index : Nat) : Bool :=
  match selection with
  | .constant entry =>
    match s.signature[entry]? with
    | some c => decide (index ∈ c.program)
    | none => false
  | .control position =>
    match s.stack.reverse[position]? with
    | some (.saved c) => c.pc = .stream index
    | _ => false

structure Debugger where
  /-- The index of the state shown. -/
  position : Nat := 0
  states : Trace
  selection : Option Selection := none
  deriving DecidableEq, Repr, Inhabited

namespace Debugger

inductive Action where
  /-- Moves by some states, backwards if negative. -/
  | move (delta : Int64)
  /-- Shows the state at a position. -/
  | goTo (position : Nat)
  /-- Shows the first state that executes the token at an index of the stream, if there is one. -/
  | find (index : Nat)
  | select (selection : Option Selection)
  deriving DecidableEq, Inhabited

/-- A cursor at the first state of a trace. -/
def ofTrace (states : Trace) : Debugger := { states }

def lastPosition (d : Debugger) : Nat := d.states.length - 1

/-- The state shown. -/
def current? (d : Debugger) : Option State := d.states[d.position]?

/-- Shows the state at a position, or the last one if there is none. -/
def seek (d : Debugger) (position : Nat) : Debugger := { d with position := min position d.lastPosition }

/-- How far a move goes: the size of its number as a machine word. -/
def distance (delta : Int64) : Nat := (if delta < 0 then -delta else delta).toUInt64.toNat

/-- The position that a move aims at, before it is clamped to the trace; it is a machine word. -/
def target (position : Nat) (delta : Int64) : Nat :=
  if delta < 0 then position - distance delta else min (position + distance delta) maxWord

def apply (d : Debugger) : Action → Debugger
  | .move delta => d.seek (target d.position delta)
  | .goTo position => d.seek position
  | .find index =>
    match d.states.findIdx? (·.current.pc = .stream index) with
    | some position => d.seek position
    | none => d
  | .select selection => { d with selection }

def next (d : Debugger) : Debugger := d.apply (.move 1)

def previous (d : Debugger) : Debugger := d.apply (.move (-1))

theorem position_seek_le (d : Debugger) (position : Nat) :
    (d.seek position).position ≤ (d.seek position).lastPosition :=
  Nat.min_le_right _ _

theorem position_apply_le (d : Debugger) (a : Action) (h : d.position ≤ d.lastPosition) :
    (d.apply a).position ≤ (d.apply a).lastPosition := by
  cases a with
  | move delta => exact position_seek_le d _
  | goTo position => exact position_seek_le d position
  | find index =>
    simp only [apply]
    split
    · exact position_seek_le d _
    · exact h
  | select selection => exact h

end Debugger

end Stepwise
