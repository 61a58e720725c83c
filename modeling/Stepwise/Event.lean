import Stepwise.Trace

/-!
# The log of a run

What a run reports: one event for each instruction executed, each constant declared and each step that failed, and one
for the end of the run (`Trace.events`). The run was cut short exactly when its last state still has a successor
(`State.outcome`).
-/

namespace Stepwise

inductive Event where
  | executed (pc : Address) (token : Token)
  | declared (constant : Constant)
  | failed (pc : Address) (error : StepError)
  | truncated (states : Nat)
  | stopped (states : Nat) (error : String)
  | finished (states constants : Nat)
  deriving DecidableEq, Repr, Inhabited

/-- How much an event matters, most severe first. -/
inductive Level where
  | warn
  | info
  | debug
  | trace
  deriving DecidableEq, Repr, Inhabited

namespace Level

def rank : Level → Nat
  | warn => 0
  | info => 1
  | debug => 2
  | trace => 3

/-- Whether a log kept at level `limit` shows what is of this level. -/
def shownAt (l limit : Level) : Bool := l.rank ≤ limit.rank

def text : Level → String
  | warn => "WARN"
  | info => "INFO"
  | debug => "DEBUG"
  | trace => "TRACE"

end Level

namespace Event

def level : Event → Level
  | executed _ _ => .trace
  | declared _ => .debug
  | failed _ _ => .debug
  | truncated _ => .warn
  | stopped _ _ => .info
  | finished _ _ => .info

def message : Event → String
  | executed pc t => pc.text ++ " " ++ t.text
  | declared c =>
    "defined " ++ c.name ++ " : " ++ c.type.flatText ++ " at " ++ toString c.program.first ++ "..=" ++
      toString c.program.last
  | failed pc e => "step at " ++ pc.text ++ " failed: " ++ e.message
  | truncated n => "trace truncated after " ++ toString n ++ " states"
  | stopped n e => "run stopped after " ++ toString n ++ " states: " ++ e
  | finished n k => "run finished after " ++ toString n ++ " states with " ++ toString k ++ " signature entries"

end Event

namespace State

/-- What the step from a state reports. The constants that it declares are those that its successor has in addition. -/
def events (s : State) : List Event :=
  if s.error.isSome then []
  else
    match s.fetch with
    | none => [.failed s.current.pc (.noInstruction s.current.pc)]
    | some t =>
      .executed s.current.pc t ::
        match s.exec t with
        | .ok (some next) => (next.signature.drop s.signature.length).map .declared
        | .ok none => []
        | .error (.error e) => [.failed s.current.pc e]
        | .error (.fault _) => []

/-- How a run of `states` states that ends in `s` ended. -/
def outcome (s : State) (states : Nat) : Event :=
  match s.step with
  | .ok (some _) => .truncated states
  | _ =>
    match s.error with
    | some e => .stopped states e
    | none => .finished states s.signature.length

end State

/-- Everything that a run reports, in order. -/
def Trace.events (states : Trace) : List Event :=
  states.flatMap State.events ++ states.getLast?.toList.map fun last => last.outcome states.length

end Stepwise
