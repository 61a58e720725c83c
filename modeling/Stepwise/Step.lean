import Stepwise.Step.Instruction

/-!
# Steps

`State.exec` executes an instruction; `State.step` executes the one that the program counter addresses. A state with
an error and a state whose instruction is `eof` have no successor. An instruction that fails has one: the same state
with the message of the error, and nothing else changed (`step_of_exec_error`).
-/

namespace Stepwise.State

/-- Moves the program counter to the next instruction. -/
def advance (s : State) : Except Failure State :=
  match s.current.pc.next? with
  | some pc => .ok { s with current.pc := pc }
  | none => .error (.fault (.addressOverflow s.current.pc))

/-- Executes an instruction, whatever the program counter addresses; `none` when it halts the machine. -/
def exec (s : State) (t : Token) : Except Failure (Option State) := do
  match ← s.effect t with
  | .next s => some <$> s.advance
  | .jump s => .ok (some s)
  | .halt => .ok none

/-- The final state after a step error. -/
def fail (s : State) (e : StepError) : State := { s with error := some e.message }

/-- The successor of a state, if it has one. -/
def step (s : State) : Except Fault (Option State) :=
  if s.error.isSome then .ok none
  else
    match s.fetch with
    | none => .ok (some (s.fail (.noInstruction s.current.pc)))
    | some t =>
      match s.exec t with
      | .ok next => .ok next
      | .error (.error e) => .ok (some (s.fail e))
      | .error (.fault f) => .error f

theorem step_of_error {s : State} (h : s.error.isSome = true) : s.step = .ok none := by
  simp [step, h]

theorem step_of_exec_error {s : State} {t : Token} {e : StepError} (h : s.error = none) (hf : s.fetch = some t)
    (he : s.exec t = .error (.error e)) : s.step = .ok (some { s with error := some e.message }) := by
  simp [step, h, hf, he, fail]

end Stepwise.State
