import Stepwise.Step

/-!
# Traces

A run collects every state from a given one on, until there is no successor or the trace is as long as allowed. The
successor of the last state is computed as well, so that a run tells whether it was cut short.
-/

namespace Stepwise

/-- The states of a run, initial state first. -/
abbrev Trace := List State

/-- The length that a trace may have if nothing else is asked for. A constant that shadows one that its own declaration
mentions calls itself for ever, so some runs have no end. -/
def defaultMaxStates : Nat := 1000

namespace State

/-- The states reached from `s` by at most `fuel` steps. -/
def trace (s : State) : Nat → Except Fault Trace
  | 0 => s.step.map fun _ => [s]
  | fuel + 1 => do
    match ← s.step with
    | none => .ok [s]
    | some t => (s :: ·) <$> t.trace fuel

/-- Runs until there is no successor or the trace holds `max` states; it holds one at least. -/
def run (s : State) (max : Nat) : Except Fault Trace := s.trace (max - 1)

end State

/-- Reads a program and runs it. -/
def runText (text : String) (max : Nat) : Except Fault Trace := (State.ofText text).run max

namespace State

theorem trace_of_step_error {s : State} {f : Fault} (h : s.step = .error f) (fuel : Nat) :
    s.trace fuel = .error f := by
  cases fuel <;> simp [trace, h, Except.map, bind, Except.bind]

theorem trace_of_step_none {s : State} (h : s.step = .ok none) (fuel : Nat) : s.trace fuel = .ok [s] := by
  cases fuel <;> simp [trace, h, Except.map, bind, Except.bind]

theorem trace_zero_of_step {s : State} {next : Option State} (h : s.step = .ok next) : s.trace 0 = .ok [s] := by
  simp [trace, h, Except.map]

theorem trace_succ_of_step {s t : State} (h : s.step = .ok (some t)) (fuel : Nat) :
    s.trace (fuel + 1) = (t.trace fuel).map (s :: ·) := by
  simp [trace, h, bind, Except.bind, Functor.map]

/-- A trace is its first state alone, if nothing follows or nothing may follow, or that state and then the trace of its
successor. -/
theorem trace_cases {s : State} {fuel : Nat} {states : Trace} (h : s.trace fuel = .ok states) :
    (∃ next, s.step = .ok next) ∧
    (states = [s] ∧ (s.step = .ok none ∨ fuel = 0) ∨
      ∃ t fuel' rest, s.step = .ok (some t) ∧ fuel = fuel' + 1 ∧ t.trace fuel' = .ok rest ∧ states = s :: rest) := by
  cases hstep : s.step with
  | error f =>
    rw [trace_of_step_error hstep] at h
    cases h
  | ok next =>
    refine ⟨⟨next, rfl⟩, ?_⟩
    cases fuel with
    | zero =>
      rw [trace_zero_of_step hstep] at h
      exact .inl ⟨(Except.ok.inj h).symm, .inr rfl⟩
    | succ fuel =>
      cases next with
      | none =>
        rw [trace_of_step_none hstep] at h
        exact .inl ⟨(Except.ok.inj h).symm, .inl rfl⟩
      | some t =>
        rw [trace_succ_of_step hstep] at h
        cases hrest : t.trace fuel with
        | error f =>
          rw [hrest] at h
          cases h
        | ok rest =>
          rw [hrest] at h
          exact .inr ⟨t, fuel, rest, rfl, rfl, hrest, (Except.ok.inj h).symm⟩

/-- The first state of a trace is the one that it starts from. -/
theorem head?_of_trace {s : State} {fuel : Nat} {states : Trace} (h : s.trace fuel = .ok states) :
    states.head? = some s := by
  rcases (trace_cases h).2 with ⟨rfl, _⟩ | ⟨_, _, _, _, _, _, rfl⟩
  · rfl
  · rfl

end State

end Stepwise
