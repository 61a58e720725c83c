import Stepwise.Failure
import Stepwise.State

/-!
# Taking things from a state

An instruction takes its operands from the top of the stack, from the innermost frame, or from the name that is pending.
Each of these either yields what was taken together with the state without it, or fails with the error that says what is
missing.
-/

namespace Stepwise.State

/-- Fails with a step error. -/
abbrev stuck {α : Type} (e : StepError) : Except Failure α := .error (.error e)

/-- Takes the value on top of the stack. -/
def takeValue (s : State) (during : Token) : Except Failure (Value × State) :=
  match s.stack with
  | [] => stuck (.stackUnderflow during)
  | .value v :: rest => .ok (v, { s with stack := rest })
  | .saved _ :: _ => stuck (.expectedValue during)

/-- Takes the value on top of the stack, which has to be a type: its own type is `type` or `kind`. -/
def takeType (s : State) (during : Token) : Except Failure (Value × State) := do
  let (v, s) ← s.takeValue during
  if v.type.isSort then .ok (v, s) else stuck (.expectedClassifier v.type during)

/-- Takes the control on top of the stack. -/
def takeControl (s : State) (during : Token) : Except Failure (Control × State) :=
  match s.stack with
  | [] => stuck (.stackUnderflow during)
  | .saved c :: rest => .ok (c, { s with stack := rest })
  | .value _ :: _ => stuck (.expectedControl during)

/-- Takes the innermost frame, which has to be a scope of the given kind. -/
def takeScope (s : State) (kind : ScopeKind) (during : Token) : Except Failure (Scope × State) :=
  match s.frames with
  | [] => stuck (.frameUnderflow during)
  | .scope sc :: outer =>
    if sc.kind = kind then .ok (sc, { s with frames := outer })
    else stuck (.frameMismatch (.scope kind) (.scope sc.kind) during)
  | .call _ :: _ => stuck (.frameMismatch (.scope kind) .call during)

/-- Takes the innermost frame, which has to be a call. -/
def takeCall (s : State) (during : Token) : Except Failure (Call × State) :=
  match s.frames with
  | [] => stuck (.frameUnderflow during)
  | .call c :: outer => .ok (c, { s with frames := outer })
  | .scope sc :: _ => stuck (.frameMismatch .call (.scope sc.kind) during)

/-- Takes the pending name; without one, the name that the value carries. -/
def takeName (s : State) (carried : Option Name) : Option Name × State :=
  (s.current.name.or carried, { s with current.name := none })

theorem takeValue_eq_ok {s t : State} {v : Value} {during : Token} :
    s.takeValue during = .ok (v, t) ↔ ∃ rest, s.stack = .value v :: rest ∧ t = { s with stack := rest } := by
  unfold takeValue
  constructor
  · intro h
    split at h
    · cases h
    · cases h
      exact ⟨_, ‹_›, rfl⟩
    · cases h
  · rintro ⟨rest, h, rfl⟩
    rw [h]

theorem takeControl_eq_ok {s t : State} {c : Control} {during : Token} :
    s.takeControl during = .ok (c, t) ↔ ∃ rest, s.stack = .saved c :: rest ∧ t = { s with stack := rest } := by
  unfold takeControl
  constructor
  · intro h
    split at h
    · cases h
    · cases h
      exact ⟨_, ‹_›, rfl⟩
    · cases h
  · rintro ⟨rest, h, rfl⟩
    rw [h]

theorem takeType_eq_ok {s t : State} {v : Value} {during : Token} :
    s.takeType during = .ok (v, t) ↔ s.takeValue during = .ok (v, t) ∧ v.type.isSort = true := by
  unfold takeType
  cases h : s.takeValue during with
  | error e => simp [bind, Except.bind]
  | ok p =>
    obtain ⟨w, u⟩ := p
    by_cases hw : w.type.isSort = true
    · simp only [bind, Except.bind, hw, if_true, Except.ok.injEq, Prod.mk.injEq, iff_self_and]
      rintro ⟨rfl, _⟩
      exact hw
    · simp only [bind, Except.bind, hw]
      simp only [Bool.false_eq_true, if_false, reduceCtorEq, Except.ok.injEq, Prod.mk.injEq, false_iff, not_and]
      rintro ⟨rfl, _⟩
      exact hw

theorem takeScope_eq_ok {s t : State} {sc : Scope} {kind : ScopeKind} {during : Token} :
    s.takeScope kind during = .ok (sc, t) ↔
      ∃ outer, s.frames = .scope sc :: outer ∧ sc.kind = kind ∧ t = { s with frames := outer } := by
  unfold takeScope
  constructor
  · intro h
    split at h
    · cases h
    · split at h
      · cases h
        exact ⟨_, ‹_›, ‹_›, rfl⟩
      · cases h
    · cases h
  · rintro ⟨outer, h, hk, rfl⟩
    rw [h]
    simp [hk]

theorem takeCall_eq_ok {s t : State} {c : Call} {during : Token} :
    s.takeCall during = .ok (c, t) ↔ ∃ outer, s.frames = .call c :: outer ∧ t = { s with frames := outer } := by
  unfold takeCall
  constructor
  · intro h
    split at h
    · cases h
    · cases h
      exact ⟨_, ‹_›, rfl⟩
    · cases h
  · rintro ⟨outer, h, rfl⟩
    rw [h]

end Stepwise.State
