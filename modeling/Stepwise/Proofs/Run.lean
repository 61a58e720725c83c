import Stepwise.Step

/-!
# Runs

`State.after` follows the successors of a state, a given number of them. Runs compose (`after_add`), and what holds of
the first state of a program and is kept by every step holds of every reachable state (`Reachable.induction`).
-/

namespace Stepwise.State

/-- The state that exactly `n` steps lead to, if there are so many. -/
def after (s : State) : Nat → Option State
  | 0 => some s
  | n + 1 =>
    match s.step with
    | .ok (some t) => t.after n
    | _ => none

/-- The states that the run of a program goes through. -/
def Reachable (text : String) (s : State) : Prop := ∃ n, (ofText text).after n = some s

@[simp] theorem after_zero (s : State) : s.after 0 = some s := rfl

theorem after_succ_of_step {s t : State} (h : s.step = .ok (some t)) (n : Nat) : s.after (n + 1) = t.after n := by
  simp [after, h]

/-- A longer run begins with a step. -/
theorem after_succ {s u : State} {n : Nat} :
    s.after (n + 1) = some u ↔ ∃ t, s.step = .ok (some t) ∧ t.after n = some u := by
  simp only [after]
  constructor
  · intro h
    split at h
    · exact ⟨_, ‹_›, h⟩
    · cases h
  · rintro ⟨t, ht, hu⟩
    rw [ht]
    exact hu

/-- Runs compose. -/
theorem after_add : ∀ (s : State) (m n : Nat), s.after (m + n) = (s.after m).bind fun t => t.after n
  | s, 0, n => by simp
  | s, m + 1, n => by
    rw [Nat.add_right_comm]
    simp only [after]
    split
    · exact after_add _ m n
    · rfl

theorem after_trans {s t u : State} {m n : Nat} (h : s.after m = some t) (h' : t.after n = some u) :
    s.after (m + n) = some u := by
  rw [after_add, h]
  exact h'

/-- A longer run ends with a step. -/
theorem after_succ_last {s u : State} {n : Nat} :
    s.after (n + 1) = some u ↔ ∃ t, s.after n = some t ∧ t.step = .ok (some u) := by
  rw [after_add, Option.bind_eq_some_iff]
  simp [after_succ]

/-- What every step keeps, a run keeps. -/
theorem after_induction {P : State → Prop} (hstep : ∀ s t, P s → s.step = .ok (some t) → P t) {s t : State} {n : Nat}
    (h : s.after n = some t) (hs : P s) : P t := by
  induction n generalizing t with
  | zero =>
    cases h
    exact hs
  | succ n ih =>
    obtain ⟨u, hu, ht⟩ := after_succ_last.mp h
    exact hstep u t (ih hu) ht

/-- What a program starts with and every step keeps holds throughout its run. -/
theorem Reachable.induction {text : String} {P : State → Prop} (hstart : P (ofText text))
    (hstep : ∀ s t, P s → s.step = .ok (some t) → P t) {s : State} (h : Reachable text s) : P s := by
  obtain ⟨n, hn⟩ := h
  exact after_induction hstep hn hstart

theorem Reachable.of_step {text : String} {s t : State} (h : Reachable text s) (hstep : s.step = .ok (some t)) :
    Reachable text t := by
  obtain ⟨n, hn⟩ := h
  exact ⟨n + 1, after_succ_last.mpr ⟨s, hn, hstep⟩⟩

/-- The same for what only the steps from reachable states keep. -/
theorem Reachable.induction_reachable {text : String} {P : State → Prop} (hstart : P (ofText text))
    (hstep : ∀ s t, Reachable text s → P s → s.step = .ok (some t) → P t) {s : State} (h : Reachable text s) : P s := by
  have hboth : Reachable text s ∧ P s :=
    h.induction (P := fun s => Reachable text s ∧ P s) ⟨⟨0, rfl⟩, hstart⟩
      fun s t hs ht => ⟨hs.1.of_step ht, hstep s t hs.1 hs.2 ht⟩
  exact hboth.2

end Stepwise.State
