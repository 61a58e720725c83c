import Mathlib.Order.Bounds.Basic
import Stepwise.Debugger

/-!
# The cursor of a debugger

What holds of a debugger however it was used. The uses are the actions and the two buttons for one state forwards and
backwards (`Debugger.Command`), and a session is a list of them (`Debugger.session`).

* Every command keeps the trace, keeps the cursor in it, and replaces the selection only by what it selects
  (`Browses.perform`); so a session does too (`browses_session`).
* A move is computed in machine words: its size wraps at the smallest number, and its target stops at the largest word.
  Neither can be seen in a trace whose length is a machine word (`distance_eq`, `position_move`).

**So the cursor is always at a state of the trace, and every move is exact** (`cursor_is_exact`).
-/

namespace Stepwise.Debugger

variable {states : Trace} {d : Debugger} {selection : Option Selection}

/-! ## Moves -/

/-- The size of a move is that of its number, also of the smallest one, which has no opposite among the words. -/
theorem distance_eq (delta : Int64) : distance delta = delta.toInt.natAbs := by
  have hint := BitVec.toInt_eq_toNat_cond delta.toBitVec
  have hneg := BitVec.toNat_neg delta.toBitVec
  have hlt := delta.toBitVec.isLt
  rw [Int64.toInt_toBitVec] at hint
  unfold distance
  split
  · rename_i hnegative
    rw [Int64.lt_iff_toInt_lt, Int64.toInt_zero] at hnegative
    change (-delta).toBitVec.toNat = _
    rw [Int64.toBitVec_neg, hneg]
    split at hint <;> omega
  · rename_i hnonneg
    rw [Int64.lt_iff_toInt_lt, Int64.toInt_zero] at hnonneg
    change delta.toBitVec.toNat = _
    split at hint <;> omega

/-- **A move is exact**: the cursor goes to the sum of its position and the number, or to the end of the trace that lies
in that direction. -/
theorem position_move (h : d.states.length ≤ maxWord) (delta : Int64) :
    ((d.apply (.move delta)).position : Int) = min (max (d.position + delta.toInt) 0) d.lastPosition := by
  have hlast : d.lastPosition ≤ maxWord := by
    unfold lastPosition
    omega
  change ((min (target d.position delta) d.lastPosition : Nat) : Int) = _
  simp only [target, distance_eq, Int64.lt_iff_toInt_lt, Int64.toInt_zero]
  split <;> omega

/-- In the state at a position of the trace, the program counter stands at an index of the stream. -/
def StandsAt (states : Trace) (index p : Nat) : Prop := ∃ s, states[p]? = some s ∧ s.current.pc = .stream index

/-- A search goes to the first state that stands at the index, or nowhere. -/
theorem find_cases (d : Debugger) (index : Nat) :
    (∃ p, IsLeast {p | StandsAt d.states index p} p ∧ d.apply (.find index) = { d with position := p }) ∨
      (∀ p, ¬StandsAt d.states index p) ∧ d.apply (.find index) = d := by
  simp only [apply]
  cases hfound : d.states.findIdx? (·.current.pc = .stream index) with
  | none =>
    refine .inr ⟨?_, rfl⟩
    rintro p ⟨s, hs, hpc⟩
    have hnot := List.findIdx?_eq_none_iff.mp hfound s (List.mem_of_getElem? hs)
    simp [hpc] at hnot
  | some p =>
    obtain ⟨hp, hpc, hbefore⟩ := List.findIdx?_eq_some_iff_getElem.mp hfound
    refine .inl ⟨p, ⟨⟨d.states[p], by simp, by simpa using hpc⟩, ?_⟩, ?_⟩
    · rintro q ⟨t, ht, htpc⟩
      obtain ⟨hq, rfl⟩ := List.getElem?_eq_some_iff.mp ht
      by_contra hlt
      exact absurd (hbefore q (Nat.lt_of_not_le hlt)) (by simp [htpc])
    · have hclamp : min p d.lastPosition = p := by
        unfold lastPosition
        omega
      simp only [seek, hclamp]

/-! ## Sessions -/

/-- What a user of the debugger can do. -/
inductive Command where
  | act (action : Action)
  | next
  | previous
  deriving DecidableEq, Inhabited

def perform (d : Debugger) : Command → Debugger
  | .act action => d.apply action
  | .next => d.next
  | .previous => d.previous

/-- The action that a command stands for. -/
def Command.action : Command → Action
  | act action => action
  | next => .move 1
  | previous => .move (-1)

/-- What a command selects, if it selects something or nothing. -/
def Command.selected? (c : Command) : Option (Option Selection) :=
  match c.action with
  | .select selection => some selection
  | _ => none

/-- A debugger that shows a trace, after some commands. -/
def session (states : Trace) (commands : List Command) : Debugger := commands.foldl perform (ofTrace states)

/-- What the latest of the commands that select something has selected. -/
def latestSelection (commands : List Command) : Option Selection :=
  ((commands.filterMap Command.selected?).getLast?).getD none

/-- The debugger shows a state of this trace, and this is selected. -/
structure Browses (states : Trace) (selection : Option Selection) (d : Debugger) : Prop where
  states_eq : d.states = states
  position_le : d.position ≤ d.lastPosition
  selection_eq : d.selection = selection

theorem browses_ofTrace (states : Trace) : Browses states none (ofTrace states) := ⟨rfl, Nat.zero_le _, rfl⟩

theorem perform_eq_apply (d : Debugger) (c : Command) : d.perform c = d.apply c.action := by cases c <;> rfl

/-- Only a selection changes what is selected, and nothing changes the trace. -/
theorem apply_keeps (d : Debugger) (a : Action) :
    (d.apply a).states = d.states ∧ (d.apply a).selection = (Command.act a).selected?.getD d.selection := by
  cases a with
  | move delta => exact ⟨rfl, rfl⟩
  | goTo position => exact ⟨rfl, rfl⟩
  | find index =>
    rcases find_cases d index with ⟨p, _, hfind⟩ | ⟨_, hfind⟩
    · rw [hfind]
      exact ⟨rfl, rfl⟩
    · rw [hfind]
      exact ⟨rfl, rfl⟩
  | select selection => exact ⟨rfl, rfl⟩

/-- **One command.** -/
theorem Browses.perform (h : Browses states selection d) (c : Command) :
    Browses states (c.selected?.getD selection) (d.perform c) := by
  obtain ⟨hstates, hselection⟩ := apply_keeps d c.action
  rw [perform_eq_apply]
  exact ⟨hstates.trans h.states_eq, position_apply_le d _ h.position_le, by rw [hselection, h.selection_eq]; rfl⟩

/-- **All commands of a session**, each of them from where the ones before it lead. -/
theorem Browses.foldl (h : Browses states selection d) (commands : List Command) :
    Browses states (((commands.filterMap Command.selected?).getLast?).getD selection)
      (commands.foldl Debugger.perform d) := by
  induction commands generalizing d selection with
  | nil => exact h
  | cons c commands ih =>
    have hrest := ih (h.perform c)
    rw [List.foldl_cons, List.filterMap_cons]
    cases hselected : c.selected? with
    | none => simpa [hselected] using hrest
    | some chosen => simpa [hselected, List.getLast?_cons] using hrest

theorem browses_session (states : Trace) (commands : List Command) :
    Browses states (latestSelection commands) (session states commands) :=
  (browses_ofTrace states).foldl commands

theorem Browses.exists_current (h : Browses states selection d) (hne : states ≠ []) :
    ∃ s ∈ states, d.current? = some s := by
  have hpos := List.length_pos_iff.mpr hne
  have hle := h.position_le
  unfold lastPosition at hle
  rw [h.states_eq] at hle
  have hlt : d.position < states.length := by omega
  exact ⟨states[d.position], List.getElem_mem hlt, by simp [current?, h.states_eq, hlt]⟩

/-- **The cursor of a debugger.** After any commands it is at a state of the trace, which is still the one that the
debugger was opened with, and what is selected is what was selected last. From there a move, of any size, goes exactly
where the integers say, clamped to the trace; and a search goes to the first state that stands at the index, or
nowhere. The length of a trace is a machine word. -/
theorem cursor_is_exact {commands : List Command} (hne : states ≠ []) (hsize : states.length ≤ maxWord)
    (hd : session states commands = d) :
    d.position ≤ d.lastPosition ∧ (∃ s ∈ states, d.current? = some s) ∧ d.states = states ∧
    d.selection = latestSelection commands ∧
    (∀ delta : Int64,
      ((d.apply (.move delta)).position : Int) = min (max (d.position + delta.toInt) 0) d.lastPosition) ∧
    ∀ index, (∃ p, IsLeast {p | StandsAt states index p} p ∧ d.apply (.find index) = { d with position := p }) ∨
      (∀ p, ¬StandsAt states index p) ∧ d.apply (.find index) = d := by
  have h : Browses states (latestSelection commands) d := hd ▸ browses_session states commands
  refine ⟨h.position_le, h.exists_current hne, h.states_eq, h.selection_eq, fun delta => ?_, fun index => ?_⟩
  · exact position_move (by rw [h.states_eq]; exact hsize) delta
  · rw [← h.states_eq]
    exact find_cases d index

/-- In the trace of a program with a call, after a search, a selection and a step back. The moves by the smallest and
the largest number lead to the two ends. -/
theorem cursor_is_exact_at_extremes : ∃ states d, runText "type : o . o : k ." 100 = .ok states ∧
    session states [.act (.find 5), .act (.select (some (.constant 1))), .previous] = d ∧
    d.position = 6 ∧ d.lastPosition = 10 ∧ d.selection = some (.constant 1) ∧
    ((d.apply (.move Int64.minValue)).position : Int) = 0 ∧
    ((d.apply (.move Int64.maxValue)).position : Int) = 10 ∧ d.apply (.find 99) = d := by
  let states := (runText "type : o . o : k ." 100).toOption.getD []
  let d := session states [.act (.find 5), .act (.select (some (.constant 1))), .previous]
  obtain ⟨hrun, hne, hsize, hposition, hlast, hnever⟩ :
      runText "type : o . o : k ." 100 = .ok states ∧ states ≠ [] ∧ states.length ≤ maxWord ∧
        d.position = 6 ∧ d.lastPosition = 10 ∧ ∀ s ∈ states, s.current.pc ≠ .stream 99 := by decide +kernel
  obtain ⟨_, _, _, hselection, hmove, hfind⟩ := cursor_is_exact (d := d) hne hsize rfl
  refine ⟨states, d, hrun, rfl, hposition, hlast, hselection, ?_, ?_, ?_⟩
  · rw [hmove, hposition, hlast]
    decide
  · rw [hmove, hposition, hlast]
    decide
  · rcases hfind 99 with ⟨p, ⟨⟨s, hs, hpc⟩, _⟩, _⟩ | ⟨_, hsame⟩
    · exact absurd hpc (hnever s (List.mem_of_getElem? hs))
    · exact hsame

end Stepwise.Debugger
