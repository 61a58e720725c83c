import Mathlib.Data.List.Chain
import Stepwise.Event
import Stepwise.Proofs.Faultless
import Stepwise.Proofs.Nesting

/-!
# Runs can be resumed

`State.IsRun` says what a run of at most `max` states is, without a word on how it is made: its states follow each other
by steps, there are no more than `max`, and if there are fewer then the last one has no successor. A trace is that and
nothing else (`run_eq_ok_iff`). What holds of traces is therefore shown of runs: a run from the last state of a run goes
on with it (`IsRun.append`), and only the last state of a run can carry an error (`IsRun.error_eq_none`).

The run is also a loop (`State.loop`) that collects the states and has three ways to go on: it ends at a state without
successor, it is cut short where the trace is full and there is a successor, and otherwise it goes to the successor. It
makes the same states, and what it reports at its end is the last event of the log (`IsRun.loop_eq`); so **the log says
that the run was cut short exactly if its last state has a successor** (`IsRun.mem_events_iff`).
-/

namespace Stepwise.State

variable {s t u last last' : State} {front front' states : Trace} {fuel max m k n : Nat}

/-! ## What a run is -/

/-- The states `front` and then `last` are a run from `s` of at most `max` states. -/
structure IsRun (s : State) (max : Nat) (front : Trace) (last : State) : Prop where
  head : (front ++ [last]).head? = some s
  steps : (front ++ [last]).IsChain fun t u => t.step = .ok (some u)
  /-- The step from the last state is looked at too. -/
  faultless : ∃ next, last.step = .ok next
  length_lt : front.length < max
  halted : front.length + 1 < max → last.step = .ok none

/-- A run of one state: nothing follows, or nothing may follow. -/
theorem isRun_singleton (hmax : 0 < max) (hstep : ∃ next, s.step = .ok next) (h : s.step = .ok none ∨ max = 1) :
    IsRun s max [] s where
  head := rfl
  steps := List.isChain_singleton s
  faultless := hstep
  length_lt := hmax
  halted hlt := h.resolve_right (Nat.ne_of_gt hlt)

/-- A run begins with a step to the rest of it. -/
theorem isRun_cons : IsRun s (max + 1) (s :: front) last ↔ ∃ t, s.step = .ok (some t) ∧ IsRun t max front last := by
  constructor
  · intro h
    obtain ⟨t, ht⟩ : ∃ t, (front ++ [last]).head? = some t := by cases front <;> simp
    obtain ⟨rest, hrest⟩ := List.head?_eq_some_iff.mp ht
    have hsteps := h.steps
    rw [List.cons_append, hrest, List.isChain_cons_cons, ← hrest] at hsteps
    have hlength := h.length_lt
    rw [List.length_cons] at hlength
    exact ⟨t, hsteps.1, ht, hsteps.2, h.faultless, by omega, fun hlt => h.halted (by rw [List.length_cons]; omega)⟩
  · rintro ⟨t, hstep, h⟩
    obtain ⟨rest, hrest⟩ := List.head?_eq_some_iff.mp h.head
    refine ⟨rfl, ?_, h.faultless, ?_, fun hlt => h.halted ?_⟩
    · rw [List.cons_append, hrest, List.isChain_cons_cons, ← hrest]
      exact ⟨hstep, h.steps⟩
    · rw [List.length_cons]
      exact Nat.succ_lt_succ h.length_lt
    · rw [List.length_cons] at hlt
      omega

theorem IsRun.eq_of_nil (h : IsRun s max [] last) : last = s := by simpa using h.head

theorem IsRun.uncons (h : IsRun s max (u :: front) last) :
    u = s ∧ ∃ max' t, max = max' + 1 ∧ s.step = .ok (some t) ∧ IsRun t max' front last := by
  obtain rfl : u = s := by simpa using h.head
  obtain ⟨max', rfl⟩ : ∃ max', max = max' + 1 :=
    Nat.exists_eq_succ_of_ne_zero (Nat.ne_of_gt (Nat.zero_lt_of_lt h.length_lt))
  obtain ⟨t, hstep, hrest⟩ := isRun_cons.mp h
  exact ⟨rfl, max', t, rfl, hstep, hrest⟩

/-- If there is still a successor, then the run is as long as it may be. -/
theorem IsRun.length_eq (h : IsRun s max front last) (hstep : last.step = .ok (some t)) : front.length + 1 = max := by
  have hlength := h.length_lt
  by_contra hne
  have hhalted := h.halted (by omega)
  rw [hstep] at hhalted
  cases hhalted

/-! ## Traces are runs -/

theorem IsRun.trace_eq (h : IsRun s (fuel + 1) front last) : s.trace fuel = .ok (front ++ [last]) := by
  induction front generalizing s fuel with
  | nil =>
    obtain rfl := h.eq_of_nil
    obtain ⟨next, hnext⟩ := h.faultless
    cases fuel with
    | zero => exact trace_zero_of_step hnext
    | succ fuel => exact trace_of_step_none (h.halted (by simp)) _
  | cons x front ih =>
    obtain ⟨rfl, max', t, hmax, hstep, hrest⟩ := h.uncons
    obtain rfl : fuel = max' := Nat.succ.inj hmax
    obtain ⟨fuel, rfl⟩ : ∃ fuel', fuel = fuel' + 1 :=
      Nat.exists_eq_succ_of_ne_zero (Nat.ne_of_gt (Nat.zero_lt_of_lt hrest.length_lt))
    rw [trace_succ_of_step hstep, ih hrest]
    rfl

theorem exists_isRun_of_trace (h : s.trace fuel = .ok states) :
    ∃ front last, states = front ++ [last] ∧ IsRun s (fuel + 1) front last := by
  induction fuel generalizing s states with
  | zero =>
    obtain ⟨hstep, ⟨rfl, _⟩ | ⟨_, _, _, _, hfuel, _⟩⟩ := trace_cases h
    · exact ⟨[], s, rfl, isRun_singleton Nat.one_pos hstep (.inr rfl)⟩
    · cases hfuel
  | succ fuel ih =>
    obtain ⟨hstep, ⟨rfl, hends⟩ | ⟨t, fuel', rest, hnext, hfuel, hrest, rfl⟩⟩ := trace_cases h
    · exact ⟨[], s, rfl, isRun_singleton (Nat.succ_pos _) hstep (.inl (hends.resolve_right (by simp)))⟩
    · obtain rfl : fuel = fuel' := Nat.succ.inj hfuel
      obtain ⟨front, last, rfl, hrun⟩ := ih hrest
      exact ⟨s :: front, last, rfl, isRun_cons.mpr ⟨t, hnext, hrun⟩⟩

/-- **A trace is a run, and every run is a trace.** -/
theorem run_eq_ok_iff (hmax : 1 ≤ max) :
    s.run max = .ok states ↔ ∃ front last, states = front ++ [last] ∧ IsRun s max front last := by
  obtain ⟨fuel, rfl⟩ : ∃ fuel, max = fuel + 1 := Nat.exists_eq_succ_of_ne_zero (by omega)
  constructor
  · exact exists_isRun_of_trace
  · rintro ⟨front, last, rfl, h⟩
    exact h.trace_eq

theorem FaultFree.exists_isRun (h : s.FaultFree) (hmax : 1 ≤ max) :
    ∃ front last, s.run max = .ok (front ++ [last]) ∧ IsRun s max front last := by
  obtain ⟨states, hstates⟩ := h.exists_trace (max - 1)
  obtain ⟨front, last, rfl, hrun⟩ := (run_eq_ok_iff hmax).mp hstates
  exact ⟨front, last, hstates, hrun⟩

/-! ## Going on -/

theorem IsRun.after_eq (h : IsRun s max front last) : s.after front.length = some last := by
  induction front generalizing s max with
  | nil =>
    obtain rfl := h.eq_of_nil
    rfl
  | cons x front ih =>
    obtain ⟨rfl, max', t, rfl, hstep, hrest⟩ := h.uncons
    rw [List.length_cons, after_succ_of_step hstep]
    exact ih hrest

/-- A run from a state without successor has that state only. -/
theorem IsRun.eq_of_step_none (h : IsRun s max front last) (hstep : s.step = .ok none) : last = s := by
  cases front with
  | nil => exact h.eq_of_nil
  | cons x front =>
    obtain ⟨rfl, _, t, _, ht, _⟩ := h.uncons
    rw [hstep] at ht
    cases ht

/-- **A run goes on where it ended.** The state at which it ended counts once. -/
theorem IsRun.append (h : IsRun s m front last) (h' : IsRun last k front' last') :
    IsRun s (m + k - 1) (front ++ front') last' := by
  obtain ⟨rest, hrest⟩ := List.head?_eq_some_iff.mp h'.head
  have hlength := h.length_lt
  have hlength' := h'.length_lt
  refine ⟨?_, ?_, h'.faultless, ?_, fun hlt => ?_⟩
  · have hhead := h.head
    rw [List.append_assoc, hrest]
    cases front with
    | nil => exact hhead
    | cons x front => exact hhead
  · rw [List.append_assoc, hrest, List.isChain_split, ← hrest]
    exact ⟨h.steps, h'.steps⟩
  · rw [List.length_append]
    omega
  · rw [List.length_append] at hlt
    by_cases hshort : front'.length + 1 < k
    · exact h'.halted hshort
    · -- The second run is as long as it may be, so the first one is not: it has ended for good.
      have hstop := h.halted (by omega)
      obtain rfl := h'.eq_of_step_none hstop
      exact hstop

/-! ## Errors -/

/-- A step that leads to an error changes nothing else. -/
theorem eq_of_step_of_error (h : s.step = .ok (some t)) (herror : t.error ≠ none) :
    t = { s with error := t.error } := by
  rcases step_cases h with hmove | ⟨_, e, rfl⟩
  · exact absurd hmove.error_eq.2 herror
  · rfl

theorem IsRun.exists_step (h : IsRun s max front last) (ht : t ∈ front) : ∃ u, t.step = .ok (some u) := by
  obtain ⟨before, behind, rfl⟩ := List.append_of_mem ht
  have hsteps := h.steps
  cases behind with
  | nil =>
    rw [List.append_assoc, List.cons_append, List.nil_append, List.isChain_append_cons_cons] at hsteps
    exact ⟨last, hsteps.2.1⟩
  | cons u behind =>
    rw [List.append_assoc, List.cons_append, List.cons_append, List.isChain_append_cons_cons] at hsteps
    exact ⟨u, hsteps.2.1⟩

/-- No state before the last one carries an error. -/
theorem IsRun.error_eq_none (h : IsRun s max front last) (ht : t ∈ front) : t.error = none := by
  obtain ⟨u, hstep⟩ := h.exists_step ht
  exact error_eq_none_of_step hstep

/-- If the last state carries an error and the first one does not, then the last one is the state before it but for the
error. -/
theorem IsRun.exists_predecessor (h : IsRun s max front last) (hs : s.error = none) (hlast : last.error ≠ none) :
    ∃ before t, front = before ++ [t] ∧ last = { t with error := last.error } := by
  rcases List.eq_nil_or_concat front with rfl | ⟨before, t, rfl⟩
  · obtain rfl := h.eq_of_nil
    exact absurd hs hlast
  · have hsteps := h.steps
    rw [List.concat_eq_append, List.append_assoc, List.singleton_append, List.isChain_append_cons_cons] at hsteps
    exact ⟨before, t, List.concat_eq_append, eq_of_step_of_error hsteps.2.1 hlast⟩

/-! ## The loop and its report -/

/-- The report of a run of `n` states that ended by itself in this state. -/
def ending (s : State) (n : Nat) : Event :=
  match s.error with
  | some e => .stopped n e
  | none => .finished n s.signature.length

/-- The run as a loop, at state `s` after the states `done`. The successor is computed before it is known whether there
is room for it. The result is the trace and the report at the end. -/
def loop (max : Nat) (s : State) (done : Trace) : Except Fault (Trace × Event) :=
  match s.step with
  | .error f => .error f
  | .ok none => .ok (done ++ [s], s.ending (done ++ [s]).length)
  | .ok (some t) =>
    if max ≤ (done ++ [s]).length then .ok (done ++ [s], .truncated max) else loop max t (done ++ [s])
termination_by max - done.length
decreasing_by
  simp only [List.length_append, List.length_singleton] at *
  omega

theorem outcome_of_step_none (h : s.step = .ok none) (n : Nat) : s.outcome n = s.ending n := by
  cases herror : s.error <;> simp [outcome, ending, h, herror]

theorem outcome_of_step_some (h : s.step = .ok (some t)) (n : Nat) : s.outcome n = .truncated n := by
  simp [outcome, h]

theorem outcome_eq_truncated_iff (hstep : ∃ next, s.step = .ok next) :
    s.outcome n = .truncated m ↔ n = m ∧ ∃ t, s.step = .ok (some t) := by
  obtain ⟨next, hnext⟩ := hstep
  cases next with
  | none =>
    rw [outcome_of_step_none hnext, ending]
    cases s.error <;> simp [hnext]
  | some t => simp [outcome_of_step_some hnext, hnext]

/-- **The loop makes the run**, and its report is the outcome of the run. -/
theorem IsRun.loop_eq (h : IsRun s k front last) (done : Trace) (hmax : max = done.length + k) :
    loop max s done = .ok (done ++ (front ++ [last]), last.outcome (done ++ (front ++ [last])).length) := by
  induction front generalizing s k done with
  | nil =>
    obtain rfl := h.eq_of_nil
    obtain ⟨next, hnext⟩ := h.faultless
    cases next with
    | none =>
      rw [loop, hnext, outcome_of_step_none hnext]
      rfl
    | some t =>
      have hfull : 1 = k := h.length_eq hnext
      rw [loop, hnext, outcome_of_step_some hnext]
      simp [hmax, hfull]
  | cons x front ih =>
    obtain ⟨rfl, k', t, rfl, hstep, hrest⟩ := h.uncons
    have hroom : ¬max ≤ (done ++ [x]).length := by
      have hlength := hrest.length_lt
      rw [List.length_append, List.length_singleton]
      omega
    rw [loop, hstep]
    simp only [if_neg hroom]
    rw [ih hrest (done ++ [x]) (by rw [List.length_append, List.length_singleton]; omega)]
    simp

theorem truncated_not_mem_events (s : State) (n : Nat) : .truncated n ∉ s.events := by
  unfold events
  split
  · simp
  · split
    · simp
    · simp only [List.mem_cons, reduceCtorEq, false_or]
      split
      · intro hmem
        obtain ⟨c, _, hc⟩ := List.mem_map.mp hmem
        cases hc
      all_goals simp

theorem events_concat (front : Trace) (last : State) :
    Trace.events (front ++ [last]) =
      (front ++ [last]).flatMap State.events ++ [last.outcome (front ++ [last]).length] := by
  simp [Trace.events]

theorem IsRun.mem_events_iff (h : IsRun s max front last) :
    .truncated n ∈ Trace.events (front ++ [last]) ↔ n = max ∧ ∃ next, last.step = .ok (some next) := by
  have hsteps : .truncated n ∉ (front ++ [last]).flatMap State.events := by
    rw [List.mem_flatMap]
    rintro ⟨t, _, ht⟩
    exact truncated_not_mem_events t n ht
  rw [events_concat, List.mem_append, or_iff_right hsteps, List.mem_singleton, eq_comm,
    outcome_eq_truncated_iff h.faultless, List.length_append, List.length_singleton]
  constructor
  · rintro ⟨rfl, next, hnext⟩
    exact ⟨h.length_eq hnext, next, hnext⟩
  · rintro ⟨rfl, next, hnext⟩
    exact ⟨h.length_eq hnext, next, hnext⟩

/-! ## The run of a state -/

/-- **A run is iterated stepping, and it can be resumed.** From a state whose run never faults: cutting the trace at `m`
states and going on from the last one for `k` states gives the trace of `m + k - 1` states. The trace begins with that
state, each of its states is the successor of the one before, there are at most `m`, and fewer only if the last one has
no successor. It is what the loop collects, whose report is the last event of the log; and the log says that the trace
was cut short exactly if its last state has a successor. If the first state carries no error, then only the last one
can, and then it is the state before it but for the error. -/
theorem run_can_be_resumed (h : s.FaultFree) (hm : 1 ≤ m) (hk : 1 ≤ k) :
    ∃ states front last more report, states = front ++ [last] ∧ s.run m = .ok states ∧
    (last.run k = .ok more ∧ s.run (m + k - 1) = .ok (front ++ more)) ∧ s.run 0 = s.run 1 ∧
    states.head? = some s ∧ (states.IsChain fun t u => t.step = .ok (some u)) ∧
    states.length ≤ m ∧ (states.length < m → last.step = .ok none) ∧
    loop m s [] = .ok (states, report) ∧ Trace.events states = states.flatMap State.events ++ [report] ∧
    (∀ n, .truncated n ∈ Trace.events states ↔ n = m ∧ ∃ next, last.step = .ok (some next)) ∧
    (s.error = none → (∀ t ∈ front, t.error = none) ∧
      (last.error ≠ none → ∃ before t, front = before ++ [t] ∧ last = { t with error := last.error })) := by
  obtain ⟨front, last, hrun, hisRun⟩ := h.exists_isRun hm
  obtain ⟨front', last', hmore, hisRun'⟩ := (h.of_after hisRun.after_eq).exists_isRun hk
  have hlength : (front ++ [last]).length = front.length + 1 := by simp
  refine ⟨_, front, last, front' ++ [last'], last.outcome (front ++ [last]).length, rfl, hrun, ⟨hmore, ?_⟩, rfl,
    hisRun.head, hisRun.steps, ?_, ?_, ?_, events_concat front last, fun n => hisRun.mem_events_iff, fun hs => ?_⟩
  · exact (run_eq_ok_iff (by omega)).mpr ⟨front ++ front', last', by simp, hisRun.append hisRun'⟩
  · rw [hlength]
    exact hisRun.length_lt
  · rw [hlength]
    exact hisRun.halted
  · simpa using hisRun.loop_eq [] (by simp)
  · exact ⟨fun t ht => hisRun.error_eq_none ht, hisRun.exists_predecessor hs⟩

/-- A run that is cut short in a declaration and then goes on to an error. -/
theorem run_can_be_resumed_before_error : ∃ front last more,
    (ofText "type : o . unknown").run 4 = .ok (front ++ [last]) ∧ last.run 100 = .ok more ∧
    (ofText "type : o . unknown").run 103 = .ok (front ++ more) ∧ front.length = 3 ∧ more.length = 3 ∧
    .truncated 4 ∈ Trace.events (front ++ [last]) := by
  obtain ⟨hfits, hlength, hjoined⟩ : (Source.ofText "type : o . unknown").Fits ∧
      ((ofText "type : o . unknown").run 4).toOption.map List.length = some 4 ∧
      ((ofText "type : o . unknown").run 103).toOption.map List.length = some 6 := by decide +kernel
  obtain ⟨_, front, last, more, _, rfl, hrun, ⟨hmore, hresumed⟩, _, _, _, _, _, _, _, hlog, _⟩ :=
    run_can_be_resumed (faultFree_ofText hfits) (m := 4) (k := 100) (by decide) (by decide)
  have hfront : front.length = 3 := by simpa [hrun, Except.toOption] using hlength
  have hmorelength : more.length = 3 := by
    simp only [hresumed, Except.toOption, Option.map_some, List.length_append, Option.some.injEq] at hjoined
    omega
  refine ⟨front, last, more, hrun, hmore, hresumed, hfront, hmorelength, (hlog 4).mpr ⟨rfl, ?_⟩⟩
  obtain ⟨front', last', rfl, hisRun⟩ := exists_isRun_of_trace hmore
  cases front' with
  | nil => simp at hmorelength
  | cons x front' =>
    obtain ⟨_, _, t, _, hstep, _⟩ := hisRun.uncons
    exact ⟨t, hstep⟩

end Stepwise.State
