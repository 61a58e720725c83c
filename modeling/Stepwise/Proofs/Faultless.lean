import Stepwise.Proofs.Contents
import Stepwise.Trace

/-!
# No step faults

A fault is a span out of range or an address behind the last machine word (`State.Faults`). The placement of the
controls excludes both: a control in the stream is between the start of its declaration and the end of the stream, and
a control in code is at most one instruction behind a code that is at most one instruction longer than the declaration
it was made from (`WellPlaced.counter_le`). So no step of a program that fits into the address space faults
(`step_never_faults`), and every run of it has a trace (`exists_run`).
-/

namespace Stepwise

/-- The program fits into the address space: it has fewer than 2 ^ 63 tokens. -/
def Source.Fits (source : Source) : Prop := source.tokens.length < 0x8000000000000000

instance (source : Source) : Decidable source.Fits := inferInstanceAs (Decidable (_ < _))

namespace State

open Code

variable {s t : State} {text : String}

/-! ## Addresses are small -/

/-- A code has at most one instruction more than the stream has tokens. -/
theorem WellPlaced.length_code_le (hs : s.WellPlaced) {c : Constant} (hc : c ∈ s.signature) :
    c.code.length ≤ s.source.tokens.length + 1 := by
  have hbody := length_body_le (s.declaration c)
  have hdeclaration : (s.declaration c).length ≤ s.source.tokens.length := by
    unfold declaration
    rw [List.length_drop, List.length_take]
    omega
  rw [(hs.codes c hc).1, ofDeclaration, List.length_append, length_grabParameters, List.length_singleton]
  omega

theorem WellPlaced.counter_lt_of_placed (hs : s.WellPlaced) {k : Control} (hk : s.Placed k) :
    k.pc.counter < s.source.tokens.length + 1 := by
  unfold Placed at hk
  cases hpc : k.pc with
  | stream index =>
    rw [hpc] at hk
    exact Nat.lt_succ_of_lt hk.1
  | code entry offset =>
    rw [hpc] at hk
    obtain ⟨c, hc, hlt, _⟩ := hk
    exact Nat.lt_of_lt_of_le hlt (hs.length_code_le (List.mem_of_getElem? hc))

/-- The current control and the saved ones address an instruction or are right behind the last one of a code. -/
theorem WellPlaced.counter_le (hs : s.WellPlaced) {k : Control} (hk : k = s.current ∨ .saved k ∈ s.stack) :
    k.pc.counter ≤ s.source.tokens.length + 1 := by
  rcases hk with rfl | hsaved
  · rcases hs.current with hplaced | ⟨entry, c, hc, _, hpc, _⟩
    · exact Nat.le_of_lt (hs.counter_lt_of_placed hplaced)
    · rw [hpc]
      exact hs.length_code_le (List.mem_of_getElem? hc)
  · exact Nat.le_of_lt (hs.counter_lt_of_placed (hs.saved k hsaved).1)

theorem Reachable.counter_lt (h : Reachable text s) (hfits : (Source.ofText text).Fits)
    {k : Control} (hk : k = s.current ∨ .saved k ∈ s.stack) : k.pc.counter < maxWord := by
  have hle := h.wellPlaced.counter_le hk
  rw [h.source_eq] at hle
  unfold Source.Fits at hfits
  unfold maxWord
  omega

/-! ## Steps -/

/-- In the stream, the declaration being read is a range of tokens. -/
theorem WellPlaced.first_le (hs : s.WellPlaced) {index : Nat} (hpc : s.current.pc = .stream index) :
    s.current.program.first ≤ index ∧ index ≤ s.source.tokens.length := by
  rcases hs.current with hplaced | ⟨_, _, _, _, hpc', _⟩
  · simp only [Placed, hpc] at hplaced
    exact ⟨hplaced.2.1, Nat.le_of_lt hplaced.1⟩
  · rw [hpc] at hpc'
    cases hpc'

theorem Reachable.not_faults (h : Reachable text s) (hfits : (Source.ofText text).Fits) (f : Fault) :
    ¬s.Faults f := by
  intro hfault
  cases hfault with
  | span hpc hspan => exact hspan (h.wellPlaced.first_le hpc)
  | overflow hcontrol hpc =>
    have hmax := (Address.next?_eq_none_iff _).mp hpc
    have hlt := h.counter_lt hfits hcontrol
    omega

theorem Reachable.exists_step (h : Reachable text s) (hfits : (Source.ofText text).Fits) :
    ∃ next, s.step = .ok next := by
  cases hstep : s.step with
  | error f => exact absurd (faults_of_step hstep) (h.not_faults hfits f)
  | ok next => exact ⟨next, rfl⟩

/-- **No step of a program faults that fits into the address space.** The declaration that a dot ends is a range of
the stream, a constant that is called is in the signature, and every address that is increased, the current one or one
that a return restores, is smaller than the largest machine word. -/
theorem step_never_faults (hfits : (Source.ofText text).Fits) (h : Reachable text s) :
    (∃ next, s.step = .ok next) ∧
    (∀ index, s.current.pc = .stream index →
      s.current.program.first ≤ index ∧ index ≤ s.source.tokens.length) ∧
    (∀ entry c, s.Calls entry c → entry < s.signature.length ∧ s.signature[entry]? = some c) ∧
    ∀ k, k = s.current ∨ .saved k ∈ s.stack → k.pc.counter < maxWord := by
  refine ⟨h.exists_step hfits, fun index hpc => h.wellPlaced.first_le hpc, fun entry c hcalls => ?_,
    fun k hk => h.counter_lt hfits hk⟩
  have hc := hcalls.getElem?_eq
  exact ⟨(List.getElem?_eq_some_iff.mp hc).1, hc⟩

/-- At the dot of the last declaration, which follows one that calls a constant inside a scope. -/
theorem step_never_faults_at_dot :
    ∃ s, Reachable "type : o . ( o -> o ) : f . o : k ." s ∧ s.fetch = some .dot ∧
      s.current.pc = .stream 15 ∧ s.current.program.first = 12 ∧ ∃ next, s.step = .ok next := by
  let s := ((ofText "type : o . ( o -> o ) : f . o : k .").after 21).getD default
  obtain ⟨hreachable, hfetch, hpc, hfirst⟩ :
      (ofText "type : o . ( o -> o ) : f . o : k .").after 21 = some s ∧ s.fetch = some .dot ∧
        s.current.pc = .stream 15 ∧ s.current.program.first = 12 := by decide +kernel
  exact ⟨s, ⟨21, hreachable⟩, hfetch, hpc, hfirst, (step_never_faults (by decide +kernel) ⟨21, hreachable⟩).1⟩

/-! ## Whole runs -/

/-- No step of the run from this state faults. -/
def FaultFree (s : State) : Prop := ∀ n t, s.after n = some t → ∃ next, t.step = .ok next

theorem faultFree_ofText (hfits : (Source.ofText text).Fits) : (ofText text).FaultFree :=
  fun n _ h => Reachable.exists_step ⟨n, h⟩ hfits

theorem FaultFree.of_after (h : s.FaultFree) {n : Nat} (hafter : s.after n = some t) : t.FaultFree :=
  fun k u hu => h (n + k) u (after_trans hafter hu)

theorem FaultFree.of_step (h : s.FaultFree) (hstep : s.step = .ok (some t)) : t.FaultFree :=
  h.of_after (after_succ_of_step hstep 0)

theorem FaultFree.exists_trace (h : s.FaultFree) (fuel : Nat) : ∃ trace, s.trace fuel = .ok trace := by
  induction fuel generalizing s with
  | zero =>
    obtain ⟨next, hnext⟩ := h 0 s rfl
    exact ⟨[s], trace_zero_of_step hnext⟩
  | succ fuel ih =>
    obtain ⟨next, hnext⟩ := h 0 s rfl
    cases next with
    | none => exact ⟨[s], trace_of_step_none hnext _⟩
    | some t =>
      obtain ⟨trace, htrace⟩ := ih (h.of_step hnext)
      exact ⟨s :: trace, by rw [trace_succ_of_step hnext, htrace]; rfl⟩

/-- **Every run of a program has a trace**, however many states are asked for. -/
theorem exists_run (hfits : (Source.ofText text).Fits) (max : Nat) :
    ∃ trace, runText text max = .ok trace :=
  (faultFree_ofText hfits).exists_trace (max - 1)

end State

end Stepwise
