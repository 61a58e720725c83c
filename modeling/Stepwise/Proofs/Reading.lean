import Stepwise.Debugger
import Stepwise.Event
import Stepwise.Proofs.Contents
import Stepwise.Proofs.Faultless
import Stepwise.Proofs.Record

/-!
# The token stream is read once

A state without error that is in the token stream is about to read a token there (`readIndex?`). A step leads to the
next index of the stream, or the outermost control stays where it is (`readIndex?_of_step`); the calls between two
tokens, however deep, do not move it. So along a trace the indices read are `0, 1, 2, …` (`filterMap_readIndex?`), a
debugger that looks for an index finds the one state that reads it (`apply_find_cases`), and a trace that ends by
itself without error has read everything: the end of the program is in the stream and never in code
(`Reachable.inStream_of_eof`).
-/

namespace Stepwise.State

open Code

variable {s t : State} {text : String} {states : Trace} {fuel index p : Nat}

/-! ## Traces and runs -/

/-- The state at a position of a trace is the one after so many steps, and it has no fault. -/
theorem after_of_trace : ∀ {fuel p : Nat} {s : State} {states : Trace}, s.trace fuel = .ok states →
    states[p]? = some t → s.after p = some t ∧ ∃ next, t.step = .ok next
  | fuel, p, s, states, h, ht => by
    obtain ⟨hstep, hcases⟩ := trace_cases h
    cases p with
    | zero =>
      have hhead := head?_of_trace h
      rw [List.head?_eq_getElem?, ht, Option.some.injEq] at hhead
      subst hhead
      exact ⟨rfl, hstep⟩
    | succ p =>
      rcases hcases with ⟨rfl, _⟩ | ⟨u, fuel', rest, hu, rfl, hrest, rfl⟩
      · simp at ht
      · rw [after_succ_of_step hu]
        exact after_of_trace hrest ht

/-- Two neighbours in a trace are a state and its successor. -/
theorem step_of_trace (h : s.trace fuel = .ok states) {u : State} (ht : states[p]? = some t)
    (hu : states[p + 1]? = some u) : t.step = .ok (some u) := by
  obtain ⟨t', ht', hstep⟩ := after_succ_last.mp (after_of_trace h hu).1
  rw [(after_of_trace h ht).1, Option.some.injEq] at ht'
  exact ht' ▸ hstep

/-! ## Reading the stream -/

/-- The index of the token that a state without error reads next, if it reads one from the stream. -/
def readIndex? (s : State) : Option Nat := if s.error = none then s.current.pc.streamIndex? else none

theorem readIndex?_eq_some_iff : s.readIndex? = some index ↔ s.error = none ∧ s.current.pc = .stream index := by
  unfold readIndex?
  cases s.current.pc <;> simp [Address.streamIndex?]

theorem readIndex?_of_inCode (h : s.current.pc.inCode = true) : s.readIndex? = none := by
  unfold readIndex?
  cases hpc : s.current.pc with
  | stream index => simp [hpc, Address.inCode] at h
  | code entry offset => simp [Address.streamIndex?]

/-- While controls are saved, execution is in code. -/
theorem inCode_of_savedControls (hlevel : Levelled s.current.pc.inCode s.stack) (h : s.savedControls ≠ []) :
    s.current.pc.inCode = true := by
  cases hin : s.current.pc.inCode with
  | true => rfl
  | false =>
    rw [hin] at hlevel
    refine absurd (List.length_eq_zero_iff.mp ?_) h
    rw [length_savedControls]
    exact countP_isSaved_of_levelled hlevel

/-- **A step reads the next token of the stream, or leaves the outermost control where it is.** -/
theorem readIndex?_of_step (hlevel : Levelled s.current.pc.inCode s.stack) (h : s.step = .ok (some t))
    (hpc : s.outermost.pc = .stream index) :
    t.readIndex? = some (index + 1) ∧ t.outermost.pc = .stream (index + 1) ∨
      t.readIndex? = none ∧ t.outermost.pc = .stream index := by
  rcases step_cases h with hmove | ⟨_, e, rfl⟩
  · have hlevel' := hmove.levelled hlevel
    have herror := hmove.error_eq.2
    -- At the bottom the control that has moved on is the outermost one; above it the outermost one is kept.
    have hbottom {k : Control} {pc : Address} (hsaved : t.savedControls = []) (hk : k.pc = .stream index)
        (hnext : k.pc.next? = some pc) (hcurrent : t.current.pc = pc) :
        t.readIndex? = some (index + 1) ∧ t.outermost.pc = .stream (index + 1) := by
      rw [hk] at hnext
      rw [next?_stream hnext] at hcurrent
      exact ⟨readIndex?_eq_some_iff.mpr ⟨herror, hcurrent⟩, by rw [outermost_of_savedControls hsaved, hcurrent]⟩
    have habove (hsaved : t.savedControls ≠ []) : t.readIndex? = none :=
      readIndex?_of_inCode (inCode_of_savedControls hlevel' hsaved)
    cases hmove with
    | within hwithin =>
      have hsame := hwithin.savedControls_eq
      by_cases hsaved : s.savedControls = []
      · rw [outermost_of_savedControls hsaved] at hpc
        exact .inl (hbottom (hsame.trans hsaved) hpc hwithin.next?_eq rfl)
      · refine .inr ⟨habove (hsame ▸ hsaved), ?_⟩
        obtain ⟨k, rest, hk⟩ := List.exists_cons_of_ne_nil hsaved
        rw [outermost, hk] at hpc
        rwa [outermost, hsame, hk]
    | enter henter =>
      obtain ⟨entry, c, _, rfl⟩ := henter
      exact .inr ⟨habove (by simp [savedControls_enter]), by rwa [outermost_enter]⟩
    | leave hleave =>
      obtain ⟨caller, _, pc, hnext, hcurrent, hcontrols, _⟩ := hleave.exists_innermost
      by_cases hsaved : t.savedControls = []
      · rw [outermost, hcontrols, hsaved] at hpc
        exact .inl (hbottom hsaved hpc hnext (by rw [hcurrent]))
      · refine .inr ⟨habove hsaved, ?_⟩
        obtain ⟨k, rest, hk⟩ := List.exists_cons_of_ne_nil hsaved
        rw [outermost, hcontrols, hk] at hpc
        rwa [outermost, hk]
  · exact .inr ⟨by simp [readIndex?, fail], hpc⟩

/-- **Along a trace the tokens of the stream are read one after the other.** -/
theorem filterMap_readIndex? : ∀ {fuel index : Nat} {s : State} {states : Trace},
    Levelled s.current.pc.inCode s.stack → s.outermost.pc = .stream index → s.trace fuel = .ok states →
    ∃ k, states.filterMap readIndex? = s.readIndex?.toList ++ List.range' (index + 1) k
  | fuel, index, s, states, hlevel, hpc, h => by
    rcases (trace_cases h).2 with ⟨rfl, _⟩ | ⟨t, fuel, rest, hstep, rfl, hrest, rfl⟩
    · exact ⟨0, by cases hread : s.readIndex? <;> simp [hread]⟩
    · have hone : s.after 1 = some t := by rw [after_succ_of_step hstep, after_zero]
      have hlevel' := levelled_of_after hone hlevel
      have hcons : (s :: rest).filterMap readIndex? = s.readIndex?.toList ++ rest.filterMap readIndex? := by
        cases hread : s.readIndex? <;> simp [hread]
      rcases readIndex?_of_step hlevel hstep hpc with ⟨hread, hpc'⟩ | ⟨hread, hpc'⟩
      · obtain ⟨k, hk⟩ := filterMap_readIndex? hlevel' hpc' hrest
        exact ⟨k + 1, by rw [hcons, hk, hread, List.range'_succ]; rfl⟩
      · obtain ⟨k, hk⟩ := filterMap_readIndex? hlevel' hpc' hrest
        exact ⟨k, by rw [hcons, hk, hread]; rfl⟩

theorem filterMap_readIndex?_ofText (h : (ofText text).trace fuel = .ok states) :
    ∃ m, states.filterMap readIndex? = List.range (m + 1) := by
  obtain ⟨m, hm⟩ := filterMap_readIndex? (s := ofText text) rfl rfl h
  exact ⟨m, by rw [hm, List.range_eq_range', List.range'_succ]; rfl⟩

/-- So no two positions read the same token. -/
theorem position_eq_of_readIndex? {m q : Nat} {u : State} (h : states.filterMap readIndex? = List.range (m + 1))
    (ht : states[p]? = some t) (hu : states[q]? = some u) (htread : t.readIndex? = some index)
    (huread : u.readIndex? = some index) : p = q := by
  have hpairwise : (states.filterMap readIndex?).Pairwise (· < ·) := h ▸ List.pairwise_lt_range
  rw [List.pairwise_filterMap, List.pairwise_iff_getElem] at hpairwise
  obtain ⟨hp, rfl⟩ := List.getElem?_eq_some_iff.mp ht
  obtain ⟨hq, rfl⟩ := List.getElem?_eq_some_iff.mp hu
  rcases Nat.lt_trichotomy p q with hlt | heq | hgt
  · exact absurd (hpairwise p q hp hq hlt index htread index huread) (Nat.lt_irrefl index)
  · exact heq
  · exact absurd (hpairwise q p hq hp hgt index huread index htread) (Nat.lt_irrefl index)

/-- **The first state at an index of the stream reads it.** A state with an error stands behind the state that failed,
which is at the same place. -/
theorem exists_read_of_findIdx? (h : s.trace fuel = .ok states) (herror : s.error = none)
    (hfind : states.findIdx? (·.current.pc = .stream index) = some p) :
    ∃ t, states[p]? = some t ∧ t.readIndex? = some index := by
  obtain ⟨hp, hpc, hfirst⟩ := List.findIdx?_eq_some_iff_getElem.mp hfind
  have hpc : states[p].current.pc = .stream index := by simpa using hpc
  have hat := List.getElem?_eq_getElem hp
  refine ⟨states[p], hat, readIndex?_eq_some_iff.mpr ⟨?_, hpc⟩⟩
  cases p with
  | zero =>
    have hhead := head?_of_trace h
    rw [List.head?_eq_getElem?, hat, Option.some.injEq] at hhead
    rw [hhead, herror]
  | succ q =>
    have hstep := step_of_trace h (List.getElem?_eq_getElem (Nat.lt_of_succ_lt hp)) hat
    rcases step_cases hstep with hmove | ⟨_, e, hfail⟩
    · exact hmove.error_eq.2
    · have hbefore := hfirst q (Nat.lt_succ_self q)
      have hsame : states[q].current.pc = .stream index := by
        rw [hfail] at hpc
        exact hpc
      exact absurd (by simpa using hsame) hbefore

/-- A debugger that looks for an index shows the state that reads it, or stays where it is if there is none. -/
theorem apply_find_cases {d : Debugger} (h : s.trace fuel = .ok d.states) (herror : s.error = none) (i : Nat) :
    (∃ p t, d.apply (.find i) = { d with position := p } ∧ d.states[p]? = some t ∧ t.readIndex? = some i) ∨
      d.apply (.find i) = d ∧ ∀ t ∈ d.states, t.readIndex? ≠ some i := by
  cases hfind : d.states.findIdx? (·.current.pc = .stream i) with
  | none =>
    refine .inr ⟨by simp [Debugger.apply, hfind], fun t ht hread => ?_⟩
    have hother := List.findIdx?_eq_none_iff.mp hfind t ht
    simp [(readIndex?_eq_some_iff.mp hread).2] at hother
  | some p =>
    obtain ⟨t, ht, hread⟩ := exists_read_of_findIdx? h herror hfind
    have hp := (List.getElem?_eq_some_iff.mp ht).1
    refine .inl ⟨p, t, ?_, ht, hread⟩
    simp only [Debugger.apply, hfind, Debugger.seek, Debugger.lastPosition]
    rw [Nat.min_eq_left (by omega)]

/-! ## The end of a run -/

/-- A state without error has no successor only at the end of the program. -/
theorem fetch_of_step_eq_none (h : s.step = .ok none) (herror : s.error = none) :
    s.fetch = some .eof ∧ s.current.readingName = false := by
  simp only [step, herror, Option.isSome_none, Bool.false_eq_true, if_false] at h
  cases hfetch : s.fetch with
  | none => simp [hfetch] at h
  | some tok =>
    simp only [hfetch] at h
    split at h
    · rename_i next hexec
      cases h
      obtain ⟨result, heffect, hnone⟩ := bind_eq_ok.mp hexec
      cases result with
      | next u => cases hadvance : u.advance <;> simp [hadvance, Functor.map, Except.map] at hnone
      | jump u => cases hnone
      | halt =>
        cases hreading : s.current.readingName with
        | true => simp [effect, hreading, map_next_eq_ok] at heffect
        | false =>
          refine ⟨?_, rfl⟩
          simp only [effect, hreading, Bool.false_eq_true, if_false] at heffect
          cases tok with
          | eof => rfl
          | id name =>
            simp only [mention] at heffect
            split at heffect <;> cases heffect
          | _ => simp [map_next_eq_ok] at heffect
    · cases h
    · cases h

/-- **The end of the program is in no code**: a declaration that reaches its dot has executed all its tokens. -/
theorem Reachable.eof_not_mem_code (h : Reachable text s) {c : Constant} (hc : c ∈ s.signature) : .eof ∉ c.code := by
  obtain ⟨_, s₀, w, hrun⟩ := h.exists_declared hc
  rw [(h.wellPlaced.codes c hc).1, ofDeclaration, List.mem_append, List.mem_singleton]
  rintro (hmem | hret)
  · exact hrun.executes.eof_not_mem (mem_of_mem_body (mem_of_mem_grabParameters (by simp) hmem))
  · cases hret

theorem Reachable.inStream_of_eof (h : Reachable text s) (hfetch : s.fetch = some .eof) :
    ∃ index, s.current.pc = .stream index ∧ (Source.ofText text).tokens[index]? = some .eof := by
  unfold fetch tokenAt? at hfetch
  split at hfetch
  · rename_i index hpc
    exact ⟨index, hpc, by rwa [h.source_eq] at hfetch⟩
  · obtain ⟨c, hc, hcode⟩ := Option.bind_eq_some_iff.mp hfetch
    exact absurd (List.mem_of_getElem? hcode) (h.eof_not_mem_code (List.mem_of_getElem? hc))

/-- The run ended by itself, without error, with the token at `index` of the stream: it is the end of the program, no
name is being read, and no call is in progress. -/
structure Finishes (text : String) (index : Nat) (s : State) : Prop where
  pc : s.current.pc = .stream index
  token : (Source.ofText text).tokens[index]? = some .eof
  reading : s.current.readingName = false
  depth : s.callDepth = 0
  calls : ∀ c, .call c ∉ s.frames

theorem Reachable.finishes (h : Reachable text s) (hstep : s.step = .ok none) (herror : s.error = none) :
    ∃ index, s.Finishes text index := by
  obtain ⟨hfetch, hreading⟩ := fetch_of_step_eq_none hstep herror
  obtain ⟨index, hpc, htoken⟩ := h.inStream_of_eof hfetch
  have hdepth : s.callDepth = 0 := h.disciplined.inStream_iff.mp (by rw [hpc]; rfl)
  exact ⟨index, hpc, htoken, hreading, hdepth, h.disciplined.call_not_mem hdepth⟩

/-- A trace that was not cut short ends there, unless it ends with an error. -/
theorem exists_finishes_of_trace (h : (ofText text).trace fuel = .ok states) (hlast : states.getLast? = some t)
    (houtcome : t.outcome states.length ≠ .truncated states.length) (herror : t.error = none) :
    ∃ index, t.Finishes text index := by
  obtain ⟨front, rfl⟩ := List.getLast?_eq_some_iff.mp hlast
  obtain ⟨hafter, next, hnext⟩ := after_of_trace (t := t) h (p := front.length) (by simp)
  have hreachable : Reachable text t := ⟨front.length, hafter⟩
  refine hreachable.finishes ?_ herror
  cases next with
  | none => exact hnext
  | some u => exact absurd (by simp [outcome, hnext]) houtcome

/-- **Every token is read once and in order, and a run that ends without error has read them all.** The states of a
trace without error that are in the token stream are at the indices `0, 1, …, m`, in this order. A debugger that looks
for index `i` shows the only one of them at `i`, and stays where it is if there is none. If the trace was not cut short
and its last state has no error, then that state is at index `m`, at the end of the program, and no call is open. -/
theorem tokens_read_in_order (text : String) (max : Nat) :
    ((Source.ofText text).Fits → ∃ states, runText text max = .ok states) ∧
      ∀ states, runText text max = .ok states → ∃ m, states.filterMap readIndex? = List.range (m + 1) ∧
        (∀ d : Debugger, d.states = states → ∀ i,
          (i ≤ m → ∃ p s, d.apply (.find i) = { d with position := p } ∧ states[p]? = some s ∧
            s.readIndex? = some i ∧ ∀ q u, states[q]? = some u → u.readIndex? = some i → q = p) ∧
          (m < i → d.apply (.find i) = d)) ∧
        ∀ last, states.getLast? = some last → last.outcome states.length ≠ .truncated states.length →
          last.error = none → last.Finishes text m := by
  refine ⟨fun hfits => exists_run hfits max, fun states h => ?_⟩
  obtain ⟨m, hm⟩ := filterMap_readIndex?_ofText h
  have hmem (i : Nat) : i ≤ m ↔ ∃ s ∈ states, s.readIndex? = some i := by
    rw [← List.mem_filterMap, hm, List.mem_range, Nat.lt_succ_iff]
  refine ⟨m, hm, fun d hd i => ?_, fun last hlast houtcome herror => ?_⟩
  · subst hd
    rcases apply_find_cases h rfl i with ⟨p, s, hp, hs, hread⟩ | ⟨hstay, habsent⟩
    · have hle : i ≤ m := (hmem i).mpr ⟨s, List.mem_of_getElem? hs, hread⟩
      refine ⟨fun _ => ⟨p, s, hp, hs, hread, fun q u hu huread => ?_⟩, fun hlt => absurd hle (Nat.not_le_of_lt hlt)⟩
      exact position_eq_of_readIndex? hm hu hs huread hread
    · refine ⟨fun hle => ?_, fun _ => hstay⟩
      obtain ⟨s, hs, hread⟩ := (hmem i).mp hle
      exact absurd hread (habsent s hs)
  · obtain ⟨index, hfinishes⟩ := exists_finishes_of_trace h hlast houtcome herror
    -- The last state reads the last of the indices.
    have hread := readIndex?_eq_some_iff.mpr ⟨herror, hfinishes.pc⟩
    obtain ⟨front, rfl⟩ := List.getLast?_eq_some_iff.mp hlast
    rw [List.filterMap_append, List.filterMap_cons_some hread, List.range_succ] at hm
    obtain rfl : index = m := by simpa using (List.append_inj' hm rfl).2
    exact hfinishes

/-- The last token but one calls `k`, whose code calls `o`; a debugger finds it before the calls that it makes. -/
theorem tokens_read_in_order_over_calls : ∃ states last p s, runText "type : o . o : k . k" 100 = .ok states ∧
    states.length = 16 ∧ states.filterMap readIndex? = List.range 10 ∧ states.getLast? = some last ∧
    last.Finishes "type : o . o : k . k" 9 ∧ (Debugger.ofTrace states).apply (.find 8) =
      { Debugger.ofTrace states with position := p } ∧ states[p]? = some s ∧ s.readIndex? = some 8 := by
  let states := (runText "type : o . o : k . k" 100).toOption.getD []
  let last := states.getLast?.getD default
  obtain ⟨hrun, hlength, hread, hlast, houtcome, herror⟩ : runText "type : o . o : k . k" 100 = .ok states ∧
      states.length = 16 ∧ states.filterMap readIndex? = List.range 10 ∧ states.getLast? = some last ∧
      last.outcome states.length ≠ .truncated states.length ∧ last.error = none := by decide +kernel
  obtain ⟨m, hm, hfind, hend⟩ := (tokens_read_in_order _ _).2 states hrun
  obtain rfl : m = 9 := by simpa using congrArg List.length (hm.symm.trans hread)
  obtain ⟨p, s, hp, hs, hat, _⟩ := (hfind (.ofTrace states) rfl 8).1 (by decide)
  exact ⟨states, last, p, s, hrun, hlength, hread, hlast, hend last hlast houtcome herror, hp, hs, hat⟩

end Stepwise.State
