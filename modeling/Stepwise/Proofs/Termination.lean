import Stepwise.Proofs.Descent
import Stepwise.Proofs.Faultless

/-!
# Runs that end

At one level of calls execution only moves forward, so it ends if the calls made on the way do (`completes_of_calls`).
Calls go to older constants when no two constants have the same name and no declaration misnames a parameter
(`Reachable.calls_lt`), so then all calls end, by induction on the index of the constant, and so does the run of the
program (`halts_of_distinct_names`).

The second condition cannot be left out: `misnamed_parameter_never_halts` is a program whose constants have different
names, and whose run has no end (`Calls.recurs`).
-/

namespace Stepwise.State

open Activation Code

variable {s t u x : State} {text : String} {m n : Nat}

/-! ## Ends of runs -/

/-- The run from the state has an end. -/
def Halts (s : State) : Prop := ∃ n, s.after n = none

theorem Halts.of_after (ht : t.Halts) (h : s.after n = some t) : s.Halts := by
  obtain ⟨k, hk⟩ := ht
  refine ⟨n + k, ?_⟩
  rw [after_add, h]
  exact hk

theorem Halts.of_step (ht : t.Halts) (h : s.step = .ok (some t)) : s.Halts :=
  ht.of_after (n := 1) (after_succ.mpr ⟨t, h, rfl⟩)

theorem lt_of_after (hend : s.after m = none) (h : s.after n = some t) : n < m := by
  by_contra hle
  obtain ⟨k, rfl⟩ := Nat.exists_eq_add_of_le (Nat.le_of_not_lt hle)
  rw [after_add, hend] at h
  cases h

/-- What holds of the states before the end of a run holds of all its states. -/
theorem forall_reachable {P : State → Prop} (hend : (ofText text).after m = none)
    (h : ∀ n < m, ∀ s ∈ (ofText text).after n, P s) : ∀ s, Reachable text s → P s := by
  rintro s ⟨n, hn⟩
  exact h n (lt_of_after hend hn) s hn

/-- A state without a move is the last one but for an error. -/
theorem halts_or_move (s : State) : s.Halts ∨ ∃ t, Move s t := by
  have hlast : (∀ t, s.step ≠ .ok (some t)) → s.Halts := by
    intro h
    refine ⟨1, ?_⟩
    cases hone : s.after 1 with
    | none => rfl
    | some t =>
      obtain ⟨t, ht, _⟩ := after_succ.mp hone
      exact absurd ht (h t)
  by_cases hsome : ∃ t, s.step = .ok (some t)
  · obtain ⟨t, ht⟩ := hsome
    rcases step_cases ht with hmove | ⟨_, e, rfl⟩
    · exact .inr ⟨t, hmove⟩
    · have herror : (s.fail e).after 1 = none := by simp [after, step_of_error, fail]
      exact .inl (Halts.of_step ⟨1, herror⟩ ht)
  · exact .inl (hlast fun t ht => hsome ⟨t, ht⟩)

/-! ## One level of calls -/

/-- From the state on, the run ends or leaves the constant that the state is in. -/
def Completes (s : State) : Prop := s.Halts ∨ ∃ m u t, Nested m s u ∧ Leaves u t

theorem Completes.of_nested (ht : t.Completes) (h : Nested m s t) : s.Completes := by
  rcases ht with hhalts | ⟨n, u, v, hnested, hleave⟩
  · exact .inl (hhalts.of_after h.after_eq)
  · exact .inr ⟨m + n, u, v, h.trans hnested, hleave⟩

/-- The number of instructions from the next one to the end of the stream or of the code. -/
def unread (s : State) : Nat :=
  match s.current.pc with
  | .stream index => s.source.tokens.length - index
  | .code entry offset => (s.signature[entry]?).elim 0 fun c => c.code.length - offset

theorem Grows.unread_lt (h : Grows s t) {tok : Token} (hfetch : s.fetch = some tok)
    (hpc : s.current.pc.next? = some t.current.pc) : t.unread < s.unread := by
  unfold Address.next? at hpc
  split at hpc
  case isFalse => cases hpc
  unfold State.fetch State.tokenAt? at hfetch
  unfold unread
  cases hs : s.current.pc with
  | stream index =>
    simp only [hs, Option.some.injEq] at hpc hfetch
    obtain ⟨hlt, _⟩ := List.getElem?_eq_some_iff.mp hfetch
    rw [← hpc]
    simp only [h.source]
    omega
  | code entry offset =>
    simp only [hs, Option.some.injEq] at hpc hfetch
    obtain ⟨c, hc, hcode⟩ := Option.bind_eq_some_iff.mp hfetch
    obtain ⟨hlt, _⟩ := List.getElem?_eq_some_iff.mp hcode
    rw [← hpc]
    simp only [hc, h.getElem? hc, Option.elim_some]
    omega

/-- **A level completes if the calls made at it do.** -/
theorem completes_of_calls (s : State)
    (hcalls : ∀ n u entry c, Nested n s u → u.Calls entry c → (u.enter entry c).Completes) : s.Completes := by
  -- Each move at the level, and each call that returns, leaves less unread.
  induction hk : s.unread using Nat.strongRecOn generalizing s with
  | ind k ih =>
    subst hk
    have hlater (n : Nat) (t : State) (hnested : Nested n s t) (hlt : t.unread < s.unread) : s.Completes := by
      refine Completes.of_nested (ih t.unread hlt t (fun m u entry c hu => ?_) rfl) hnested
      exact hcalls (n + m) u entry c (hnested.trans hu)
    rcases halts_or_move s with hhalts | ⟨t, hmove⟩
    · exact .inl hhalts
    · cases hmove with
      | within hwithin =>
        have hgrows := (Move.within hwithin).grows
        refine hlater 1 t (.within hwithin (.nil t)) ?_
        have hpc := hwithin.next?_eq
        cases hwithin with
        | name _ hfetch => exact hgrows.unread_lt hfetch hpc
        | rule _ hfetch => exact hgrows.unread_lt hfetch hpc
      | leave hleave => exact .inr ⟨0, s, t, .nil s, hleave⟩
      | enter henter =>
        obtain ⟨entry, c, hs, rfl⟩ := henter
        rcases hcalls 0 s entry c (.nil s) hs with hhalts | ⟨m, u, t, hbody, hleave⟩
        · exact .inl (hhalts.of_step hs.step_eq)
        · refine hlater (m + 0 + 2) t (.call ⟨entry, c, hs, rfl⟩ hbody hleave (.nil t)) ?_
          obtain ⟨name, hfetch, _⟩ := hs.names
          obtain ⟨_, _, _, _, _, pc, _, _, _, _, hpc, rfl⟩ :=
            hs.returns_iff_eval.mp (hs.returns_iff.mpr ⟨m, u, rfl, hbody, hleave⟩)
          exact Grows.unread_lt ⟨rfl, List.prefix_rfl⟩ hfetch hpc

/-! ## All levels -/

/-- In all states of the run, no two constants have the same name, and no declaration misnames a parameter. -/
structure WellNamed (text : String) : Prop where
  distinct : ∀ s, Reachable text s → (s.signature.map (·.name)).Nodup
  honest : ∀ s, Reachable text s → ∀ c ∈ s.signature, ¬Misnames (s.declaration c)

/-- **Every call completes**, by induction on the index of the constant. -/
theorem WellNamed.enter_completes (h : WellNamed text) (entry : Nat) :
    ∀ {u : State} {c : Constant}, Reachable text u → u.Calls entry c → (u.enter entry c).Completes := by
  induction entry using Nat.strongRecOn with
  | ind entry ih =>
    intro u c hreachable hcalls
    refine completes_of_calls _ fun n x entry' c' hnested hcalls' => ?_
    obtain ⟨k, hk⟩ := hreachable.of_step hcalls.step_eq
    have hreachable' : Reachable text x := ⟨k + n, after_trans hk hnested.after_eq⟩
    obtain ⟨vs, rest, b, _, rfl, heval, hin⟩ := eval_of_nested hnested (enter_eq_calling u entry c) hcalls.error rfl
    have hc := hcalls.getElem?_eq
    have hlt : entry' < entry := hreachable.calls_lt (h.distinct u hreachable) hc
      (h.honest u hreachable c (List.mem_of_getElem? hc)) heval ((calls_calling hcalls.error hin).mp hcalls')
    exact ih entry' hlt hreachable' hcalls'

theorem WellNamed.halts (h : WellNamed text) : (ofText text).Halts := by
  have hcompletes : (ofText text).Completes :=
    completes_of_calls _ fun n u entry c hnested hcalls => h.enter_completes entry ⟨n, hnested.after_eq⟩ hcalls
  rcases hcompletes with hhalts | ⟨m, u, t, hnested, hleave⟩
  · exact hhalts
  · -- No constant is left in the token stream.
    have hdepth := hnested.callDepth_eq
    have hleft := hleave.callDepth_eq
    have hbottom : (ofText text).callDepth = 0 := rfl
    omega

/-- The trace of a run that ends ends in a state without a successor. -/
theorem Reachable.exists_last (h : Reachable text s) (hfits : (Source.ofText text).Fits) {fuel : Nat}
    (hend : s.after (fuel + 1) = none) :
    ∃ trace last, s.trace fuel = .ok trace ∧ trace.getLast? = some last ∧ last.step = .ok none := by
  induction fuel generalizing s with
  | zero =>
    obtain ⟨next, hnext⟩ := h.exists_step hfits
    cases next with
    | none => exact ⟨[s], s, by rw [trace, hnext]; rfl, rfl, hnext⟩
    | some t => simp [after, hnext] at hend
  | succ fuel ih =>
    obtain ⟨next, hnext⟩ := h.exists_step hfits
    cases next with
    | none => exact ⟨[s], s, by rw [trace, hnext]; rfl, rfl, hnext⟩
    | some t =>
      rw [after_succ_of_step hnext] at hend
      obtain ⟨trace, last, htrace, hlast, hnone⟩ := ih (h.of_step hnext) hend
      refine ⟨s :: trace, last, ?_, ?_, hnone⟩
      · rw [State.trace, hnext]
        simp [bind, Except.bind, htrace, Functor.map, Except.map]
      · rw [List.getLast?_cons, hlast]
        rfl

/-- **A program ends whose constants have different names, if no declaration of it misnames a parameter.** Its run has
an end, and if the program fits into the address space, some number of states is enough for a trace that ends in a state
without a successor. -/
theorem halts_of_distinct_names (hnames : ∀ s, Reachable text s → (s.signature.map (·.name)).Nodup)
    (hhonest : ∀ s, Reachable text s → ∀ c ∈ s.signature, ¬Misnames (s.declaration c)) :
    (∃ n, (ofText text).after n = none) ∧
      ((Source.ofText text).Fits → ∃ max trace last, (ofText text).run max = .ok trace ∧
        trace.getLast? = some last ∧ last.step = .ok none) := by
  obtain ⟨n, hn⟩ := WellNamed.halts ⟨hnames, hhonest⟩
  refine ⟨⟨n, hn⟩, fun hfits => ?_⟩
  cases n with
  | zero => cases hn
  | succ n => exact ⟨n + 1, Reachable.exists_last ⟨0, rfl⟩ hfits hn⟩

/-- The declaration of `f` reads an arrow as the name of its parameter, and does not mention `grab`. -/
theorem halts_with_arrow_for_name :
    ∃ max trace last, (ofText "type : o . ( type : -> -> type ) : f . o f : g .").run max = .ok trace ∧
      trace.getLast? = some last ∧ last.step = .ok none := by
  have hend : (ofText "type : o . ( type : -> -> type ) : f . o f : g .").after 28 = none := by decide +kernel
  refine (halts_of_distinct_names (forall_reachable hend ?_) (forall_reachable hend ?_)).2 (by decide +kernel)
  · decide +kernel
  · decide +kernel

/-! ## A run without an end -/

/-- A call that comes to the same call, with the same values on top of the stack, is made again and again, whatever
state it is made in. -/
theorem Calls.recurs {u₀ : State} {entry : Nat} {c : Constant} {args : List Value} {below rest : List Slot}
    (h₀ : u₀.Calls entry c) (hstack₀ : u₀.stack = args.map .value) (hnested : Nested m (u₀.enter entry c) x)
    (hagain : x.Calls entry c) (hx : x.stack = args.map .value ++ below) (hcalls : u.Calls entry c)
    (hsignature : u.signature = u₀.signature) (hstack : u.stack = args.map .value ++ rest) (n : Nat) :
    ∃ k t, n ≤ k ∧ u.after k = some t ∧ t.signature = u₀.signature := by
  obtain ⟨vs, left, b, hleft, rfl, heval, hin⟩ := eval_of_nested hnested (enter_eq_calling u₀ entry c) h₀.error rfl
  rw [hstack₀, List.map_eq_append_iff] at hleft
  obtain ⟨vs', left', rfl, hvs, rfl⟩ := hleft
  obtain rfl : vs' = vs := (List.map_inj_right fun _ _ => Slot.value.inj).mp hvs
  have hb := (calls_calling h₀.error hin).mp hagain
  obtain ⟨more, hvalues, _⟩ := values_eq_append hx
  induction n generalizing u rest with
  | zero => exact ⟨0, u, Nat.le_refl 0, rfl, hsignature⟩
  | succ n ih =>
    rw [List.map_append, List.append_assoc] at hstack
    have hrun : Nested m (u.enter entry c) (u.calling entry c (left'.map .value ++ rest) b) := by
      rw [enter_eq_calling, hstack]
      exact nested_of_eval heval hsignature hcalls.error rfl
    rw [← hsignature] at hb
    have hcalls' : (u.calling entry c (left'.map .value ++ rest) b).Calls entry c :=
      (calls_calling hcalls.error hin).mpr hb
    have hstack' : (u.calling entry c (left'.map .value ++ rest) b).stack =
        (vs' ++ left').map .value ++ (more.map .value ++ .saved u.current :: (left'.map .value ++ rest)) := by
      simp [calling, hvalues]
    obtain ⟨k, t, hle, ht, hsame⟩ := ih hcalls' hsignature hstack'
    refine ⟨m + k + 1, t, by omega, ?_, hsame⟩
    rw [after_succ_of_step hcalls.step_eq]
    exact after_trans hrun.after_eq ht

/-- The first parameter of `f` is named `->` in the declaration and `grab` in the code. There the name `grab`, which in
the declaration is that of a constant, refers to the argument and captures nothing; so the arrows behind it bind other
values, and the variable `f` that the declaration binds is not bound in the code: `f` calls itself. -/
theorem misnamed_parameter_never_halts : ∃ text,
    text = "type : o . ( type -> type ) : grab . ( type : -> -> ( ( o : f ) o grab -> -> o f type ) ) : f . o f" ∧
      (∀ s, Reachable text s → (s.signature.map (·.name)).Nodup) ∧ ¬(ofText text).Halts := by
  refine ⟨_, rfl, ?_⟩
  let start := ofText
    "type : o . ( type -> type ) : grab . ( type : -> -> ( ( o : f ) o grab -> -> o f type ) ) : f . o f"
  let u := (start.after 48).getD default
  let o : Value := ⟨.const "o" [], .type, none⟩
  let u₀ : State := { u with stack := [.value o] }
  let c := u.signature.getD 2 default
  let x := ((u₀.enter 2 c).after 21).getD default
  obtain ⟨hu, hcalls, hstack, hnames⟩ : start.after 48 = some u ∧ u.Calls 2 c ∧
      u.stack = [o].map .value ++ u.stack.tail ∧ (u.signature.map (·.name)).Nodup := by decide +kernel
  obtain ⟨h₀, hx, herror, hdepth, habove, hagain, hstack'⟩ : u₀.Calls 2 c ∧ (u₀.enter 2 c).after 21 = some x ∧
      x.error = none ∧ x.callDepth = (u₀.enter 2 c).callDepth ∧
      (∀ m < 22, ∀ w ∈ (u₀.enter 2 c).after m, (u₀.enter 2 c).callDepth ≤ w.callDepth) ∧ x.Calls 2 c ∧
      x.stack = [o].map .value ++ x.stack.tail := by decide +kernel
  clear_value x c u
  have hnested : Nested 21 (u₀.enter 2 c) x :=
    nested_of_after hx herror hdepth fun m w hm hw => habove m (by omega) w hw
  -- However far one goes, there is a later state with these constants.
  have hlater (n : Nat) : ∃ k t, n ≤ k ∧ start.after k = some t ∧ t.signature = u.signature := by
    obtain ⟨k, t, hle, ht, hsame⟩ := h₀.recurs rfl hnested hagain hstack' hcalls rfl hstack n
    exact ⟨48 + k, t, by omega, after_trans hu ht, hsame⟩
  refine ⟨?_, ?_⟩
  · rintro s ⟨n, hn⟩
    obtain ⟨k, t, hle, ht, hsame⟩ := hlater n
    obtain ⟨l, rfl⟩ := Nat.exists_eq_add_of_le hle
    rw [after_add, show start.after n = some s from hn] at ht
    have hgrown := (grows_of_after (s := s) ht).signature
    rw [hsame] at hgrown
    exact hnames.sublist (hgrown.sublist.map _)
  · rintro ⟨n, hn⟩
    obtain ⟨k, t, hle, ht, _⟩ := hlater n
    have hlt := lt_of_after hn ht
    omega

end Stepwise.State
