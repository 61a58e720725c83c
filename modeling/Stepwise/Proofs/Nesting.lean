import Stepwise.Proofs.Move
import Stepwise.Proofs.Run

/-!
# Well-nested runs

A run is well-nested (`Nested`) when it leaves every constant that it enters. The depth of calls tells: a run that never
goes below the depth at which it starts, and ends at that depth, is well-nested (`nested_of_after`). A call returns when
the run first comes back to the depth of the caller (`Returns`), and that is when it enters the constant, makes a
well-nested run and leaves it (`Calls.returns_iff`). Every state above the depth of the first one is inside a call that
the run has made (`exists_entered`).
-/

namespace Stepwise.State

variable {s t u v w : State} {m n : Nat}

/-! ## The depth of calls -/

theorem Within.callDepth_eq (h : Within s t) : t.callDepth = s.callDepth := by
  cases h with
  | name => rfl
  | rule _ _ _ _ hrule => cases hrule <;> simp_all [callDepth, List.countP_cons, Slot.isSaved]

theorem callDepth_enter (s : State) (entry : Nat) (c : Constant) : (s.enter entry c).callDepth = s.callDepth + 1 := by
  simp [callDepth, enter, List.countP_cons, Slot.isSaved]

theorem Enters.callDepth_eq (h : Enters s t) : t.callDepth = s.callDepth + 1 := by
  obtain ⟨entry, c, _, rfl⟩ := h
  exact callDepth_enter s entry c

theorem Leaves.callDepth_eq (h : Leaves s t) : s.callDepth = t.callDepth + 1 := by
  cases h with
  | intro _ _ _ hstack => simp [callDepth, hstack, List.countP_cons, Slot.isSaved]

/-! ## Nested runs -/

/-- A run of so many moves that leaves every constant that it enters. -/
inductive Nested : Nat → State → State → Prop
  | nil (s : State) : Nested 0 s s
  | within {n : Nat} {s t u : State} (hfirst : Within s t) (hrest : Nested n t u) : Nested (n + 1) s u
  | call {m n : Nat} {s t u v w : State} (henter : Enters s t) (hbody : Nested m t u) (hleave : Leaves u v)
      (hrest : Nested n v w) : Nested (m + n + 2) s w

theorem Nested.after_eq (h : Nested n s t) : s.after n = some t := by
  induction h with
  | nil s => rfl
  | within hfirst _ ih => exact after_succ.mpr ⟨_, hfirst.step_eq, ih⟩
  | @call m k _ _ _ _ _ henter _ hleave _ ihbody ihrest =>
    have hback := after_trans ihbody (after_succ.mpr ⟨_, hleave.step_eq, ihrest⟩)
    rw [show m + k + 2 = m + (k + 1) + 1 by omega]
    exact after_succ.mpr ⟨_, (Move.enter henter).step_eq, hback⟩

theorem Nested.trans (h : Nested m s t) (h' : Nested n t u) : Nested (m + n) s u := by
  induction h with
  | nil s =>
    rw [Nat.zero_add]
    exact h'
  | @within k _ _ _ hfirst _ ih =>
    rw [Nat.add_right_comm]
    exact .within hfirst (ih h')
  | @call k l _ _ _ _ _ henter hbody hleave _ _ ih =>
    rw [show k + l + 2 + n = k + (l + n) + 2 by omega]
    exact .call henter hbody hleave (ih h')

theorem Nested.callDepth_eq (h : Nested n s t) : t.callDepth = s.callDepth := by
  induction h with
  | nil s => rfl
  | within hfirst _ ih => rw [ih, hfirst.callDepth_eq]
  | call henter _ hleave _ ihbody ihrest =>
    have hin := henter.callDepth_eq
    have hout := hleave.callDepth_eq
    omega

/-- A well-nested run stays at the depth at which it starts, or deeper. -/
theorem Nested.le_callDepth (h : Nested n s t) : ∀ {m : Nat} {u : State}, m ≤ n → s.after m = some u →
    s.callDepth ≤ u.callDepth := by
  induction h with
  | nil s =>
    intro m u hm hu
    obtain rfl : m = 0 := by omega
    cases hu
    exact Nat.le_refl _
  | within hfirst _ ih =>
    intro m u hm hu
    cases m with
    | zero => cases hu; exact Nat.le_refl _
    | succ m =>
      rw [after_succ_of_step hfirst.step_eq] at hu
      rw [← hfirst.callDepth_eq]
      exact ih (by omega) hu
  | @call k n s t x v w henter hbody hleave _ ihbody ihrest =>
    intro m u hm hu
    have hin := henter.callDepth_eq
    cases m with
    | zero => cases hu; exact Nat.le_refl _
    | succ m =>
      rw [after_succ_of_step (Move.enter henter).step_eq] at hu
      by_cases hmk : m ≤ k
      · have := ihbody hmk hu
        omega
      · obtain ⟨j, rfl⟩ : ∃ j, m = k + 1 + j := ⟨m - (k + 1), by omega⟩
        have hv : t.after (k + 1) = some v := after_succ_last.mpr ⟨x, hbody.after_eq, hleave.step_eq⟩
        rw [after_add, hv] at hu
        have hout := hleave.callDepth_eq
        have hbody := hbody.callDepth_eq
        have := ihrest (m := j) (by omega) hu
        omega

/-! ## The depth shows the nesting -/

theorem error_eq_none_of_step (h : s.step = .ok (some t)) : s.error = none := by
  rcases step_cases h with h | ⟨herror, _⟩
  · exact h.error_eq.1
  · exact herror

/-- No state before one without error carries an error. -/
theorem error_eq_none_of_after (h : s.after n = some t) (herror : t.error = none) : s.error = none := by
  cases n with
  | zero =>
    cases h
    exact herror
  | succ n =>
    obtain ⟨_, hstep, _⟩ := after_succ.mp h
    exact error_eq_none_of_step hstep

/-- The first step of a run that ends without error is a move. -/
theorem move_of_after_succ (h : s.after (n + 1) = some t) (herror : t.error = none) :
    ∃ u, Move s u ∧ u.after n = some t := by
  obtain ⟨u, hstep, hu⟩ := after_succ.mp h
  exact ⟨u, move_of_step hstep (error_eq_none_of_after hu herror), hu⟩

/-- A run from above a depth to that depth or below leaves, on its way, a constant that was entered at that depth. -/
theorem exists_leaves_of_after {d : Nat} : ∀ {n : Nat} {s : State}, s.after n = some t → t.error = none →
    d < s.callDepth → t.callDepth ≤ d →
    ∃ i u v, i < n ∧ s.after i = some u ∧ Leaves u v ∧ v.after (n - (i + 1)) = some t ∧ u.callDepth = d + 1 ∧
      ∀ j w, j ≤ i → s.after j = some w → d < w.callDepth
  | 0, s, h, _, hs, ht => by
    cases h
    omega
  | n + 1, s, h, herror, hs, ht => by
    obtain ⟨s', hmove, hrest⟩ := move_of_after_succ h herror
    by_cases hs' : d < s'.callDepth
    · obtain ⟨i, u, v, hi, hu, hleave, hv, hdepth, habove⟩ := exists_leaves_of_after hrest herror hs' ht
      refine ⟨i + 1, u, v, by omega, ?_, hleave, by simpa using hv, hdepth, ?_⟩
      · rwa [after_succ_of_step hmove.step_eq]
      · intro j w hj hw
        cases j with
        | zero =>
          cases hw
          exact hs
        | succ j =>
          rw [after_succ_of_step hmove.step_eq] at hw
          exact habove j w (by omega) hw
    · cases hmove with
      | within hwithin =>
        have := hwithin.callDepth_eq
        omega
      | enter henter =>
        have := henter.callDepth_eq
        omega
      | leave hleave =>
        have := hleave.callDepth_eq
        refine ⟨0, s, s', by omega, rfl, hleave, by simpa using hrest, by omega, ?_⟩
        intro j w hj hw
        obtain rfl : j = 0 := by omega
        cases hw
        exact hs

/-- **A run that ends at the depth where it starts, and is never below it, is well-nested.** -/
theorem nested_of_after (h : s.after n = some t) (herror : t.error = none) (hdepth : t.callDepth = s.callDepth)
    (habove : ∀ m u, m ≤ n → s.after m = some u → s.callDepth ≤ u.callDepth) : Nested n s t := by
  induction n using Nat.strongRecOn generalizing s t with
  | ind n ih =>
    cases n with
    | zero =>
      cases h
      exact .nil s
    | succ n =>
      obtain ⟨s', hmove, hrest⟩ := move_of_after_succ h herror
      have hs' : s.after 1 = some s' := by rw [after_succ_of_step hmove.step_eq, after_zero]
      have hlater : ∀ m u, s'.after m = some u → s.after (m + 1) = some u := fun m u hu => by
        rwa [after_succ_of_step hmove.step_eq]
      cases hmove with
      | within hwithin =>
        have hsame := hwithin.callDepth_eq
        refine .within hwithin (ih n (by omega) hrest herror (by omega) fun m u hm hu => ?_)
        rw [hsame]
        exact habove (m + 1) u (by omega) (hlater m u hu)
      | leave hleave =>
        have := hleave.callDepth_eq
        have := habove 1 s' (by omega) hs'
        omega
      | enter henter =>
        -- The constant is left where the run is first back at the depth of `s`.
        have hin := henter.callDepth_eq
        obtain ⟨i, u, v, hi, hu, hleave, hv, hud, hbody⟩ :=
          exists_leaves_of_after hrest herror (d := s.callDepth) (by omega) (by omega)
        have hout := hleave.callDepth_eq
        have hsv : s.after (i + 1 + 1) = some v := hlater (i + 1) v (after_succ_last.mpr ⟨u, hu, hleave.step_eq⟩)
        have hinner : Nested i s' u := by
          refine ih i (by omega) hu ?_ (by omega) fun j w hj hw => ?_
          · exact (Move.leave hleave).error_eq.1
          · have := hbody j w hj hw
            omega
        have houter : Nested (n - (i + 1)) v t := by
          refine ih _ (by omega) hv herror (by omega) fun j w hj hw => ?_
          have := habove (i + 1 + 1 + j) w (by omega) (after_trans hsv hw)
          omega
        have hrun := Nested.call henter hinner hleave houter
        rwa [show i + (n - (i + 1)) + 2 = n + 1 by omega] at hrun

/-! ## Returning from a call -/

/-- The first later state without error at the depth of `s` is `t`, after `n` steps. -/
structure Returns (s : State) (n : Nat) (t : State) : Prop where
  reaches : s.after n = some t
  error : t.error = none
  later : 0 < n
  depth : t.callDepth = s.callDepth
  first : ∀ m u, 0 < m → m < n → s.after m = some u → u.error = none → u.callDepth ≠ s.callDepth

instance (s : State) (n : Nat) (t : State) : Decidable (s.Returns n t) :=
  decidable_of_iff (s.after n = some t ∧ t.error = none ∧ 0 < n ∧ t.callDepth = s.callDepth ∧
      ∀ m < n, ∀ u ∈ s.after m, 0 < m → u.error = none → u.callDepth ≠ s.callDepth) <| by
    constructor
    · rintro ⟨hreaches, herror, hlater, hdepth, hfirst⟩
      exact ⟨hreaches, herror, hlater, hdepth, fun m u hm hmn hu => hfirst m hmn u hu hm⟩
    · rintro ⟨hreaches, herror, hlater, hdepth, hfirst⟩
      exact ⟨hreaches, herror, hlater, hdepth, fun m hmn u hu hm => hfirst m u hm hmn hu⟩

/-- **A call returns when the constant, entered, is left after a well-nested run.** -/
theorem Calls.returns_iff {entry : Nat} {c : Constant} (h : s.Calls entry c) :
    s.Returns n t ↔ ∃ m u, n = m + 2 ∧ Nested m (s.enter entry c) u ∧ Leaves u t := by
  have hin := callDepth_enter s entry c
  constructor
  · intro hret
    obtain ⟨n, rfl⟩ : ∃ k, n = k + 1 := ⟨n - 1, by have := hret.later; omega⟩
    have hrest := hret.reaches
    rw [after_succ_of_step h.step_eq] at hrest
    have hdepth := hret.depth
    obtain ⟨i, u, v, hi, hu, hleave, hv, hud, hbody⟩ :=
      exists_leaves_of_after hrest hret.error (d := s.callDepth) (by omega) (by omega)
    have hout := hleave.callDepth_eq
    have hsv : s.after (i + 1 + 1) = some v := by
      rw [after_succ_of_step h.step_eq]
      exact after_succ_last.mpr ⟨u, hu, hleave.step_eq⟩
    -- The state after that move is at the depth of `s`, so it is the first such state.
    have hlast : i + 1 = n := by
      rcases Nat.lt_or_ge (i + 1) n with hlt | hge
      · have := hret.first (i + 1 + 1) v (by omega) (by omega) hsv (Move.leave hleave).error_eq.2
        omega
      · omega
    subst hlast
    obtain rfl : v = t := by simpa using hv
    refine ⟨i, u, rfl, ?_, hleave⟩
    refine nested_of_after hu (Move.leave hleave).error_eq.1 (by omega) fun j w hj hw => ?_
    have := hbody j w hj hw
    omega
  · rintro ⟨m, u, rfl, hbody, hleave⟩
    have hout := hleave.callDepth_eq
    have hbodyDepth := hbody.callDepth_eq
    refine ⟨?_, (Move.leave hleave).error_eq.2, by omega, by omega, ?_⟩
    · rw [after_succ_of_step h.step_eq]
      exact after_succ_last.mpr ⟨u, hbody.after_eq, hleave.step_eq⟩
    · intro j w hj hjm hw _
      obtain ⟨j, rfl⟩ : ∃ k, j = k + 1 := ⟨j - 1, by omega⟩
      rw [after_succ_of_step h.step_eq] at hw
      have := hbody.le_callDepth (by omega) hw
      omega

/-! ## The call that a state is in -/

/-- **Above the depth at which a run starts, it is inside a call that it has made.** -/
theorem exists_entered (h : s.after n = some t) (herror : t.error = none) (hdepth : s.callDepth < t.callDepth) :
    ∃ i u entry c m, i < n ∧ s.after i = some u ∧ u.Calls entry c ∧ Nested m (u.enter entry c) t := by
  induction n using Nat.strongRecOn generalizing t with
  | ind n ih =>
    cases n with
    | zero =>
      cases h
      omega
    | succ n =>
      obtain ⟨t', ht', hstep⟩ := after_succ_last.mp h
      have hmove := move_of_step hstep herror
      have herror' := hmove.error_eq.1
      cases hmove with
      | within hwithin =>
        have hsame := hwithin.callDepth_eq
        obtain ⟨i, u, entry, c, m, hi, hu, hcalls, hnested⟩ := ih n (by omega) ht' herror' (by omega)
        exact ⟨i, u, entry, c, m + 1, by omega, hu, hcalls, hnested.trans (.within hwithin (.nil t))⟩
      | enter henter =>
        obtain ⟨entry, c, hcalls, rfl⟩ := henter
        exact ⟨n, t', entry, c, 0, by omega, ht', hcalls, .nil _⟩
      | leave hleave =>
        -- The call that returns was made inside another one, where `t` is again.
        have hout := hleave.callDepth_eq
        obtain ⟨i, u, entry, c, m, hi, hu, hcalls, hnested⟩ := ih n (by omega) ht' herror' (by omega)
        have hin := callDepth_enter u entry c
        have hbody := hnested.callDepth_eq
        obtain ⟨j, v, entry', d, k, hj, hv, hcalls', hnested'⟩ := ih i (by omega) hu hcalls.error (by omega)
        have hwhole : Nested (m + 0 + 2) u t := .call ⟨entry, c, hcalls, rfl⟩ hnested hleave (.nil t)
        exact ⟨j, v, entry', d, k + (m + 0 + 2), by omega, hv, hcalls', hnested'.trans hwhole⟩

end Stepwise.State
