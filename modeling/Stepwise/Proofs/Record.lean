import Stepwise.Proofs.History

/-!
# The runs that declared the constants

Every constant of a reachable state was declared by the run (`DeclaredBetween`): from the place where its declaration
begins the run executed the tokens of the declaration, while only the constants before it existed, and came to the dot
that declares it. `Recorded` is the invariant, and `Reachable.recorded` says that it holds throughout a run.
-/

namespace Stepwise.State

variable {s t : State} {text : String}

/-- From `s₀`, where a declaration begins, to its dot at `w` the run executes the tokens of the declaration, with the
constants `before` in the signature; the dot declares `c`. -/
structure DeclaredBetween (text : String) (before : Signature) (declaration : List Token) (c : Constant)
    (s₀ w : State) : Prop where
  reachable : Reachable text s₀
  opens : s₀.Opens
  executes : Executes declaration s₀ w
  signature : w.signature = s₀.signature
  before : s₀.signature = before
  declaring : w.Declaring c

/-- What the steps keep: the declaration being read began with the signature as it is, and each constant was declared by
a run of its declaration over the constants before it. -/
structure Recorded (text : String) (s : State) : Prop where
  opened : ∃ (s₀ : State) (m : Nat), Reachable text s₀ ∧ s₀.Opens ∧ s₀.after m = some s ∧ s₀.signature = s.signature
  declared : ∀ (i : Nat) (c : Constant), s.signature[i]? = some c →
    ∃ s₀ w, DeclaredBetween text (s.signature.take i) (s.declaration c) c s₀ w

/-- Behind the dot of a declaration the next one begins. -/
theorem opens_of_define (hs : s.Disciplined) (hlevel : Levelled s.current.pc.inCode s.stack)
    (h : s.step = .ok (some t)) (hne : t.signature ≠ s.signature) : t.Opens := by
  obtain ⟨_, hreading, index, binders, outer, v, rest, pc, hpc, hframes, hstack, hnext, rfl⟩ := define_of_step h hne
  rw [hpc] at hnext hlevel
  rw [hstack] at hlevel
  exact ⟨next?_stream hnext, hlevel, (hs.outer_eq_nil hframes).1, hreading, rfl⟩

theorem Recorded.of_step (hs : s.Recorded text) (hreachable : Reachable text s) (h : s.step = .ok (some t)) :
    t.Recorded text := by
  have hgrows := grows_of_step h
  obtain ⟨s₀, m, hstart, hopens, hrun, hsignature⟩ := hs.opened
  by_cases hsame : t.signature = s.signature
  · refine ⟨⟨s₀, m + 1, hstart, hopens, after_succ_last.mpr ⟨s, hrun, h⟩, hsignature.trans hsame.symm⟩, ?_⟩
    intro i c hc
    rw [hsame] at hc ⊢
    rw [hgrows.declaration_eq]
    exact hs.declared i c hc
  · have hlevel : Levelled s.current.pc.inCode s.stack :=
      levelled_of_after hrun (by rw [hopens.pc]; exact hopens.level)
    refine ⟨⟨t, 0, hreachable.of_step h, opens_of_define hreachable.disciplined hlevel h hsame, rfl, rfl⟩, ?_⟩
    obtain ⟨herror, hreading, index, binders, outer, v, rest, pc, hpc, hframes, hstack, _, rfl⟩ :=
      define_of_step h hsame
    intro i c hc
    rw [hgrows.declaration_eq]
    rcases Nat.lt_or_ge i s.signature.length with hlt | hge
    · rw [List.getElem?_append_left hlt] at hc
      rw [List.take_append_of_le_length (Nat.le_of_lt hlt)]
      exact hs.declared i c hc
    · -- The new constant: its declaration was executed since `s₀`.
      rw [List.getElem?_append_right hge, List.getElem?_singleton] at hc
      split at hc
      case isFalse => cases hc
      cases hc
      obtain rfl : i = s.signature.length := by omega
      obtain ⟨_, hexecutes⟩ := executes_of_after hopens.level hopens.pc hpc hrun herror
      have hprogram := hexecutes.program_eq hsignature.symm
      refine ⟨s₀, s, hstart, hopens, ?_, hsignature.symm, by rw [List.take_left']; exacts [hsignature, rfl],
        herror, hreading, index, binders, outer, v, rest, hpc, hframes, hstack, rfl⟩
      rw [declaration, State.declared, (grows_of_after hrun).source, hprogram]
      exact hexecutes

theorem opens_ofText (text : String) : (ofText text).Opens := ⟨rfl, rfl, rfl, rfl, rfl⟩

/-- **Every constant was declared by a run over the constants before it.** -/
theorem Reachable.recorded (h : Reachable text s) : s.Recorded text := by
  refine h.induction_reachable ?_ fun _ _ hreachable hs hstep => hs.of_step hreachable hstep
  exact ⟨⟨_, 0, ⟨0, rfl⟩, opens_ofText text, rfl, rfl⟩, fun i c hc => by simp [ofText, start] at hc⟩

theorem Reachable.exists_declared (h : Reachable text s) {c : Constant} (hc : c ∈ s.signature) :
    ∃ before s₀ w, DeclaredBetween text before (s.declaration c) c s₀ w := by
  obtain ⟨i, hi⟩ := List.getElem?_of_mem hc
  exact ⟨_, h.recorded.declared i c hi⟩

/-! ## The tokens of a declaration -/

/-- The end of the program is never executed. -/
theorem Executes.eof_not_mem {ts : List Token} {u : State} (h : Executes ts s u) : .eof ∉ ts := by
  induction h with
  | nil s => simp
  | within hfetch hfirst _ ih =>
    refine List.not_mem_cons_of_ne_of_not_mem (Ne.symm ?_) ih
    cases hfirst with
    | name _ htok _ _ heof =>
      obtain rfl := Option.some.inj (hfetch.symm.trans htok)
      exact heof
    | rule _ htok _ _ hrule =>
      obtain rfl := Option.some.inj (hfetch.symm.trans htok)
      exact hrule.token_ne.1
  | call _ _ _ _ ih => exact List.not_mem_cons_of_ne_of_not_mem (by simp) ih

end Stepwise.State
