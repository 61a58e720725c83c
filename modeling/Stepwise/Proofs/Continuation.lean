import Stepwise.Proofs.Execution

/-!
# Programs with the same beginning

The token stream is read from left to right, so what is executed there does not depend on what follows
(`Executes.withSource`). If a run comes to the place where a declaration begins (`Preamble`), then so does the run of
every program that begins with the same tokens; and from there it comes to a later place in the stream exactly when it
executes the tokens between (`Preamble.arrives_iff`).
-/

namespace Stepwise.State

open Code

variable {s t : State} {source : Source} {n : Nat}

/-! ## Another source -/

/-- The same state with another source. -/
def withSource (s : State) (source : Source) : State := { s with source }

theorem Rule.withSource {pc : Address} {tok : Token} (h : Rule s pc tok t)
    (hsource : ∀ index, s.current.pc = .stream index → s.source.tokens.take index <+: source.tokens) :
    Rule (s.withSource source) pc tok (t.withSource source) := by
  cases h with
  | type => exact .type
  | colon => exact .colon
  | openPi => exact .openPi
  | openLam => exact .openLam
  | closePi hstack hsort hframes hkind => exact .closePi hstack hsort hframes hkind
  | closeLam hstack hframes hkind => exact .closeLam hstack hframes hkind
  | extend htoken hstack hsort hframes hdecl => exact .extend htoken hstack hsort hframes hdecl
  | declare hstack hsort hframes => exact .declare hstack hsort hframes
  | @define v rest binders outer index hpc hstack hsort hframes hspan =>
    -- The declaration lies within what the sources share.
    have hshared := hsource index hpc
    have hlength : (s.source.tokens.take index).length = index := List.length_take_of_le hspan.2
    have hle : index ≤ source.tokens.length := hlength ▸ hshared.length_le
    have hdeclared : (s.withSource source).declared index binders v = s.declared index binders v := by
      have htake := List.prefix_iff_eq_take.mp hshared
      rw [hlength] at htake
      simp only [declared, State.withSource, htake]
    have hrule : Rule (s.withSource source) pc .dot _ := .define hpc hstack hsort hframes ⟨hspan.1, hle⟩
    rw [hdeclared] at hrule
    exact hrule
  | grab htoken hstack hsort hframes hmatch => exact .grab htoken hstack hsort hframes hmatch
  | captured hlookup => exact .captured hlookup
  | bound hlookup => exact .bound hlookup

/-- **What is executed in the stream does not depend on what follows there.** -/
theorem Executes.withSource {ts : List Token} (h : Executes ts s t) : ∀ {index : Nat}, s.current.pc = .stream index →
    s.source.tokens.take (index + ts.length) <+: source.tokens →
    Executes ts (s.withSource source) (t.withSource source) := by
  have hfetched {s : State} {index k : Nat} {tok : Token} (hpc : s.current.pc = .stream index)
      (hsource : s.source.tokens.take (index + (k + 1)) <+: source.tokens) (hfetch : s.fetch = some tok) :
      (s.withSource source).fetch = some tok := by
    simp only [fetch, State.withSource, hpc, tokenAt?] at hfetch ⊢
    have hlt := (List.getElem?_eq_some_iff.mp hfetch).1
    rw [← List.getElem?_take_of_lt (show index < index + (k + 1) by omega)] at hfetch
    obtain ⟨rest, hrest⟩ := hsource
    rw [← hrest, List.getElem?_append_left (by simp; omega), hfetch]
  induction h with
  | nil s =>
    intro _ _ _
    exact .nil _
  | @within tok ts s t u hfetch hfirst _ ih =>
    intro index hpc hsource
    have hfetch' := hfetched hpc hsource hfetch
    have hnext := next?_stream (hpc ▸ hfirst.next?_eq)
    have hrest := ih hnext (by rwa [(Move.within hfirst).grows.source, Nat.add_right_comm])
    refine .within hfetch' ?_ hrest
    cases hfirst with
    | name herror htok hreading hpc' heof =>
      obtain rfl := Option.some.inj (hfetch.symm.trans htok)
      exact .name herror hfetch' hreading hpc' heof
    | rule herror htok hreading hpc' hrule =>
      obtain rfl := Option.some.inj (hfetch.symm.trans htok)
      refine .rule herror hfetch' hreading hpc' (hrule.withSource fun i hi => ?_)
      obtain rfl : index = i := by simpa [hpc] using hi
      exact (List.take_prefix_take_left (by simp)).trans hsource
  | @call x ts s t u entry n c hfetch hcalls hreturns _ ih =>
    intro index hpc hsource
    have hfetch' := hfetched hpc hsource hfetch
    have hcalls' : (s.withSource source).Calls entry c := by
      obtain ⟨y, hy, hlookup⟩ := hcalls.names
      obtain rfl : y = x := by simpa [hfetch] using hy.symm
      exact ⟨hcalls.error, hcalls.reading, y, hfetch', hlookup⟩
    obtain ⟨m, vs, rest, b, v, pc, rfl, heval, hreturning, hstack, hpc', rfl⟩ := hcalls.returns_iff_eval.mp hreturns
    have hreturns' := hcalls'.returns_iff_eval.mpr ⟨m, vs, rest, b, v, pc, rfl, heval, hreturning, hstack, hpc', rfl⟩
    have hnext := next?_stream (hpc ▸ hpc')
    exact .call hfetch' hcalls' hreturns' (ih hnext (by rwa [Nat.add_right_comm]))

/-! ## Where a declaration begins -/

/-- The run of a source that begins with the tokens comes to their end without error, in the state `s₀`, and a
declaration begins there. -/
structure Preamble (beginning : List Token) (s₀ : State) : Prop where
  source : beginning <+: s₀.source.tokens
  reaches : ∃ n, (start s₀.source).after n = some s₀
  error : s₀.error = none
  pc : s₀.current.pc = .stream beginning.length
  first : s₀.current.program.first = beginning.length
  frames : s₀.frames = []

/-- The run of the source comes to the index of the token stream without error, in the state `t`. -/
structure Arrives (source : Source) (index : Nat) (t : State) : Prop where
  reaches : ∃ n, (start source).after n = some t
  error : t.error = none
  pc : t.current.pc = .stream index

/-- There is at most one such state. -/
theorem Arrives.eq {t' : State} {index : Nat} (h : Arrives source index t) (h' : Arrives source index t') : t = t' := by
  -- Between two states at the same place nothing is executed.
  have hsame {u u' : State} {k j : Nat} (hk : (start source).after k = some u) (hu : u.current.pc = .stream index)
      (hj : u.after j = some u') (hu' : u'.current.pc = .stream index) (herror : u'.error = none) : u = u' := by
    have hlevel : Levelled u.current.pc.inCode u.stack := levelled_of_after hk rfl
    rw [hu] at hlevel
    have hexecutes := (executes_of_after hlevel hu hu' hj herror).2
    rw [List.drop_take_self] at hexecutes
    cases hexecutes
    rfl
  obtain ⟨k, hk⟩ := h.reaches
  obtain ⟨k', hk'⟩ := h'.reaches
  rcases Nat.le_total k k' with hle | hle
  · obtain ⟨j, rfl⟩ := Nat.exists_eq_add_of_le hle
    rw [after_add, hk] at hk'
    exact hsame hk h.pc hk' h'.pc h'.error
  · obtain ⟨j, rfl⟩ := Nat.exists_eq_add_of_le hle
    rw [after_add, hk'] at hk
    exact (hsame hk' h'.pc hk h.pc h.error).symm

namespace Preamble

variable {beginning : List Token} {s₀ : State}

theorem level (h : Preamble beginning s₀) : Levelled false s₀.stack := by
  obtain ⟨n, hn⟩ := h.reaches
  have hlevel := levelled_of_after hn rfl
  rwa [h.pc] at hlevel

/-- So does the run of every other source that begins with the tokens. -/
theorem exists_after (h : Preamble beginning s₀) (hsource : beginning <+: source.tokens) :
    ∃ n, (start source).after n = some (s₀.withSource source) := by
  obtain ⟨n, hn⟩ := h.reaches
  have hstart : Levelled false (start s₀.source).stack := rfl
  have htake : (start s₀.source).source.tokens.take beginning.length = beginning :=
    (List.prefix_iff_eq_take.mp h.source).symm
  have hexecutes := (executes_of_after hstart rfl h.pc hn h.error).2
  rw [htake, List.drop_zero] at hexecutes
  exact (hexecutes.withSource rfl (by rwa [Nat.zero_add, htake])).exists_after

theorem opens (h : Preamble beginning s₀) : s₀.Opens := by
  -- Over a program that ends behind the tokens, the state is well placed.
  let source : Source := ⟨beginning ++ [.eof], []⟩
  have hsource : beginning <+: source.tokens := List.prefix_append _ _
  obtain ⟨n, hn⟩ := h.exists_after hsource
  have hplaced : (s₀.withSource source).WellPlaced :=
    after_induction (fun _ _ => WellPlaced.of_step) hn (wellPlaced_start List.getLast?_concat)
  rcases hplaced.current with hcurrent | ⟨_, _, _, _, hpc, _⟩
  · simp only [Placed, withSource, h.pc, h.first] at hcurrent
    obtain ⟨_, _, hreading, hname⟩ := hcurrent
    refine ⟨by rw [h.pc, h.first], h.level, h.frames, ?_, hname trivial⟩
    rw [hreading, List.drop_take_self]
    rfl
  · have hstream := h.pc.symm.trans hpc
    cases hstream

/-- **From the beginning of a declaration the run comes to a later place by executing the tokens up to there.** -/
theorem arrives_iff (h : Preamble beginning s₀) {ts : List Token} (hsource : beginning ++ ts <+: source.tokens)
    (hne : ts ≠ []) :
    Arrives source (beginning.length + ts.length) t ↔ Executes ts (s₀.withSource source) t := by
  obtain ⟨m, hm⟩ := h.exists_after ((List.prefix_append _ _).trans hsource)
  have hpc : (s₀.withSource source).current.pc = .stream beginning.length := h.pc
  have hlength := List.length_pos_iff.mpr hne
  constructor
  · rintro ⟨⟨k, hk⟩, herror, hindex⟩
    rcases Nat.lt_or_ge k m with hlt | hge
    · -- The stream is not read backwards.
      obtain ⟨j, rfl⟩ := Nat.exists_eq_add_of_lt hlt
      rw [Nat.add_assoc, after_add, hk] at hm
      have hlevel : Levelled t.current.pc.inCode t.stack := levelled_of_after hk rfl
      rw [hindex] at hlevel
      have hle := (executes_of_after hlevel hindex hpc hm h.error).1
      omega
    · obtain ⟨j, rfl⟩ := Nat.exists_eq_add_of_le hge
      rw [after_add, hm] at hk
      have hexecutes := (executes_of_after (s := s₀.withSource source) h.level hpc hindex hk herror).2
      obtain ⟨rest, hrest⟩ := hsource
      have htokens : (source.tokens.take (beginning.length + ts.length)).drop beginning.length = ts := by
        rw [← hrest, List.take_left' (by simp), List.drop_left' rfl]
      rwa [show (s₀.withSource source).source = source from rfl, htokens] at hexecutes
  · intro hexecutes
    obtain ⟨k, hk⟩ := hexecutes.exists_after
    exact ⟨⟨m + k, after_trans hm hk⟩, hexecutes.error_eq h.error, (hexecutes.tokens_eq hpc).2⟩

end Preamble

end Stepwise.State
