import Stepwise.Proofs.Contents
import Stepwise.Proofs.Continuation
import Stepwise.Proofs.History

/-!
# No lookahead

The machine reads the token stream at the index of its outermost control and nowhere behind it: an instruction is
fetched there, and a dot compiles tokens before it. Exchanging the source for one that agrees with it so far
(`Agrees`) therefore commutes with every operation, whether it succeeds or fails, and hence with a step
(`Agrees.step_eq`) and with a run (`after_withSource`).
-/

namespace Stepwise.State

variable {s t : State} {source : Source} {n k index : Nat}

/-! ## Operations on another source -/

/-- The result of an operation, over another source. -/
def Effect.withSource (source : Source) : Effect → Effect
  | next s => .next (s.withSource source)
  | jump s => .jump (s.withSource source)
  | halt => .halt

/-- If both parts of an operation can be carried over, so can the whole. -/
theorem bind_map {α α' β β' : Type} {first : Except Failure α} {f : α → α'} {second : α' → Except Failure β'}
    {second' : α → Except Failure β} {g : β → β'} (h : ∀ a, second (f a) = (second' a).map g) :
    first.map f >>= second = (first >>= second').map g := by
  cases first with
  | error e => rfl
  | ok a => exact h a

theorem takeValue_withSource (s : State) (during : Token) :
    (s.withSource source).takeValue during = (s.takeValue during).map fun p => (p.1, p.2.withSource source) := by
  unfold takeValue withSource
  dsimp only
  split <;> rfl

theorem takeControl_withSource (s : State) (during : Token) :
    (s.withSource source).takeControl during = (s.takeControl during).map fun p => (p.1, p.2.withSource source) := by
  unfold takeControl withSource
  dsimp only
  split <;> rfl

theorem takeScope_withSource (s : State) (kind : ScopeKind) (during : Token) :
    (s.withSource source).takeScope kind during =
      (s.takeScope kind during).map fun p => (p.1, p.2.withSource source) := by
  unfold takeScope withSource
  dsimp only
  split
  · rfl
  · split <;> rfl
  · rfl

theorem takeCall_withSource (s : State) (during : Token) :
    (s.withSource source).takeCall during = (s.takeCall during).map fun p => (p.1, p.2.withSource source) := by
  unfold takeCall withSource
  dsimp only
  split <;> rfl

theorem takeType_withSource (s : State) (during : Token) :
    (s.withSource source).takeType during = (s.takeType during).map fun p => (p.1, p.2.withSource source) := by
  unfold takeType
  rw [takeValue_withSource]
  refine bind_map fun ⟨v, u⟩ => ?_
  dsimp only
  split <;> rfl

theorem closePi_withSource (s : State) :
    (s.withSource source).closePi = s.closePi.map (·.withSource source) := by
  unfold closePi
  rw [takeType_withSource]
  refine bind_map fun ⟨body, u⟩ => ?_
  dsimp only
  rw [takeScope_withSource]
  exact bind_map fun _ => rfl

theorem closeLam_withSource (s : State) :
    (s.withSource source).closeLam = s.closeLam.map (·.withSource source) := by
  unfold closeLam
  rw [takeValue_withSource]
  refine bind_map fun ⟨body, u⟩ => ?_
  dsimp only
  rw [takeScope_withSource]
  exact bind_map fun _ => rfl

theorem extend_withSource (s : State) (sc : Scope) (outer : List Frame) (during : Token) :
    (s.withSource source).extend sc outer during = (s.extend sc outer during).map (·.withSource source) := by
  unfold extend
  rw [takeType_withSource]
  exact bind_map fun _ => rfl

theorem grab_withSource (s : State) (during : Token) :
    (s.withSource source).grab during = (s.grab during).map (·.withSource source) := by
  unfold grab
  rw [show (s.withSource source).frames = s.frames from rfl]
  split
  · rfl
  · rfl
  · rw [takeType_withSource]
    refine bind_map fun ⟨parameter, u⟩ => ?_
    dsimp only
    rw [takeControl_withSource]
    refine bind_map fun ⟨caller, u⟩ => ?_
    dsimp only
    rw [takeValue_withSource]
    refine bind_map fun ⟨argument, u⟩ => ?_
    dsimp only
    split <;> rfl

theorem leave_withSource (s : State) : (s.withSource source).leave = s.leave.map (·.withSource source) := by
  unfold leave
  rw [takeType_withSource]
  refine bind_map fun ⟨result, u⟩ => ?_
  dsimp only
  rw [takeCall_withSource]
  refine bind_map fun ⟨call, u⟩ => ?_
  dsimp only
  rw [takeControl_withSource]
  exact bind_map fun _ => rfl

/-! ## What the machine reads -/

/-- The other source agrees with that of the state up to the index that the state is at, if it is in the stream. -/
def Agrees (s : State) (source : Source) : Prop :=
  ∀ index, s.current.pc = .stream index → s.source.tokens.take (index + 1) = source.tokens.take (index + 1)

theorem Agrees.take_eq (h : s.Agrees source) (hpc : s.current.pc = .stream index) :
    source.tokens.take index = s.source.tokens.take index := by
  have htake := congrArg (List.take index) (h index hpc)
  rw [List.take_take, List.take_take, Nat.min_eq_left (Nat.le_succ index)] at htake
  exact htake.symm

theorem Agrees.getElem?_eq (h : s.Agrees source) (hpc : s.current.pc = .stream index) :
    source.tokens[index]? = s.source.tokens[index]? := by
  rw [← List.getElem?_take_of_lt (Nat.lt_succ_self index), ← h index hpc,
    List.getElem?_take_of_lt (Nat.lt_succ_self index)]

theorem Agrees.le_length_iff (h : s.Agrees source) (hpc : s.current.pc = .stream index) :
    index ≤ source.tokens.length ↔ index ≤ s.source.tokens.length := by
  have hlength := congrArg List.length (h index hpc)
  rw [List.length_take, List.length_take] at hlength
  omega

theorem Agrees.fetch_eq (h : s.Agrees source) : (s.withSource source).fetch = s.fetch := by
  unfold fetch tokenAt?
  rw [show (s.withSource source).current.pc = s.current.pc from rfl]
  split
  · rename_i index hpc
    exact h.getElem?_eq hpc
  · rfl

/-- The tokens that a dot compiles stand before it. -/
theorem Agrees.define_eq (h : s.Agrees source) (binders : List (Option Name × Expr)) (outer : List Frame) :
    (s.withSource source).define binders outer = (s.define binders outer).map (·.withSource source) := by
  unfold define
  rw [show (s.withSource source).current.pc = s.current.pc from rfl]
  split
  · rfl
  · rename_i index hpc
    rw [takeType_withSource]
    cases htake : s.takeType .dot with
    | error e => rfl
    | ok p =>
      obtain ⟨v, u⟩ := p
      obtain ⟨rest, hstack, rfl⟩ := takeValue_eq_ok.mp (takeType_eq_ok.mp htake).1
      have hiff : s.current.program.first ≤ index ∧ index ≤ source.tokens.length ↔
          s.current.program.first ≤ index ∧ index ≤ s.source.tokens.length :=
        and_congr_right fun _ => h.le_length_iff hpc
      by_cases hspan : s.current.program.first ≤ index ∧ index ≤ s.source.tokens.length
      · simp only [Except.map, bind, Except.bind, withSource, takeName, hspan, hiff.mpr hspan, and_self, if_true,
          h.take_eq hpc]
      · simp only [Except.map, bind, Except.bind, withSource, takeName, hspan, mt hiff.mp hspan, if_false]

theorem Agrees.bindTop_eq (h : s.Agrees source) (during : Token) :
    (s.withSource source).bindTop during = (s.bindTop during).map (·.withSource source) := by
  unfold bindTop
  rw [show (s.withSource source).frames = s.frames from rfl]
  split
  · exact grab_withSource s during
  · split
    · exact h.define_eq _ _
    · exact extend_withSource s _ _ during
  · split
    · exact h.define_eq _ _
    · exact extend_withSource s _ _ during

/-- An operation that goes on to the next instruction carries over if its state does. -/
theorem map_next_withSource {x y : Except Failure State} (h : y = x.map (·.withSource source)) :
    y.map Effect.next = (x.map Effect.next).map (Effect.withSource source) := by
  subst h
  cases x <;> rfl

theorem mention_withSource (s : State) (name : Name) :
    (s.withSource source).mention name = (s.mention name).map (Effect.withSource source) := by
  unfold mention
  rw [show (s.withSource source).lookup name = s.lookup name from rfl]
  split <;> rfl

theorem Agrees.effect_eq (h : s.Agrees source) (tok : Token) :
    (s.withSource source).effect tok = (s.effect tok).map (Effect.withSource source) := by
  unfold effect
  rw [show (s.withSource source).current.readingName = s.current.readingName from rfl]
  split
  · refine map_next_withSource ?_
    unfold acceptName
    split <;> rfl
  · cases tok with
    | type | colon | lparen | lbrack | eof => rfl
    | rparen => exact map_next_withSource (closePi_withSource s)
    | rbrack => exact map_next_withSource (closeLam_withSource s)
    | arrow => exact map_next_withSource (h.bindTop_eq .arrow)
    | dot => exact map_next_withSource (h.bindTop_eq .dot)
    | grab => exact map_next_withSource (grab_withSource s .grab)
    | ret => exact map_next_withSource (leave_withSource s)
    | id name => exact mention_withSource s name

theorem advance_withSource (s : State) : (s.withSource source).advance = s.advance.map (·.withSource source) := by
  unfold advance
  rw [show (s.withSource source).current.pc = s.current.pc from rfl]
  split <;> rfl

theorem Agrees.exec_eq (h : s.Agrees source) (tok : Token) :
    (s.withSource source).exec tok = (s.exec tok).map (Option.map (·.withSource source)) := by
  unfold exec
  rw [h.effect_eq]
  refine bind_map fun effect => ?_
  cases effect with
  | next u =>
    simp only [Effect.withSource, advance_withSource]
    cases u.advance <;> rfl
  | jump u => rfl
  | halt => rfl

/-- **A step depends on the source only up to the index that the state is at.** -/
theorem Agrees.step_eq (h : s.Agrees source) :
    (s.withSource source).step = s.step.map (Option.map (·.withSource source)) := by
  unfold step
  rw [show (s.withSource source).error = s.error from rfl, h.fetch_eq]
  split
  · rfl
  · split
    · rfl
    · rename_i tok _
      rw [h.exec_eq]
      cases s.exec tok with
      | ok next => rfl
      | error failure => cases failure <;> rfl

/-! ## Runs -/

/-- Before index `n` two sources agree that have the first `n` tokens in common. -/
theorem agrees_of_take_eq (hlevel : Levelled s.current.pc.inCode s.stack)
    (hshared : s.source.tokens.take n = source.tokens.take n)
    (hbefore : ∀ index, s.outermost.pc = .stream index → index < n) : s.Agrees source := by
  intro index hpc
  have hlt := hbefore index (by rw [outermost_of_stream hlevel hpc, hpc])
  have htake := congrArg (List.take (index + 1)) hshared
  rwa [List.take_take, List.take_take, Nat.min_eq_left hlt] at htake

/-- **A run depends on the source only up to the indices that its states are at.** -/
theorem after_withSource (hlevel : Levelled s.current.pc.inCode s.stack)
    (hshared : s.source.tokens.take n = source.tokens.take n)
    (hbefore : ∀ j < k, ∀ t, s.after j = some t → ∀ index, t.outermost.pc = .stream index → index < n) :
    (s.withSource source).after k = (s.after k).map (·.withSource source) := by
  induction k generalizing s with
  | zero => rfl
  | succ k ih =>
    have hstep := (agrees_of_take_eq hlevel hshared (hbefore 0 (Nat.succ_pos k) s rfl)).step_eq
    cases hnext : s.step with
    | error f => simp [after, hstep, hnext, Except.map]
    | ok next =>
      cases next with
      | none => simp [after, hstep, hnext, Except.map]
      | some t =>
        rw [hnext] at hstep
        rw [after_succ_of_step hnext, after_succ_of_step hstep]
        have hone : s.after 1 = some t := by rw [after_succ_of_step hnext, after_zero]
        refine ih (levelled_of_after hone hlevel) ((grows_of_step hnext).source ▸ hshared) fun j hj u hu => ?_
        exact hbefore (j + 1) (by omega) u (by rwa [after_succ_of_step hnext])

/-! ## Texts with the same beginning -/

/-- The outermost control is at a token of the stream: the instruction to be executed next, or the identifier that made
the outermost call. -/
theorem WellPlaced.exists_outermost_token (hs : s.WellPlaced) (hpc : s.outermost.pc = .stream index) :
    ∃ tok, s.source.tokens[index]? = some tok ∧ (s.current.pc = .stream index ∨ ∃ name, tok = .id name) := by
  unfold outermost at hpc
  cases hsaved : s.savedControls.head? with
  | none =>
    rw [hsaved] at hpc
    rcases hs.current with hplaced | ⟨_, _, _, _, hcode, _⟩
    · obtain ⟨tok, htok⟩ := hplaced.exists_token
      rw [show s.current.pc = .stream index from hpc] at htok
      exact ⟨tok, htok, .inl hpc⟩
    · rw [show s.current.pc = .stream index from hpc] at hcode
      cases hcode
  | some caller =>
    rw [hsaved] at hpc
    have hmem := List.mem_of_mem_head? hsaved
    rw [savedControls, List.mem_reverse, List.mem_filterMap] at hmem
    obtain ⟨slot, hslot, hcontrol⟩ := hmem
    cases slot with
    | value v => cases hcontrol
    | saved k =>
      obtain rfl := Option.some.inj hcontrol
      obtain ⟨_, _, name, htok⟩ := hs.saved k hslot
      rw [show k.pc = .stream index from hpc] at htok
      exact ⟨.id name, htok, .inr ⟨name, rfl⟩⟩

/-- At the end of the stream no step is left but the one that reports a missing name. -/
theorem WellPlaced.succ_lt_of_step (hs : s.WellPlaced) (h : s.step = .ok (some t))
    (hname : t.error ≠ some StepError.missingName.message) (hpc : s.outermost.pc = .stream index) :
    index + 1 < s.source.tokens.length := by
  obtain ⟨tok, htok, hat⟩ := hs.exists_outermost_token hpc
  refine lt_length_of_ne_eof hs.ends htok ?_
  rintro rfl
  rcases hat with hcurrent | ⟨name, hid⟩
  · have hfetch : s.fetch = some .eof := by rw [fetch, hcurrent]; exact htok
    have herror := error_eq_none_of_step h
    cases hreading : s.current.readingName with
    | false => simp [step, herror, hfetch, exec, effect, hreading, bind, Except.bind] at h
    | true =>
      simp only [step, herror, hfetch, exec, effect, hreading, acceptName, bind, Except.bind, Except.map,
        Option.isSome_none, Bool.false_eq_true, if_false, if_true, Except.ok.injEq, Option.some.injEq] at h
      exact hname (by rw [← h]; rfl)
  · cases hid

/-- A state with an error is the last one, so a state before one without that error does not carry it either. -/
theorem error_ne_of_after {e : String} (h : s.after n = some t) (ht : t.error ≠ some e) : s.error ≠ some e := by
  cases n with
  | zero =>
    cases h
    exact ht
  | succ n =>
    obtain ⟨_, hstep, _⟩ := after_succ.mp h
    simp [error_eq_none_of_step hstep]

/-- **The machine does not look ahead.** If the runs of two texts have their first `n` tokens in common, then so long as
the outermost control of the one is before `n`, the other one goes through the same states, but for the source that they
carry. So another layout of the same tokens changes nothing, and lines added to a text change at most the step that
reports a missing name at its end. -/
theorem no_lookahead (text text' : String) :
    (∀ n k, (Source.ofText text).tokens.take n = (Source.ofText text').tokens.take n →
      (∀ j < k, ∀ s, (ofText text).after j = some s → ∀ index, s.outermost.pc = .stream index → index < n) →
      (ofText text').after k = ((ofText text).after k).map (·.withSource (Source.ofText text'))) ∧
    ((Source.ofText text).tokens = (Source.ofText text').tokens →
      ∀ k, (ofText text').after k = ((ofText text).after k).map (·.withSource (Source.ofText text'))) ∧
    ∀ more, text' = text ++ "\n" ++ more → ∀ k s, (ofText text).after k = some s →
      s.error ≠ some StepError.missingName.message →
      (ofText text').after k = some (s.withSource (Source.ofText text')) := by
  have hrun (n k : Nat) (hshared : (Source.ofText text).tokens.take n = (Source.ofText text').tokens.take n)
      (hbefore : ∀ j < k, ∀ s, (ofText text).after j = some s → ∀ index, s.outermost.pc = .stream index → index < n) :
      (ofText text').after k = ((ofText text).after k).map (·.withSource (Source.ofText text')) :=
    after_withSource (s := ofText text) rfl hshared hbefore
  refine ⟨hrun, ?_, ?_⟩
  · intro htokens k
    refine hrun (Source.ofText text).tokens.length k (by rw [htokens]) fun j _ s hs index hpc => ?_
    have hreachable : Reachable text s := ⟨j, hs⟩
    obtain ⟨tok, htok, _⟩ := hreachable.wellPlaced.exists_outermost_token hpc
    rw [hreachable.source_eq] at htok
    exact (List.getElem?_eq_some_iff.mp htok).1
  · rintro more rfl k s hs hname
    have hshared : (Source.ofText text).tokens.take ((Source.ofText text).tokens.length - 1) =
        (Source.ofText (text ++ "\n" ++ more)).tokens.take ((Source.ofText text).tokens.length - 1) := by
      rw [← List.length_dropLast, ← List.prefix_iff_eq_take.mp (Source.dropLast_tokens_prefix text more),
        List.length_dropLast, List.dropLast_eq_take]
    rw [hrun _ k hshared, hs, Option.map_some]
    intro j hj t ht index hpc
    obtain ⟨m, rfl⟩ := Nat.exists_eq_add_of_lt hj
    rw [Nat.add_assoc, after_add, ht] at hs
    obtain ⟨u, hstep, hu⟩ := after_succ.mp hs
    have hreachable : Reachable text t := ⟨j, ht⟩
    have hlt := hreachable.wellPlaced.succ_lt_of_step hstep (error_ne_of_after hu hname) hpc
    rw [hreachable.source_eq] at hlt
    omega

/-- The second text goes on differently after five tokens, on other lines. The fifth one calls `o`, and the seventh step
returns from there. -/
theorem no_lookahead_over_call : ∃ s, (ofText "type : o . o : k . k").after 7 = some s ∧ s.current.pc = .stream 5 ∧
    s.signature.length = 1 ∧ (ofText "type\n: o .\no -> type : f .").after 7 =
      some (s.withSource (Source.ofText "type\n: o .\no -> type : f .")) := by
  let run := (ofText "type : o . o : k . k").after
  let s := (run 7).getD default
  obtain ⟨hs, hpc, hsignature, hshared, hbefore⟩ :
      run 7 = some s ∧ s.current.pc = .stream 5 ∧ s.signature.length = 1 ∧
      (Source.ofText "type : o . o : k . k").tokens.take 5 =
        (Source.ofText "type\n: o .\no -> type : f .").tokens.take 5 ∧
      ∀ j < 7, ∀ t ∈ run j, ∀ index ∈ t.outermost.pc.streamIndex?, index < 5 := by decide +kernel
  refine ⟨s, hs, hpc, hsignature, ?_⟩
  rw [(no_lookahead _ _).1 5 7 hshared fun j hj t ht index hindex => hbefore j hj t ht index (by rw [hindex]; rfl)]
  exact congrArg (Option.map _) hs

end Stepwise.State
