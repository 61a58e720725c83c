import Stepwise.Proofs.Declaration
import Stepwise.Proofs.Refusal
import Stepwise.Proofs.Run

/-!
# Where the program counter can be

Every control of a reachable state, the current one and the saved ones, is placed: its address has an instruction, and
whether it reads a name is determined by the tokens before that instruction (`Placed`). There is one exception, for the
current control (`RanOff`): the code of a constant whose declaration cuts a name off (`Code.CutsName`) takes its own
`ret` for the missing name, and execution goes on behind the end of the code. `Reachable.wellPlaced` is the invariant,
and `fetch_eq_none_iff_ranOff` says that there is no other way to be without an instruction.
-/

namespace Stepwise.State

open Code

variable {s t : State} {text : String}

/-- The tokens of the declaration of a constant, up to its dot. -/
def declaration (s : State) (c : Constant) : List Token := (s.source.tokens.take c.program.last).drop c.program.first

/-- The control addresses an instruction, and reads a name when the tokens before say so: those since the beginning of
the declaration, or since the beginning of the code. -/
def Placed (s : State) (k : Control) : Prop :=
  match k.pc with
  | .stream index =>
    index < s.source.tokens.length ∧ k.program.first ≤ index ∧
      k.readingName = readsAfter false ((s.source.tokens.take index).drop k.program.first) ∧
      (index = k.program.first → k.name = none)
  | .code entry offset =>
    ∃ c, s.signature[entry]? = some c ∧ offset < c.code.length ∧ k.readingName = readsAfter false (c.code.take offset)

/-- Execution is behind the end of the code of a constant, which took its `ret` for a name that its declaration has and
its code lacks. -/
def RanOff (s : State) : Prop :=
  ∃ entry c, s.signature[entry]? = some c ∧ CutsName (s.declaration c) ∧ s.current.pc = .code entry c.code.length ∧
    s.current.name = some Token.ret.text ∧ s.current.readingName = false

/-- The control was saved by an identifier. -/
def Waiting (s : State) (k : Control) : Prop :=
  s.Placed k ∧ k.readingName = false ∧ ∃ name, s.tokenAt? k.pc = some (.id name)

/-- What every state of a run satisfies. -/
structure WellPlaced (s : State) : Prop where
  ends : s.source.tokens.getLast? = some .eof
  codes : ∀ c ∈ s.signature, c.code = ofDeclaration (s.declaration c) ∧ readsAfter false (s.declaration c) = false
  current : s.Placed s.current ∨ s.RanOff
  saved : ∀ k, .saved k ∈ s.stack → s.Waiting k

/-! ## Fetching -/

theorem Placed.exists_token {k : Control} (h : s.Placed k) : ∃ tok, s.tokenAt? k.pc = some tok := by
  unfold Placed at h
  split at h
  · rename_i index hpc
    exact ⟨_, by rw [hpc]; exact List.getElem?_eq_getElem h.1⟩
  · rename_i entry offset hpc
    obtain ⟨c, hc, hlt, _⟩ := h
    exact ⟨c.code.get ⟨offset, hlt⟩, by simp [hpc, tokenAt?, hc, hlt]⟩

theorem RanOff.fetch_eq (h : s.RanOff) : s.fetch = none := by
  obtain ⟨entry, c, hc, _, hpc, _⟩ := h
  simp [fetch, hpc, tokenAt?, hc]

/-! ## Later states -/

/-- The signature only grows, and the source stays. -/
structure Grows (s t : State) : Prop where
  source : t.source = s.source
  signature : s.signature <+: t.signature

/-- A constant stays at its index when the signature grows. -/
theorem getElem?_of_prefix {earlier later : Signature} (h : earlier <+: later) {entry : Nat} {c : Constant}
    (hc : earlier[entry]? = some c) : later[entry]? = some c := by
  obtain ⟨hlt, rfl⟩ := List.getElem?_eq_some_iff.mp hc
  exact List.prefix_iff_getElem?.mp h entry hlt

theorem Grows.getElem? (h : Grows s t) {entry : Nat} {c : Constant} (hc : s.signature[entry]? = some c) :
    t.signature[entry]? = some c := getElem?_of_prefix h.signature hc

theorem Grows.tokenAt? (h : Grows s t) {pc : Address} {tok : Token} (htok : s.tokenAt? pc = some tok) :
    t.tokenAt? pc = some tok := by
  unfold State.tokenAt? at *
  cases pc with
  | stream index => rwa [h.source]
  | code entry offset =>
    obtain ⟨c, hc, hcode⟩ := Option.bind_eq_some_iff.mp htok
    exact Option.bind_eq_some_iff.mpr ⟨c, h.getElem? hc, hcode⟩

theorem Grows.placed (h : Grows s t) {k : Control} (hk : s.Placed k) : t.Placed k := by
  unfold Placed at *
  cases hpc : k.pc with
  | stream index => simpa only [hpc, h.source] using hk
  | code entry offset =>
    simp only [hpc] at hk
    obtain ⟨c, hc, hlt, hreading⟩ := hk
    exact ⟨c, h.getElem? hc, hlt, hreading⟩

theorem Grows.waiting (h : Grows s t) {k : Control} (hk : s.Waiting k) : t.Waiting k := by
  obtain ⟨hplaced, hreading, name, htok⟩ := hk
  exact ⟨h.placed hplaced, hreading, name, h.tokenAt? htok⟩

theorem Rule.grows {pc : Address} {tok : Token} (h : Rule s pc tok t) : Grows s t := by
  cases h <;> exact ⟨rfl, by simp⟩

theorem Move.grows (h : Move s t) : Grows s t := by
  cases h with
  | within h =>
    cases h with
    | name => exact ⟨rfl, List.prefix_rfl⟩
    | rule _ _ _ _ hrule => exact hrule.grows
  | enter h =>
    obtain ⟨entry, c, _, rfl⟩ := h
    exact ⟨rfl, List.prefix_rfl⟩
  | leave h =>
    cases h with
    | intro => exact ⟨rfl, List.prefix_rfl⟩

/-! ## One instruction on -/

theorem next?_stream {index : Nat} {pc : Address} (h : (Address.stream index).next? = some pc) :
    pc = .stream (index + 1) := by
  unfold Address.next? at h
  split at h
  · exact (Option.some.inj h).symm
  · cases h

/-- An instruction that is not the last token has one after it. -/
theorem lt_length_of_ne_eof {index : Nat} {tok : Token} (hends : s.source.tokens.getLast? = some .eof)
    (htok : s.source.tokens[index]? = some tok) (heof : tok ≠ .eof) : index + 1 < s.source.tokens.length := by
  obtain ⟨hlt, rfl⟩ := List.getElem?_eq_some_iff.mp htok
  rcases Nat.lt_or_ge (index + 1) s.source.tokens.length with h | h
  · exact h
  · rw [List.getLast?_eq_getElem?, show s.source.tokens.length - 1 = index by omega, htok] at hends
    exact absurd (Option.some.inj hends) heof

/-- The last instruction of the code of a constant is `ret`, and whether it is read as a name is decided by
what the code keeps of the declaration. -/
theorem WellPlaced.last_token (hs : s.WellPlaced) {c : Constant} (hc : c ∈ s.signature) {offset : Nat}
    (hlast : offset + 1 = c.code.length) : c.code[offset]? = some .ret ∧
      readsAfter false (c.code.take offset) = readsAfter false (body (s.declaration c)) := by
  rw [(hs.codes c hc).1, ofDeclaration] at hlast ⊢
  rw [List.length_append, List.length_singleton, Nat.add_right_cancel_iff] at hlast
  subst hlast
  simp [readsAfter_grabParameters]

/-- The control behind an instruction that is not the end of the program is placed again, or it is behind the end of a
code whose `ret` was read as a name. -/
theorem WellPlaced.next (hs : s.WellPlaced) {k : Control} (k' : Control) {tok : Token} {pc : Address} (hk : s.Placed k)
    (htok : s.tokenAt? k.pc = some tok) (heof : tok ≠ .eof) (hret : tok = .ret → k.readingName = true)
    (hpc : k.pc.next? = some pc) (hpc' : k'.pc = pc) (hprogram : k'.program = k.program)
    (hreading : k'.readingName = (!k.readingName && decide (tok = .colon))) :
    s.Placed k' ∨ tok = .ret ∧ ∃ entry c, s.signature[entry]? = some c ∧ CutsName (s.declaration c) ∧
      k'.pc = .code entry c.code.length := by
  unfold Address.next? at hpc
  split at hpc
  case isFalse => cases hpc
  unfold Placed at hk ⊢
  cases hkpc : k.pc with
  | stream index =>
    simp only [hkpc] at hk hpc htok
    obtain rfl := Option.some.inj hpc
    obtain ⟨hlt, hfirst, hk, _⟩ := hk
    left
    rw [hpc', hprogram]
    refine ⟨lt_length_of_ne_eof hs.ends htok heof, by omega, ?_, fun h => by omega⟩
    rw [hreading, hk, ← readsAfter_concat, List.take_add_one, show s.source.tokens[index]? = some tok from htok,
      List.drop_append_of_le_length (by simp; omega)]
    rfl
  | code entry offset =>
    simp only [hkpc] at hk hpc htok
    obtain rfl := Option.some.inj hpc
    obtain ⟨c, hc, hlt, hk⟩ := hk
    have hcode : c.code[offset]? = some tok := by simpa [tokenAt?, hc] using htok
    rcases Nat.lt_or_eq_of_le (Nat.succ_le_of_lt hlt) with hmore | hlast
    · left
      rw [hpc']
      refine ⟨c, hc, hmore, ?_⟩
      rw [hreading, hk, ← readsAfter_concat, List.take_add_one, hcode]
      rfl
    · right
      obtain ⟨hlastToken, hbody⟩ := hs.last_token (List.mem_of_getElem? hc) hlast
      obtain rfl := Option.some.inj (hcode.symm.trans hlastToken)
      have hcuts : readsAfter false (body (s.declaration c)) = true := by rw [← hbody, ← hk, hret rfl]
      exact ⟨rfl, entry, c, hc, ⟨(hs.codes c (List.mem_of_getElem? hc)).2, hcuts⟩, by rw [hpc', ← hlast]⟩

/-! ## Every step keeps the placement -/

theorem Rule.token_ne {pc : Address} {tok : Token} (h : Rule s pc tok t) : tok ≠ .eof ∧ tok ≠ .ret := by
  cases h with
  | extend htoken => rcases htoken with rfl | rfl <;> simp
  | grab htoken => rcases htoken with rfl | rfl | rfl <;> simp
  | _ => simp

theorem Rule.saved_mem {pc : Address} {tok : Token} (h : Rule s pc tok t) {k : Control} (hk : .saved k ∈ t.stack) :
    .saved k ∈ s.stack := by
  cases h <;> simp_all

/-- Within a declaration, an instruction changes of its control the counter and the pending name, and a colon asks for a
name. -/
theorem Rule.current_cases {pc : Address} {tok : Token} (h : Rule s pc tok t)
    (hreading : s.current.readingName = false) :
    t.current.pc = pc ∧ t.signature = s.signature ∧ t.current.program = s.current.program ∧
      t.current.readingName = decide (tok = .colon) ∨
    ∃ index binders v, tok = .dot ∧ s.current.pc = .stream index ∧
      t.signature = s.signature ++ [s.declared index binders v] ∧
      t.current = ⟨pc, ⟨index + 1, index + 1⟩, none, false⟩ := by
  cases h with
  | define hpc => exact .inr ⟨_, _, _, rfl, hpc, rfl, by rw [hreading]⟩
  | extend htoken =>
    refine .inl ⟨rfl, rfl, rfl, ?_⟩
    rcases htoken with rfl | rfl <;> exact hreading
  | grab htoken =>
    refine .inl ⟨rfl, rfl, rfl, ?_⟩
    rcases htoken with rfl | rfl | rfl <;> exact hreading
  | _ => exact .inl ⟨rfl, rfl, rfl, by simp [hreading]⟩

theorem Grows.declaration_eq (h : Grows s t) (c : Constant) : t.declaration c = s.declaration c := by
  unfold declaration
  rw [h.source]

/-- What is left to check of a move: the constant that it declares, the control, and the controls that it saves. -/
theorem WellPlaced.of_grows (hs : s.WellPlaced) (h : Grows s t)
    (hcodes : ∀ c ∈ t.signature, c ∈ s.signature ∨
      c.code = ofDeclaration (s.declaration c) ∧ readsAfter false (s.declaration c) = false)
    (hcurrent : t.Placed t.current ∨ t.RanOff)
    (hsaved : ∀ k, .saved k ∈ t.stack → .saved k ∈ s.stack ∨ s.Waiting k) : t.WellPlaced where
  ends := h.source ▸ hs.ends
  codes c hc := by
    rw [h.declaration_eq]
    exact (hcodes c hc).elim (hs.codes c) id
  current := hcurrent
  saved k hk := h.waiting ((hsaved k hk).elim (hs.saved k) id)

/-- A state that has an instruction is not behind the end of a code. -/
theorem WellPlaced.placed_of_fetch (hs : s.WellPlaced) {tok : Token} (hfetch : s.fetch = some tok) :
    s.Placed s.current := by
  rcases hs.current with h | h
  · exact h
  · rw [h.fetch_eq] at hfetch
    cases hfetch

theorem WellPlaced.of_within (hs : s.WellPlaced) (h : Within s t) : t.WellPlaced := by
  have hgrows := (Move.within h).grows
  cases h with
  | @name tok pc herror hfetch hreading hpc heof =>
    refine hs.of_grows hgrows (fun c hc => .inl hc) ?_ (fun k hk => .inl hk)
    rcases hs.next ⟨pc, s.current.program, some tok.text, false⟩ (hs.placed_of_fetch hfetch) hfetch heof
      (fun _ => hreading) hpc rfl rfl (by simp [hreading]) with hplaced | ⟨rfl, entry, c, hc, hcuts, hend⟩
    · exact .inl (hgrows.placed hplaced)
    · exact .inr ⟨entry, c, hc, hcuts, hend, rfl, rfl⟩
  | @rule tok pc _ herror hfetch hreading hpc hrule =>
    have hplaced := hs.placed_of_fetch hfetch
    rcases hrule.current_cases hreading with ⟨hpc', hsignature, hprogram, hreading'⟩ |
      ⟨index, binders, v, rfl, hindex, hsignature, hcurrent⟩
    · refine hs.of_grows hgrows (fun c hc => .inl (hsignature ▸ hc)) ?_ (fun k hk => .inl (hrule.saved_mem hk))
      rcases hs.next t.current hplaced hfetch hrule.token_ne.1 (fun h => absurd h hrule.token_ne.2) hpc hpc'
        hprogram (by simp [hreading, hreading']) with hnext | ⟨hret, _⟩
      · exact .inl (hgrows.placed hnext)
      · exact absurd hret hrule.token_ne.2
    · have hdot : s.source.tokens[index]? = some .dot := by simpa [fetch, hindex, tokenAt?] using hfetch
      obtain rfl := next?_stream (hindex ▸ hpc)
      refine hs.of_grows hgrows (fun c hc => ?_) (.inl ?_) (fun k hk => .inl (hrule.saved_mem hk))
      · rw [hsignature, List.mem_append, List.mem_singleton] at hc
        refine hc.imp_right fun hc => ?_
        subst hc
        refine ⟨rfl, ?_⟩
        simp only [Placed, hindex, hreading] at hplaced
        exact hplaced.2.2.1.symm
      · simp only [hcurrent, Placed, hgrows.source]
        exact ⟨lt_length_of_ne_eof hs.ends hdot (by simp), Nat.le_refl _, by simp [readsAfter], fun _ => trivial⟩

theorem WellPlaced.of_enters (hs : s.WellPlaced) (h : Enters s t) : t.WellPlaced := by
  have hgrows := (Move.enter h).grows
  obtain ⟨entry, c, ⟨_, hreading, name, hfetch, hlookup⟩, rfl⟩ := h
  have hc := (getElem?_of_lookup hlookup).1
  refine hs.of_grows hgrows (fun c hc => .inl hc) (.inl ⟨c, hc, ?_, rfl⟩) fun k hk => ?_
  · rw [(hs.codes c (List.mem_of_getElem? hc)).1, ofDeclaration]
    simp
  · simp only [enter, List.mem_cons, Slot.saved.injEq] at hk
    rcases hk with rfl | hk
    · exact .inr ⟨hs.placed_of_fetch hfetch, hreading, name, hfetch⟩
    · exact .inl hk

theorem WellPlaced.of_leaves (hs : s.WellPlaced) (h : Leaves s t) : t.WellPlaced := by
  have hgrows := (Move.leave h).grows
  cases h with
  | @intro result caller rest call outer pc _ _ _ hstack _ _ hpc =>
    obtain ⟨hplaced, hreading, name, htok⟩ := hs.saved caller (by simp [hstack])
    refine hs.of_grows hgrows (fun c hc => .inl hc) ?_ fun k hk => .inl (by simp_all)
    rcases hs.next { caller with pc } hplaced htok (by simp) (by simp) hpc rfl rfl (by simp [hreading])
      with hnext | ⟨hret, _⟩
    · exact .inl (hgrows.placed hnext)
    · cases hret

theorem WellPlaced.of_step (hs : s.WellPlaced) (h : s.step = .ok (some t)) : t.WellPlaced := by
  rcases step_cases h with hmove | ⟨_, e, rfl⟩
  · cases hmove with
    | within h => exact hs.of_within h
    | enter h => exact hs.of_enters h
    | leave h => exact hs.of_leaves h
  · exact ⟨hs.ends, hs.codes, hs.current, hs.saved⟩

theorem wellPlaced_start {source : Source} (hends : source.tokens.getLast? = some .eof) :
    (start source).WellPlaced where
  ends := hends
  codes c hc := by simp [start] at hc
  current := by
    refine .inl ⟨?_, Nat.le_refl _, rfl, fun _ => rfl⟩
    refine List.length_pos_iff.mpr fun hnil => ?_
    rw [show source.tokens = [] from hnil] at hends
    cases hends
  saved k hk := by simp [start] at hk

/-- **Every reachable state is well placed.** -/
theorem Reachable.wellPlaced (h : Reachable text s) : s.WellPlaced :=
  h.induction (wellPlaced_start (Source.getLast?_ofText text)) fun _ _ => WellPlaced.of_step

/-- The `ret` that ends a code is read as a name exactly when the declaration cuts a name off. -/
theorem WellPlaced.reading_iff (hs : s.WellPlaced) {entry offset : Nat} {c : Constant}
    (hc : s.signature[entry]? = some c) (hpc : s.current.pc = .code entry offset) (hlast : offset + 1 = c.code.length) :
    s.current.readingName = true ↔ CutsName (s.declaration c) := by
  have hmem := List.mem_of_getElem? hc
  rcases hs.current with hplaced | ⟨entry', c', hc', _, hpc', _⟩
  · simp only [Placed, hpc] at hplaced
    obtain ⟨c', hc', _, hreading⟩ := hplaced
    obtain rfl := Option.some.inj (hc.symm.trans hc')
    rw [hreading, (hs.last_token hmem hlast).2]
    simp [CutsName, (hs.codes c hmem).2]
  · rw [hpc, Address.code.injEq] at hpc'
    obtain ⟨rfl, rfl⟩ := hpc'
    obtain rfl := Option.some.inj (hc.symm.trans hc')
    omega

/-- **A reachable state without error addresses an instruction, unless it ran off the code of a constant whose
declaration cuts a name off**; only then does the next step report that there is no instruction; and of the constants
whose code is executed to its last instruction, these and no others run off. -/
theorem fetch_eq_none_iff_ranOff (h : Reachable text s) (herror : s.error = none) :
    (s.fetch = none ↔ s.RanOff) ∧ ((∃ pc, s.step = .ok (some (s.fail (.noInstruction pc)))) ↔ s.RanOff) ∧
      ∀ entry offset c, s.signature[entry]? = some c → s.current.pc = .code entry offset →
        offset + 1 = c.code.length → (s.current.readingName = true ↔ CutsName (s.declaration c)) := by
  have hfetch : s.fetch = none ↔ s.RanOff := by
    refine ⟨fun hnone => ?_, RanOff.fetch_eq⟩
    rcases h.wellPlaced.current with hplaced | hranOff
    · obtain ⟨tok, htok⟩ := hplaced.exists_token
      rw [show s.fetch = some tok from htok] at hnone
      cases hnone
    · exact hranOff
  exact ⟨hfetch, (step_eq_noInstruction_iff s herror).trans hfetch, fun _ _ _ => h.wellPlaced.reading_iff⟩

/-- The inner parentheses of this declaration end in a colon that is read as a name. The code drops that colon and
keeps the one before it, which is left without a name. -/
theorem fetch_eq_none_of_doubled_colon : ∃ s, Reachable "( ( type : : ) ) : n . n" s ∧ s.error = none ∧
    s.fetch = none ∧ s.RanOff := by
  let s := ((ofText "( ( type : : ) ) : n . n").after 15).getD default
  have hreach : Reachable "( ( type : : ) ) : n . n" s := ⟨15, by decide +kernel⟩
  have herror : s.error = none := by decide +kernel
  have hfetch : s.fetch = none := by decide +kernel
  exact ⟨s, hreach, herror, hfetch, (fetch_eq_none_iff_ranOff hreach herror).1.mp hfetch⟩

end Stepwise.State
