import Stepwise.Proofs.Execution

/-!
# What the values of a state are made of

Every value of a state was put together by the instructions from `type`, from identifiers of the program and from other
values. So a property that these constructions keep (`Constructed`) holds of everything on the stack and in the frames
of every reachable state (`Reachable.holds`). The identifiers that are executed stand in the source, also when it is
code that is executed (`WellPlaced.id_mem_of_fetch`), and none of them holds a blank
(`Source.not_blank_of_id_mem`).
-/

namespace Stepwise

/-! ## Identifiers -/

theorem Token.eq_of_ofAtom_eq_id {atom : String} {name : Name} (h : ofAtom atom = id name) : name = atom := by
  unfold ofAtom at h
  split at h <;> cases h
  rfl

/-- A token of a source, but for its end, is one of the words of its text. -/
theorem Source.exists_word_of_mem {text : String} {tok : Token} (h : tok ∈ (ofText text).tokens) (heof : tok ≠ .eof) :
    ∃ line, ∃ word ∈ Text.words (uncomment line), Token.ofAtom (String.ofList word) = tok := by
  have hgroups : tok ∈ (groups text).flatten := by
    simp only [ofText, ofLines, terminate] at h
    split at h
    · exact h
    · simpa [heof] using h
  obtain ⟨line, hline, hname⟩ := List.mem_flatten.mp hgroups
  obtain ⟨cs, _, rfl⟩ := List.mem_map.mp (List.mem_filter.mp hline).1
  obtain ⟨word, hword, hatom⟩ := List.mem_map.mp hname
  exact ⟨_, word, hword, hatom⟩

/-- Two tokens have no spelling. -/
theorem Source.not_mem_of_unspelled {text : String} {tok : Token} (h : tok = .grab ∨ tok = .ret) :
    tok ∉ (ofText text).tokens := by
  intro hmem
  obtain ⟨_, word, _, hatom⟩ := exists_word_of_mem hmem (by rcases h with rfl | rfl <;> simp)
  unfold Token.ofAtom at hatom
  split at hatom <;> rcases h with rfl | rfl <;> cases hatom

theorem Source.not_blank_of_id_mem {text : String} {name : Name} (h : .id name ∈ (ofText text).tokens) :
    ∀ c ∈ name.toList, Text.isBlank c = false := by
  obtain ⟨line, word, hword, hatom⟩ := exists_word_of_mem h (by simp)
  rw [Token.eq_of_ofAtom_eq_id hatom, String.toList_ofList]
  exact (Text.mem_words hword).2

/-- The spelling of a keyword is no identifier. -/
theorem Source.ofAtom_of_id_mem {text : String} {name : Name} (h : .id name ∈ (ofText text).tokens) :
    Token.ofAtom name = .id name := by
  obtain ⟨line, word, _, hatom⟩ := exists_word_of_mem h (by simp)
  obtain rfl := Token.eq_of_ofAtom_eq_id hatom
  exact hatom

namespace Code

theorem mem_of_mem_grabParameters {tok : Token} (hne : tok ≠ .grab) : ∀ {depth : Nat} {ts : List Token},
    tok ∈ grabParameters depth ts → tok ∈ ts
  | _, [], h => h
  | depth, t :: ts, h => by
    rcases grabParameters_cons_cases depth t ts with ⟨_, _, hgrab⟩ | hkeep
    · rw [hgrab, List.mem_cons] at h
      exact List.mem_cons_of_mem _ (mem_of_mem_grabParameters hne (h.resolve_left hne))
    · rw [hkeep, List.mem_cons] at h
      exact List.mem_cons.mpr (h.imp_right (mem_of_mem_grabParameters hne))

theorem mem_of_mem_body {t : Token} {declaration : List Token} (h : t ∈ body declaration) : t ∈ declaration := by
  rcases body_cases declaration with ⟨name, _, heq⟩ | ⟨inner, outer, _, _, heq⟩
  · rw [heq]
    exact List.mem_append_left _ h
  · rw [heq]
    exact List.mem_cons_of_mem _ (List.mem_append_left _ h)

/-- The identifiers of a code are those of its declaration. -/
theorem id_mem_of_mem_ofDeclaration {name : Name} {declaration : List Token}
    (h : .id name ∈ ofDeclaration declaration) : .id name ∈ declaration := by
  rw [ofDeclaration, List.mem_append] at h
  exact mem_of_mem_body (mem_of_mem_grabParameters (by simp) (h.resolve_right (by simp)))

end Code

namespace State

variable {s t : State} {text : String}

theorem WellPlaced.id_mem_of_fetch (hs : s.WellPlaced) {name : Name} (hfetch : s.fetch = some (.id name)) :
    .id name ∈ s.source.tokens := by
  unfold fetch tokenAt? at hfetch
  split at hfetch
  · exact List.mem_of_getElem? hfetch
  · obtain ⟨c, hc, hcode⟩ := Option.bind_eq_some_iff.mp hfetch
    have hmem := List.mem_of_getElem? hcode
    rw [(hs.codes c (List.mem_of_getElem? hc)).1] at hmem
    exact List.mem_of_mem_take (List.mem_of_mem_drop (Code.id_mem_of_mem_ofDeclaration hmem))

/-! ## What names refer to -/

theorem mem_of_resolve_variable {inCode : Bool} {name : Name} {b : Binder} : ∀ {frames : List Frame},
    resolve inCode name frames = some (.variable b) → ∃ sc, .scope sc ∈ frames ∧ b ∈ sc.binders ∧ b.name = some name
  | [], h => by cases h
  | .scope sc :: outer, h => by
    unfold resolve at h
    split at h
    · rename_i hb
      cases h
      exact ⟨sc, List.mem_cons_self, by simpa using List.mem_of_find?_eq_some hb,
        by simpa using List.find?_some hb⟩
    · obtain ⟨sc', hmem, hb⟩ := mem_of_resolve_variable h
      exact ⟨sc', List.mem_cons_of_mem _ hmem, hb⟩
  | .call c :: outer, h => by
    unfold resolve at h
    split at h
    · cases h
    · split at h
      · cases h
      · obtain ⟨sc, hmem, hb⟩ := mem_of_resolve_variable h
        exact ⟨sc, List.mem_cons_of_mem _ hmem, hb⟩

theorem mem_of_resolve_argument {inCode : Bool} {name : Name} {a : Argument} : ∀ {frames : List Frame},
    resolve inCode name frames = some (.argument a) → ∃ call, .call call ∈ frames ∧ a ∈ call.arguments
  | [], h => by cases h
  | .scope sc :: outer, h => by
    unfold resolve at h
    split at h
    · cases h
    · obtain ⟨call, hmem, ha⟩ := mem_of_resolve_argument h
      exact ⟨call, List.mem_cons_of_mem _ hmem, ha⟩
  | .call c :: outer, h => by
    unfold resolve at h
    split at h
    · rename_i ha
      cases h
      exact ⟨c, List.mem_cons_self, by simpa using List.mem_of_find?_eq_some ha⟩
    · split at h
      · cases h
      · obtain ⟨call, hmem, ha⟩ := mem_of_resolve_argument h
        exact ⟨call, List.mem_cons_of_mem _ hmem, ha⟩

/-- A name that refers to a variable or an argument does so by the frames. -/
theorem resolve_of_lookup {name : Name} {found : Binding} (h : s.lookup name = some found)
    (hfound : ∀ entry c, found ≠ .constant entry c) : resolve s.current.pc.inCode name s.frames = some found := by
  unfold lookup at h
  split at h
  · rename_i hb
    rw [hb]
    exact h
  · obtain ⟨_, _, heq⟩ := Option.map_eq_some_iff.mp h
    exact absurd heq.symm (hfound _ _)

theorem mem_of_lookup_variable {name : Name} {b : Binder} (h : s.lookup name = some (.variable b)) :
    ∃ sc, .scope sc ∈ s.frames ∧ b ∈ sc.binders ∧ b.name = some name :=
  mem_of_resolve_variable (resolve_of_lookup h (by simp))

theorem mem_of_lookup_argument {name : Name} {a : Argument} (h : s.lookup name = some (.argument a)) :
    ∃ call, .call call ∈ s.frames ∧ a ∈ call.arguments :=
  mem_of_resolve_argument (resolve_of_lookup h (by simp))

end State

/-! ## Properties that the instructions keep -/

/-- The instructions keep the property `V` of a term and its type, and the property `B` of the type of a variable, as
long as the identifiers executed satisfy `X` and the names of the constants called satisfy `N`. -/
structure Constructed (X N : Name → Prop) (V : Expr → Expr → Prop) (B : Expr → Prop) : Prop where
  type : V .type .kind
  domain : ∀ {e k}, V e k → k.isSort = true → B e
  var : ∀ {x a}, X x → B a → V (.var x []) a
  const : ∀ {c spine e k}, N c → (∀ a ∈ spine, ∃ k, V a k) → V e k → k.isSort = true → V (.const c spine) e
  pis : ∀ {binders e k}, (∀ b ∈ binders, B b.2) → V e k → k.isSort = true → V (.pis binders e) k
  lams : ∀ {binders e k}, (∀ b ∈ binders, B b.2) → V e k → V (.lams binders e) (.pis binders k)

namespace State

variable {s t : State} {text : String} {X N : Name → Prop} {V : Expr → Expr → Prop} {B : Expr → Prop}

/-- The property holds of the values of a stack. -/
def StackHolds (V : Expr → Expr → Prop) (stack : List Slot) : Prop := ∀ v, .value v ∈ stack → V v.term v.type

/-- The properties hold of what a frame has collected. -/
def FrameHolds (N : Name → Prop) (V : Expr → Expr → Prop) (B : Expr → Prop) : Frame → Prop
  | .scope sc => ∀ b ∈ sc.telescope, B b.2
  | .call c => N c.name ∧ ∀ a ∈ c.arguments, V a.term a.type

/-- The properties hold of everything on the stack and in the frames. -/
structure Holds (N : Name → Prop) (V : Expr → Expr → Prop) (B : Expr → Prop) (s : State) : Prop where
  stack : StackHolds V s.stack
  frames : ∀ f ∈ s.frames, FrameHolds N V B f

theorem stackHolds_value {v : Value} {rest : List Slot} :
    StackHolds V (.value v :: rest) ↔ V v.term v.type ∧ StackHolds V rest := by
  simp [StackHolds]

theorem stackHolds_saved {k : Control} {rest : List Slot} : StackHolds V (.saved k :: rest) ↔ StackHolds V rest := by
  simp [StackHolds]

theorem Rule.holds {pc : Address} {tok : Token} (h : Rule s pc tok t) (hconstructed : Constructed X N V B)
    (hid : ∀ x, tok = .id x → X x) (hs : s.Holds N V B) : t.Holds N V B := by
  obtain ⟨hstack, hframes⟩ := hs
  cases h with
  | type => exact ⟨stackHolds_value.mpr ⟨hconstructed.type, hstack⟩, hframes⟩
  | colon => exact ⟨hstack, hframes⟩
  | openPi => exact ⟨hstack, List.forall_mem_cons.mpr ⟨by simp [FrameHolds, Scope.telescope], hframes⟩⟩
  | openLam => exact ⟨hstack, List.forall_mem_cons.mpr ⟨by simp [FrameHolds, Scope.telescope], hframes⟩⟩
  | closePi hs hsort hf _ =>
    rw [hs, stackHolds_value] at hstack
    rw [hf, List.forall_mem_cons] at hframes
    exact ⟨stackHolds_value.mpr ⟨hconstructed.pis hframes.1 hstack.1 hsort, hstack.2⟩, hframes.2⟩
  | closeLam hs hf _ =>
    rw [hs, stackHolds_value] at hstack
    rw [hf, List.forall_mem_cons] at hframes
    exact ⟨stackHolds_value.mpr ⟨hconstructed.lams hframes.1 hstack.1, hstack.2⟩, hframes.2⟩
  | extend _ hs hsort hf _ =>
    rw [hs, stackHolds_value] at hstack
    rw [hf, List.forall_mem_cons] at hframes
    refine ⟨hstack.2, List.forall_mem_cons.mpr ⟨?_, hframes.2⟩⟩
    rw [FrameHolds, Scope.telescope_push, List.forall_mem_append]
    exact ⟨hframes.1, List.forall_mem_singleton.mpr (hconstructed.domain hstack.1 hsort)⟩
  | declare hs hsort hf =>
    rw [hs, stackHolds_value] at hstack
    refine ⟨hstack.2, List.forall_mem_singleton.mpr ?_⟩
    exact List.forall_mem_singleton.mpr (hconstructed.domain hstack.1 hsort)
  | define _ hs _ hf _ =>
    rw [hs, stackHolds_value] at hstack
    generalize s.frames = frames at hf hframes
    cases hf with
    | plain => exact ⟨hstack.2, hframes⟩
    | scope => exact ⟨hstack.2, (List.forall_mem_cons.mp hframes).2⟩
  | grab _ hs hsort hf _ =>
    rw [hs, stackHolds_value, stackHolds_saved, stackHolds_value] at hstack
    rw [hf, List.forall_mem_cons] at hframes
    refine ⟨stackHolds_saved.mpr hstack.2.2, List.forall_mem_cons.mpr ⟨⟨hframes.1.1, ?_⟩, hframes.2⟩⟩
    exact List.forall_mem_append.mpr ⟨hframes.1.2, List.forall_mem_singleton.mpr hstack.2.1⟩
  | captured hlookup =>
    obtain ⟨call, hcall, ha⟩ := mem_of_lookup_argument hlookup
    exact ⟨stackHolds_value.mpr ⟨(hframes _ hcall).2 _ ha, hstack⟩, hframes⟩
  | @bound name b hlookup =>
    obtain ⟨sc, hsc, hb, _⟩ := mem_of_lookup_variable hlookup
    have hb : B b.type := hframes _ hsc (b.name, b.type) (List.mem_map.mpr ⟨b, hb, rfl⟩)
    exact ⟨stackHolds_value.mpr ⟨hconstructed.var (hid name rfl) hb, hstack⟩, hframes⟩

theorem Move.holds (h : Move s t) (hconstructed : Constructed X N V B) (hid : ∀ x, s.fetch = some (.id x) → X x)
    (hcalled : ∀ entry c, s.Calls entry c → N c.name) (hs : s.Holds N V B) : t.Holds N V B := by
  cases h with
  | within h =>
    cases h with
    | name => exact ⟨hs.stack, hs.frames⟩
    | rule _ hfetch _ _ hrule => exact hrule.holds hconstructed (fun x hx => hid x (hx ▸ hfetch)) hs
  | enter h =>
    obtain ⟨entry, c, hcalls, rfl⟩ := h
    exact ⟨stackHolds_saved.mpr hs.stack, List.forall_mem_cons.mpr ⟨⟨hcalled entry c hcalls, by simp⟩, hs.frames⟩⟩
  | leave h =>
    cases h with
    | @intro result caller rest call outer _ _ _ _ hstack hsort hframes =>
      obtain ⟨hresult, hrest⟩ := stackHolds_value.mp (hstack ▸ hs.stack)
      obtain ⟨⟨hname, harguments⟩, houter⟩ := List.forall_mem_cons.mp (hframes ▸ hs.frames)
      have hspine : ∀ a ∈ call.spine, ∃ k, V a k := by
        intro e he
        obtain ⟨a, ha, rfl⟩ := List.mem_map.mp he
        exact ⟨a.type, harguments a ha⟩
      exact ⟨stackHolds_value.mpr ⟨hconstructed.const hname hspine hresult hsort, stackHolds_saved.mp hrest⟩, houter⟩

/-- The type of a constant that is declared was put together like the type of a variable. -/
theorem Move.types_hold (h : Move s t) (hconstructed : Constructed X N V B) (hs : s.Holds N V B)
    (htypes : ∀ c ∈ s.signature, B c.type) : ∀ c ∈ t.signature, B c.type := by
  cases h with
  | within h =>
    cases h with
    | name => exact htypes
    | rule _ _ _ _ hrule =>
      cases hrule with
      | @define v rest binders outer index _ hstack hsort hframes =>
        obtain ⟨hv, _⟩ := stackHolds_value.mp (hstack ▸ hs.stack)
        have hbinders : ∀ b ∈ binders, B b.2 := by
          have hcollected := hs.frames
          generalize s.frames = frames at hframes hcollected
          cases hframes with
          | plain => exact fun _ hb => nomatch hb
          | scope => exact hcollected _ List.mem_cons_self
        refine List.forall_mem_append.mpr ⟨htypes, List.forall_mem_singleton.mpr ?_⟩
        exact hconstructed.domain (hconstructed.pis hbinders hv hsort) hsort
      | _ => exact htypes
  | enter h =>
    obtain ⟨entry, c, _, rfl⟩ := h
    exact htypes
  | leave h => cases h with | intro => exact htypes

theorem Reachable.source_eq (h : Reachable text s) : s.source = Source.ofText text := by
  obtain ⟨n, hn⟩ := h
  exact (grows_of_after hn).source

theorem Reachable.mem_of_mem_declaration (h : Reachable text s) {tok : Token} {c : Constant}
    (hmem : tok ∈ s.declaration c) : tok ∈ (Source.ofText text).tokens := by
  rw [← h.source_eq]
  exact List.mem_of_mem_take (List.mem_of_mem_drop hmem)

/-- **Properties that the constructions of values keep hold in every state of a run.** -/
theorem Reachable.holds (h : Reachable text s) (hconstructed : Constructed N N V B)
    (hid : ∀ x, .id x ∈ (Source.ofText text).tokens → N x) : s.Holds N V B := by
  refine h.induction_reachable ⟨by simp [StackHolds, ofText, start], by simp [ofText, start]⟩ ?_
  intro s t hreachable hs hstep
  have hfetched (x : Name) (hfetch : s.fetch = some (.id x)) : N x := by
    refine hid x ?_
    rw [← hreachable.source_eq]
    exact hreachable.wellPlaced.id_mem_of_fetch hfetch
  rcases step_cases hstep with hmove | ⟨_, e, rfl⟩
  · refine hmove.holds hconstructed hfetched (fun entry c hcalls => ?_) hs
    obtain ⟨name, hfetch, hlookup⟩ := hcalls.names
    exact (getElem?_of_lookup hlookup).2 ▸ hfetched name hfetch
  · exact ⟨hs.stack, hs.frames⟩

end State

end Stepwise
