import Stepwise.Proofs.Placement
import Stepwise.Proofs.Return

/-!
# The run of a declaration

A declaration is executed token by token, and a call on the way counts as one token (`Executes`). The stack tells
whether execution is in the token stream (`Levelled`), so between two states there the machine executes exactly the
tokens between them (`executes_of_after`): from the start of a declaration to the dot that declares the constant these
are the tokens of the declaration (`exists_executes_declaration`).
-/

namespace Stepwise.State

variable {s t u : State} {ts us : List Token} {n : Nat}

/-! ## Tokens executed at one level -/

/-- A run that executes the listed tokens where its first state is; what the constants called on the way execute is not
listed. -/
inductive Executes : List Token → State → State → Prop
  | nil (s : State) : Executes [] s s
  | within {tok : Token} {ts : List Token} {s t u : State} (hfetch : s.fetch = some tok) (hfirst : Within s t)
      (hrest : Executes ts t u) : Executes (tok :: ts) s u
  | call {name : Name} {ts : List Token} {s t u : State} {entry n : Nat} {c : Constant}
      (hfetch : s.fetch = some (.id name)) (hcalls : s.Calls entry c) (hreturns : s.Returns n t)
      (hrest : Executes ts t u) : Executes (.id name :: ts) s u

/-- A run over two lists is a run over the first and then one over the second. -/
theorem Executes.split : ∀ {ts : List Token} {s : State}, Executes (ts ++ us) s u →
    ∃ t, Executes ts s t ∧ Executes us t u
  | [], s, h => ⟨s, .nil s, h⟩
  | _ :: _, _, .within hfetch hfirst hrest =>
    let ⟨t, hts, hus⟩ := hrest.split
    ⟨t, .within hfetch hfirst hts, hus⟩
  | _ :: _, _, .call hfetch hcalls hreturns hrest =>
    let ⟨t, hts, hus⟩ := hrest.split
    ⟨t, .call hfetch hcalls hreturns hts, hus⟩

theorem Executes.append (h : Executes ts s t) (h' : Executes us t u) : Executes (ts ++ us) s u := by
  induction h with
  | nil s => exact h'
  | within hfetch hfirst _ ih => exact .within hfetch hfirst (ih h')
  | call hfetch hcalls hreturns _ ih => exact .call hfetch hcalls hreturns (ih h')

theorem executes_of_nested (h : Nested n s t) : ∃ ts, Executes ts s t := by
  induction h with
  | nil s => exact ⟨[], .nil s⟩
  | within hfirst _ ih =>
    obtain ⟨ts, hts⟩ := ih
    cases hfirst with
    | @name tok _ herror hfetch hreading hpc heof =>
      exact ⟨tok :: ts, .within hfetch (.name herror hfetch hreading hpc heof) hts⟩
    | @rule tok _ _ herror hfetch hreading hpc hrule =>
      exact ⟨tok :: ts, .within hfetch (.rule herror hfetch hreading hpc hrule) hts⟩
  | call henter hbody hleave _ _ ih =>
    obtain ⟨ts, hts⟩ := ih
    obtain ⟨entry, c, hcalls, rfl⟩ := henter
    obtain ⟨name, hfetch, _⟩ := hcalls.names
    exact ⟨.id name :: ts, .call hfetch hcalls (hcalls.returns_iff.mpr ⟨_, _, rfl, hbody, hleave⟩) hts⟩

/-! ## What such a run keeps -/

theorem Grows.refl (s : State) : Grows s s := ⟨rfl, List.prefix_rfl⟩

theorem Grows.trans (h : Grows s t) (h' : Grows t u) : Grows s u :=
  ⟨h'.source.trans h.source, h.signature.trans h'.signature⟩

theorem grows_of_step (h : s.step = .ok (some t)) : Grows s t := by
  rcases step_cases h with hmove | ⟨_, e, rfl⟩
  · exact hmove.grows
  · exact ⟨rfl, List.prefix_rfl⟩

theorem grows_of_after (h : s.after n = some t) : Grows s t :=
  after_induction (fun _ _ hgrows hstep => hgrows.trans (grows_of_step hstep)) h (.refl s)

/-- A state between two with the same signature has that signature. -/
theorem Grows.signature_eq (h : Grows s t) (h' : Grows t u) (hsame : u.signature = s.signature) :
    t.signature = s.signature :=
  (h.signature.eq_of_length_le (hsame ▸ h'.signature.length_le)).symm

theorem Executes.grows (h : Executes ts s t) : Grows s t := by
  induction h with
  | nil s => exact .refl s
  | within _ hfirst _ ih => exact (Move.within hfirst).grows.trans ih
  | call _ _ hreturns _ ih => exact (grows_of_after hreturns.reaches).trans ih

theorem Executes.exists_after (h : Executes ts s t) : ∃ n, s.after n = some t := by
  induction h with
  | nil s => exact ⟨0, rfl⟩
  | within _ hfirst _ ih =>
    obtain ⟨n, hn⟩ := ih
    exact ⟨n + 1, after_succ.mpr ⟨_, hfirst.step_eq, hn⟩⟩
  | call _ _ hreturns _ ih =>
    obtain ⟨n, hn⟩ := ih
    exact ⟨_, after_trans hreturns.reaches hn⟩

theorem Executes.error_eq (h : Executes ts s t) (herror : s.error = none) : t.error = none := by
  induction h with
  | nil s => exact herror
  | within _ hfirst _ ih => exact ih hfirst.error_eq.2
  | call _ _ hreturns _ ih => exact ih hreturns.error

theorem Within.next?_eq (h : Within s t) : s.current.pc.next? = some t.current.pc := by
  cases h with
  | name _ _ _ hpc => exact hpc
  | rule _ _ _ hpc hrule => cases hrule <;> exact hpc

/-- A move that declares nothing stays in its declaration. -/
theorem Within.program_eq (h : Within s t) (hsignature : t.signature = s.signature) :
    t.current.program = s.current.program := by
  cases h with
  | name => rfl
  | rule _ _ _ _ hrule =>
    cases hrule with
    | define => simp at hsignature
    | _ => rfl

/-- The tokens executed are consecutive tokens of the stream. -/
theorem Executes.tokens_eq (h : Executes ts s t) : ∀ {index : Nat}, s.current.pc = .stream index →
    ts = (s.source.tokens.drop index).take ts.length ∧ t.current.pc = .stream (index + ts.length) := by
  induction h with
  | nil s =>
    intro index hpc
    exact ⟨rfl, hpc⟩
  | @within tok ts s t u hfetch hfirst _ ih =>
    intro index hpc
    have htok : s.source.tokens[index]? = some tok := by simpa [fetch, hpc, tokenAt?] using hfetch
    have hnext := next?_stream (hpc ▸ hfirst.next?_eq)
    obtain ⟨hts, hpc'⟩ := ih hnext
    rw [(Move.within hfirst).grows.source] at hts
    refine ⟨?_, by rw [hpc', List.length_cons, Nat.add_assoc, Nat.add_comm 1]⟩
    rw [List.drop_eq_getElem?_toList_append, htok]
    simp [← hts]
  | @call name ts s t u entry n c hfetch hcalls hreturns _ ih =>
    intro index hpc
    have htok : s.source.tokens[index]? = some (.id name) := by simpa [fetch, hpc, tokenAt?] using hfetch
    obtain ⟨_, _, _, _, _, pc, _, _, _, _, hnext, rfl⟩ := hcalls.returns_iff_eval.mp hreturns
    obtain ⟨hts, hpc'⟩ := ih (next?_stream (hpc ▸ hnext))
    refine ⟨?_, by rw [hpc', List.length_cons, Nat.add_assoc, Nat.add_comm 1]⟩
    rw [List.drop_eq_getElem?_toList_append, htok]
    simp [← hts]

theorem Executes.program_eq (h : Executes ts s t) (hsignature : t.signature = s.signature) :
    t.current.program = s.current.program := by
  induction h with
  | nil s => rfl
  | within _ hfirst hrest ih =>
    have hmiddle := (Move.within hfirst).grows.signature_eq hrest.grows hsignature
    rw [ih (hsignature.trans hmiddle.symm), hfirst.program_eq hmiddle]
  | call _ hcalls hreturns _ ih =>
    obtain ⟨_, _, _, _, _, _, _, _, _, _, _, rfl⟩ := hcalls.returns_iff_eval.mp hreturns
    exact ih hsignature

/-- Whether a name is read next depends on the tokens executed. -/
theorem Executes.reading_eq (h : Executes ts s t) :
    t.current.readingName = Code.readsAfter s.current.readingName ts := by
  induction h with
  | nil s => rfl
  | within hfetch hfirst _ ih =>
    rw [ih, Code.readsAfter]
    cases hfirst with
    | name _ _ hreading => rw [hreading]; rfl
    | rule _ htok hreading _ hrule =>
      obtain rfl := Option.some.inj (hfetch.symm.trans htok)
      rw [hreading]
      rcases hrule.current_cases hreading with ⟨_, _, _, hcolon⟩ | ⟨_, _, _, rfl, _, _, hcurrent⟩
      · rw [hcolon]; rfl
      · rw [hcurrent]; rfl
  | call _ hcalls hreturns _ ih =>
    obtain ⟨_, _, _, _, _, _, _, _, _, _, _, rfl⟩ := hcalls.returns_iff_eval.mp hreturns
    rw [ih, Code.readsAfter]
    simp [hcalls.reading]

/-! ## Execution in the stream -/

/-- Execution is in code above a saved control, and in the token stream when no control is saved. -/
def Levelled : Bool → List Slot → Prop
  | inCode, [] => inCode = false
  | inCode, .value _ :: rest => Levelled inCode rest
  | inCode, .saved k :: rest => inCode = true ∧ Levelled k.pc.inCode rest

theorem countP_isSaved_of_levelled : ∀ {stack : List Slot}, Levelled false stack → stack.countP Slot.isSaved = 0
  | [], _ => rfl
  | .value _ :: rest, h => by
    rw [List.countP_cons_of_neg (by simp [Slot.isSaved])]
    exact countP_isSaved_of_levelled h
  | .saved _ :: _, h => by cases h.1

theorem Rule.levelled {pc : Address} {tok : Token} {inCode : Bool} (h : Rule s pc tok t)
    (hs : Levelled inCode s.stack) : Levelled inCode t.stack := by
  cases h <;> simp_all [Levelled]

theorem Move.levelled (h : Move s t) (hs : Levelled s.current.pc.inCode s.stack) :
    Levelled t.current.pc.inCode t.stack := by
  cases h with
  | within h =>
    rw [Address.inCode_of_next? h.next?_eq]
    cases h with
    | name => exact hs
    | rule _ _ _ _ hrule => exact hrule.levelled hs
  | enter h =>
    obtain ⟨entry, c, _, rfl⟩ := h
    exact ⟨rfl, hs⟩
  | leave h =>
    cases h with
    | intro _ _ _ hstack _ _ hpc =>
      rw [hstack] at hs
      rw [Address.inCode_of_next? hpc]
      exact hs.2

theorem levelled_of_after (h : s.after n = some t) (hs : Levelled s.current.pc.inCode s.stack) :
    Levelled t.current.pc.inCode t.stack := by
  refine after_induction (P := fun u => Levelled u.current.pc.inCode u.stack) (fun u v hu hstep => ?_) h hs
  rcases step_cases hstep with hmove | ⟨_, e, rfl⟩
  · exact hmove.levelled hu
  · exact hu

/-- Between two states in the token stream the machine executes the tokens between them. -/
theorem executes_of_after {index index' : Nat} (hlevel : Levelled false s.stack) (hpc : s.current.pc = .stream index)
    (hpc' : t.current.pc = .stream index') (h : s.after n = some t) (herror : t.error = none) :
    index ≤ index' ∧ Executes ((s.source.tokens.take index').drop index) s t := by
  have hlevel' : Levelled t.current.pc.inCode t.stack := levelled_of_after h (by rw [hpc]; exact hlevel)
  rw [hpc'] at hlevel'
  -- No call is open in the stream, so the run is well-nested.
  have hbottom : s.callDepth = 0 := countP_isSaved_of_levelled hlevel
  have hbottom' : t.callDepth = 0 := countP_isSaved_of_levelled hlevel'
  obtain ⟨ts, hts⟩ := executes_of_nested (nested_of_after h herror (by omega) fun _ _ _ _ => by omega)
  obtain ⟨htokens, hend⟩ := hts.tokens_eq hpc
  obtain rfl : index' = index + ts.length := by simpa [hpc'] using hend
  refine ⟨by omega, ?_⟩
  rwa [List.drop_take, Nat.add_sub_cancel_left, ← htokens]

/-! ## Where a declaration begins and where it ends -/

/-- A declaration begins here: no call is in progress, no frame is open, and nothing has been read of it. -/
structure Opens (s : State) : Prop where
  pc : s.current.pc = .stream s.current.program.first
  level : Levelled false s.stack
  frames : s.frames = []
  reading : s.current.readingName = false
  name : s.current.name = none

/-- The state is at the dot that declares the constant `c`: the frames hold the binders of the declaration, and the
value on the stack is its type under them. -/
structure Declaring (s : State) (c : Constant) : Prop where
  error : s.error = none
  reading : s.current.readingName = false
  ends : ∃ index binders outer v rest, s.current.pc = .stream index ∧ Declares s.frames binders outer ∧
    s.stack = .value v :: rest ∧ c = s.declared index binders v

/-- Only a dot that declares a constant changes the signature. -/
theorem define_of_step (h : s.step = .ok (some t)) (hne : t.signature ≠ s.signature) :
    s.error = none ∧ s.current.readingName = false ∧ ∃ index binders outer v rest pc,
      s.current.pc = .stream index ∧ Declares s.frames binders outer ∧ s.stack = .value v :: rest ∧
      s.current.pc.next? = some pc ∧
      t = { s with
        current := ⟨pc, ⟨index + 1, index + 1⟩, none, s.current.readingName⟩
        frames := outer
        stack := rest
        signature := s.signature ++ [s.declared index binders v] } := by
  rcases step_cases h with hmove | ⟨_, e, rfl⟩
  · cases hmove with
    | within h =>
      cases h with
      | name => exact absurd rfl hne
      | rule herror _ hreading hnext hrule =>
        cases hrule with
        | define hpc hstack _ hframes =>
          exact ⟨herror, hreading, _, _, _, _, _, _, hpc, hframes, hstack, hnext, rfl⟩
        | _ => exact absurd rfl hne
    | enter h =>
      obtain ⟨entry, c, _, rfl⟩ := h
      exact absurd rfl hne
    | leave h => cases h with | intro => exact absurd rfl hne
  · exact absurd rfl hne

theorem declaring_of_step {c : Constant} (h : s.step = .ok (some t)) (hsignature : t.signature = s.signature ++ [c]) :
    s.Declaring c := by
  obtain ⟨herror, hreading, index, binders, outer, v, rest, _, hpc, hframes, hstack, _, rfl⟩ :=
    define_of_step h (by simp [hsignature])
  obtain rfl : s.declared index binders v = c := by simpa using hsignature
  exact ⟨herror, hreading, index, binders, outer, v, rest, hpc, hframes, hstack, rfl⟩

/-- A run that declares one constant goes through the dot that declares it. -/
theorem exists_declaring_of_after {c : Constant} (h : s.after n = some t)
    (hsignature : t.signature = s.signature ++ [c]) :
    ∃ m u, s.after m = some u ∧ u.signature = s.signature ∧ u.Declaring c := by
  induction n generalizing t with
  | zero =>
    cases h
    simp at hsignature
  | succ n ih =>
    obtain ⟨u, hu, hstep⟩ := after_succ_last.mp h
    have hbefore := (grows_of_step hstep).signature
    rw [hsignature, List.prefix_concat_iff] at hbefore
    rcases hbefore with hall | hnone
    · exact ih hu hall
    · have hsame : u.signature = s.signature := hnone.eq_of_length_le (grows_of_after hu).signature.length_le
      exact ⟨n, u, hu, hsame, declaring_of_step hstep (hsame ▸ hsignature)⟩

/-- **From its start, with no call open, a declaration is executed token by token up to its dot.** -/
theorem exists_executes_declaration {c : Constant} (hstart : s.current.pc = .stream s.current.program.first)
    (hlevel : Levelled false s.stack) (h : s.after n = some t) (hsignature : t.signature = s.signature ++ [c]) :
    ∃ u, Executes (t.declaration c) s u ∧ u.signature = s.signature ∧ u.Declaring c := by
  obtain ⟨m, u, hu, hsame, hdeclaring⟩ := exists_declaring_of_after h hsignature
  refine ⟨u, ?_, hsame, hdeclaring⟩
  obtain ⟨index, binders, outer, v, rest, hpc, _, _, rfl⟩ := hdeclaring.ends
  obtain ⟨_, hexecutes⟩ := executes_of_after hlevel hstart hpc hu hdeclaring.error
  rw [declaration, declared, (grows_of_after h).source, hexecutes.program_eq hsame]
  exact hexecutes

end Stepwise.State
