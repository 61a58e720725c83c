import Stepwise.Proofs.Contents
import Stepwise.Proofs.Continuation
import Stepwise.Proofs.Parameters
import Stepwise.Proofs.Record

/-!
# Code and scopes

When a constant is declared, its declaration has just been executed. Its code follows the scopes (`FollowsScopes`) if it
has `grab` exactly where the declaration executed an arrow in the scope of its parameters. Which tokens were executed
there can be read off the declaration, so the code follows the scopes exactly when the declaration is faithful
(`Reachable.followsScopes_iff`), and then no call executes a `grab` inside a scope (`Reachable.call_of_grab`).

Not every declaration is faithful: the code replaces an arrow also where it is the name of a parameter, and a bracket
that is a name misleads it about the arrows behind (`misnamed_arrow_becomes_grab`).
-/

namespace Stepwise

namespace Activation

variable {σ : Signature} {a b : Activation} {vs : List Value} {n : Nat}

/-- An activation stays in the code of its constant. -/
theorem Eval.entry?_eq (h : Eval σ n a vs b) : b.current.pc.entry? = a.current.pc.entry? := by
  induction h with
  | nil a => rfl
  | step hfirst _ ih =>
    rw [ih]
    cases hfirst with
    | name _ _ hpc => exact Address.entry?_of_next? hpc
    | rule _ hreading hpc hrule =>
      rw [(hrule.outline hreading).2.1]
      exact Address.entry?_of_next? hpc
  | call _ _ _ _ hpc _ _ ih =>
    rw [ih]
    exact Address.entry?_of_next? hpc

end Activation

theorem Tallied.map_shape {frames : List Frame} {scopes : List (ScopeKind × Nat)} (h : Tallied frames scopes) :
    frames.map Frame.shape = Code.shapes scopes := by
  induction h with
  | nil => rfl
  | cons sc _ ih =>
    rw [List.map_cons, ih]
    rfl

namespace State

open Activation Code

variable {s u w s₀ : State} {text : String} {c : Constant} {before : Signature} {declaration : List Token} {i : Nat}

/-! ## What a declaration has executed -/

/-- The state executes an arrow in the scope of the parameters of its declaration. -/
structure BindsParameter (u : State) (wrapped : Bool) : Prop where
  fetch : u.fetch = some .arrow
  reading : u.current.readingName = false
  scope : inParameterScope wrapped (u.frames.map Frame.shape) = true

/-- The code of the constant follows the scopes that the run of its declaration opened. -/
structure FollowsScopes (s : State) (c : Constant) : Prop where
  /-- It has `grab` for a token exactly if that is an arrow which was executed in the scope of the parameters. -/
  grabs : ∀ i < (s.declaration c).length,
    (∃ u, Arrives s.source (c.program.first + i) u ∧ u.BindsParameter (isWrapped (s.declaration c))) ↔
      GrabsAt (s.declaration c) c.code i
  /-- It keeps every other token, but for those that it leaves out on either side. -/
  keeps : ∀ i, i + 1 < c.code.length →
    c.code[i]? = (s.declaration c)[(opening (s.declaration c)).length + i]? ∨
      (s.declaration c)[(opening (s.declaration c)).length + i]? = some .arrow ∧ c.code[i]? = some .grab

theorem Executes.fetch_eq {tok : Token} {ts : List Token} (h : Executes (tok :: ts) s u) : s.fetch = some tok := by
  cases h with
  | within hfetch => exact hfetch
  | call hfetch => exact hfetch

/-- The run of the declaration came to each of its tokens, and what it found there depends on the tokens before. -/
theorem DeclaredBetween.exists_arrives (h : DeclaredBetween text before declaration c s₀ w)
    (hi : i < declaration.length) : ∃ u, Arrives (Source.ofText text) (c.program.first + i) u ∧
      u.fetch = declaration[i]? ∧ u.current.readingName = readsAfter false (declaration.take i) ∧
      Tallied u.frames (openAfter false [] (declaration.take i)) := by
  have hexecutes := h.executes
  rw [← List.take_append_drop i declaration] at hexecutes
  obtain ⟨u, hfirst, hlast⟩ := hexecutes.split
  have herror₀ : s₀.error = none := by
    obtain ⟨n, hn⟩ := h.executes.exists_after
    exact error_eq_none_of_after hn h.declaring.error
  have hfirstIndex : c.program.first = s₀.current.program.first := by
    obtain ⟨_, _, _, _, _, _, _, _, rfl⟩ := h.declaring.ends
    rw [← h.executes.program_eq h.signature]
    rfl
  refine ⟨u, ⟨?_, hfirst.error_eq herror₀, ?_⟩, ?_, ?_, ?_⟩
  · obtain ⟨m, hm⟩ := h.reachable
    obtain ⟨n, hn⟩ := hfirst.exists_after
    exact ⟨m + n, after_trans hm hn⟩
  · rw [(hfirst.tokens_eq h.opens.pc).2, hfirstIndex, List.length_take_of_le (Nat.le_of_lt hi)]
  · rw [List.drop_eq_getElem_cons hi] at hlast
    rw [hlast.fetch_eq, List.getElem?_eq_getElem hi]
  · rw [hfirst.reading_eq, h.opens.reading]
  · have hclosed : Tallied s₀.frames [] := by
      rw [h.opens.frames]
      exact .nil
    have hu := hfirst.tallied (hfirst.grows.signature_eq hlast.grows h.signature) hclosed
    rwa [h.opens.reading] at hu

/-- So it can be read off the declaration where it executed an arrow in the scope of the parameters. -/
theorem DeclaredBetween.bindsParameter_iff (h : DeclaredBetween text before declaration c s₀ w)
    (hi : i < declaration.length) :
    (∃ u, Arrives (Source.ofText text) (c.program.first + i) u ∧ u.BindsParameter (isWrapped declaration)) ↔
      BindsAt declaration i := by
  obtain ⟨u, harrives, hfetch, hreading, htallied⟩ := h.exists_arrives hi
  have hu : u.BindsParameter (isWrapped declaration) ↔ BindsAt declaration i := by
    unfold BindsAt
    rw [← hfetch, ← hreading, ← htallied.map_shape]
    exact ⟨fun ⟨h₁, h₂, h₃⟩ => ⟨h₁, h₂, h₃⟩, fun ⟨h₁, h₂, h₃⟩ => ⟨h₁, h₂, h₃⟩⟩
  rw [← hu]
  refine ⟨fun ⟨u', harrives', hbinds⟩ => ?_, fun hbinds => ⟨u, harrives, hbinds⟩⟩
  rwa [harrives.eq harrives']

/-! ## The code of a declaration -/

theorem ofDeclaration_keeps (hi : i < (body declaration).length) :
    (ofDeclaration declaration)[i]? = declaration[(opening declaration).length + i]? ∨
      declaration[(opening declaration).length + i]? = some .arrow ∧ (ofDeclaration declaration)[i]? = some .grab := by
  rw [getElem?_body hi, getElem?_ofDeclaration hi, List.getElem?_eq_getElem hi, Option.map_some]
  split
  · rename_i harrow
    exact .inr ⟨by rw [harrow.1], rfl⟩
  · exact .inl rfl

/-- **The code of a constant follows the scopes exactly when its declaration is faithful.** -/
theorem Reachable.followsScopes_iff (h : Reachable text s) (hc : c ∈ s.signature) :
    s.FollowsScopes c ↔ Faithful (s.declaration c) := by
  obtain ⟨_, s₀, w, hrun⟩ := h.exists_declared hc
  have hcode := (h.wellPlaced.codes c hc).1
  have hbinds (i : Nat) (hi : i < (s.declaration c).length) := hrun.bindsParameter_iff hi
  constructor
  · intro hfollows i hi
    rw [← hbinds i hi, ← h.source_eq, hfollows.grabs i hi, hcode]
  · intro hfaithful
    refine ⟨fun i hi => ?_, fun i hi => ?_⟩
    · rw [h.source_eq, hbinds i hi, hfaithful i hi, ← hcode]
    · rw [hcode] at hi ⊢
      refine ofDeclaration_keeps ?_
      simpa [ofDeclaration, length_grabParameters] using hi

/-! ## Executing `grab` -/

/-- At a `grab` of a faithful code no scope is open. -/
theorem scopes_eq_nil_of_grab {σ : Signature} {a : Activation} {vs : List Value} {entry n : Nat}
    (hfaithful : Faithful declaration) (hcode : c.code = ofDeclaration declaration) (hentry : σ[entry]? = some c)
    (heval : Eval σ n (.start entry c) vs a) (hgrab : a.fetch σ = some .grab)
    (hscopes : ∀ sc ∈ a.scopes, sc.kind ≠ .decl) : a.scopes = [] := by
  obtain ⟨ts, hremaining, _, hopen⟩ := heval.openAfter_eq
  obtain ⟨more, hmore⟩ := remaining_of_fetch hgrab
  rw [remaining_start hentry, hcode, hmore] at hremaining
  have hat : (ofDeclaration declaration)[ts.length]? = some .grab := by simp [hremaining]
  have hlt := lt_length_of_grab hat
  have hts : grabParameters 0 ((body declaration).take ts.length) = ts := by
    rw [← take_grabParameters]
    have htake := congrArg (List.take ts.length) hremaining
    rwa [ofDeclaration, List.take_append_of_le_length (by rw [length_grabParameters]; omega), List.take_left] at htake
  -- The declaration is in the scope of its parameters there, and has the same scopes open.
  have hlength : (opening declaration).length + ts.length < declaration.length :=
    Nat.lt_of_lt_of_le (Nat.add_lt_add_left hlt _) (length_body_add_le declaration)
  obtain ⟨_, _, hscope⟩ := (hfaithful _ hlength).mpr ⟨Nat.le_add_right _ _, by rwa [Nat.add_sub_cancel_left]⟩
  rw [take_body (Nat.le_of_lt hlt), openAfter_opening, ← openAfter_grabParameters false _ 0, hts] at hscope
  have hlevels : Levels (isWrapped declaration) a.scopes.length (a.tallies (isWrapped declaration) (0 + vs.length)) :=
    ⟨a.scopes.map Scope.tally, _, rfl, List.length_map _, by simpa [Scope.tally] using hscopes⟩
  rw [show openAfter false (parameterScope (isWrapped declaration) 0) ts = _ from hopen _ 0] at hscope
  exact List.length_eq_zero_iff.mp (hlevels.inParameterScope_iff.mp hscope)

/-- **A state in the code of a constant is in an activation of it**, which has run from its start. -/
theorem Reachable.exists_activation {entry offset : Nat} (h : Reachable text s) (herror : s.error = none)
    (hpc : s.current.pc = .code entry offset) (hc : s.signature[entry]? = some c) :
    ∃ u rest a n vs, s = calling u entry c rest a ∧ Eval s.signature n (.start entry c) vs a ∧
      a.current.pc.inCode = true := by
  have hdepth : s.callDepth ≠ 0 := by
    rw [Ne, ← h.disciplined.inStream_iff, hpc]
    simp [Address.entry?]
  obtain ⟨n, hn⟩ := h
  obtain ⟨_, u, entry', c', m, _, _, hcalls, hnested⟩ :=
    exists_entered hn herror (show (ofText text).callDepth < s.callDepth from Nat.pos_of_ne_zero hdepth)
  obtain ⟨vs, rest, a, _, rfl, heval, hin⟩ := eval_of_nested hnested (enter_eq_calling u entry' c') hcalls.error rfl
  obtain rfl : entry = entry' := by
    have hentry := heval.entry?_eq
    rw [show a.current.pc = .code entry offset from hpc] at hentry
    exact Option.some.inj hentry
  obtain rfl : c = c' := Option.some.inj (hc.symm.trans hcalls.getElem?_eq)
  exact ⟨u, rest, a, m, vs, rfl, heval, hin⟩

/-- A declaration is never made inside a call. -/
theorem Disciplined.kind_ne_decl {rest : List Slot} {a : Activation} {entry : Nat}
    (h : (calling u entry c rest a).Disciplined) : ∀ sc ∈ a.scopes, sc.kind ≠ .decl := by
  intro sc hsc hkind
  obtain ⟨inner, outer, hsplit⟩ := List.append_of_mem hsc
  have hdecl := h.decl
  simp only [calling, hsplit, List.map_append, List.map_cons, List.append_assoc, List.cons_append] at hdecl
  have hnone := DeclOutermost.eq_nil hkind _ hdecl
  simp at hnone

/-- **A `grab` is executed in the code of a constant, and right inside a call if its declaration is faithful.** -/
theorem Reachable.call_of_grab (h : Reachable text s) (herror : s.error = none) (hfetch : s.fetch = some .grab) :
    ∃ entry offset c, s.current.pc = .code entry offset ∧ s.signature[entry]? = some c ∧
      (Faithful (s.declaration c) → ∃ call outer, s.frames = .call call :: outer) := by
  have hgrab := hfetch
  unfold fetch tokenAt? at hfetch
  split at hfetch
  · rw [h.source_eq] at hfetch
    exact absurd (List.mem_of_getElem? hfetch) (Source.not_mem_of_unspelled (.inl rfl))
  · rename_i entry offset hpc
    obtain ⟨c, hc, _⟩ := Option.bind_eq_some_iff.mp hfetch
    refine ⟨entry, offset, c, hpc, hc, fun hfaithful => ?_⟩
    have hcode := (h.wellPlaced.codes c (List.mem_of_getElem? hc)).1
    obtain ⟨u, rest, a, n, vs, rfl, heval, hin⟩ := h.exists_activation herror hpc hc
    rw [fetch_calling hin] at hgrab
    have hnil := scopes_eq_nil_of_grab hfaithful hcode hc heval hgrab h.disciplined.kind_ne_decl
    exact ⟨_, _, by rw [calling, hnil]; rfl⟩

/-! ## All constants of a program -/

/-- **The code of a constant follows the scopes that the run of its declaration opened, exactly when the declaration is
faithful.** It is when it reads no arrow, colon or bracket as a name. And a `grab` is executed in the code of a
constant, right inside a call if that code follows the scopes. -/
theorem code_follows_scopes_iff (h : Reachable text s) :
    (∀ c ∈ s.signature, (s.FollowsScopes c ↔ Faithful (s.declaration c)) ∧
      (PlainNames (s.declaration c) → s.FollowsScopes c)) ∧
    (s.error = none → s.fetch = some .grab → ∃ entry offset c, s.current.pc = .code entry offset ∧
      s.signature[entry]? = some c ∧ (s.FollowsScopes c → ∃ call outer, s.frames = .call call :: outer)) := by
  refine ⟨fun c hc => ⟨h.followsScopes_iff hc, fun hplain => (h.followsScopes_iff hc).mpr (hplain.faithful ?_)⟩, ?_⟩
  · exact fun hmem => Source.not_mem_of_unspelled (.inl rfl) (h.mem_of_mem_declaration hmem)
  · intro herror hfetch
    obtain ⟨entry, offset, c, hpc, hc, hcall⟩ := h.call_of_grab herror hfetch
    exact ⟨entry, offset, c, hpc, hc, fun hfollows =>
      hcall ((h.followsScopes_iff (List.mem_of_getElem? hc)).mp hfollows)⟩

/-- The code of `p` has `grab` for the two arrows that bind its parameters, and keeps the one in the inner parentheses.
The call of `p` is about to capture its second argument. -/
theorem code_follows_scopes_of_plain_names : ∃ s c call outer,
    Reachable "type : o . ( o : x -> ( o -> o ) -> type ) : p . o : k . [ o -> k ] k p" s ∧
      s.signature[1]? = some c ∧ s.FollowsScopes c ∧ s.current.pc = .code 1 9 ∧ s.fetch = some .grab ∧
      s.frames = .call call :: outer := by
  let run := (ofText "type : o . ( o : x -> ( o -> o ) -> type ) : p . o : k . [ o -> k ] k p").after
  let s := (run 64).getD default
  let c := s.signature.getD 1 default
  obtain ⟨hs, hc, hplain, herror, hpc, hfetch⟩ : run 64 = some s ∧ s.signature[1]? = some c ∧
      PlainNames (s.declaration c) ∧ s.error = none ∧ s.current.pc = .code 1 9 ∧ s.fetch = some .grab := by
    decide +kernel
  obtain ⟨hfollows, hgrab⟩ := code_follows_scopes_iff ⟨64, hs⟩
  have hc' := (hfollows c (List.mem_of_getElem? hc)).2 hplain
  obtain ⟨entry, offset, d, hpc', hd, hcall⟩ := hgrab herror hfetch
  obtain ⟨rfl, rfl⟩ : 1 = entry ∧ 9 = offset := by simpa [hpc] using hpc'
  obtain rfl := Option.some.inj (hc.symm.trans hd)
  obtain ⟨call, outer, hframes⟩ := hcall hc'
  exact ⟨s, c, call, outer, ⟨64, hs⟩, hc, hc', hpc, hfetch, hframes⟩

/-- The first arrow of the first declaration is the name of a parameter, and the code has `grab` for it. In the second
declaration such a name is a closing parenthesis; the code keeps the parentheses around the whole and has `grab` for the
arrow inside, so a call executes it in the scope that they open. -/
theorem misnamed_arrow_becomes_grab :
    (∃ s c, Reachable "type : -> -> type : f ." s ∧ c ∈ s.signature ∧ s.error = none ∧
      c.code = [.type, .colon, .grab, .grab, .type, .ret] ∧ ¬s.FollowsScopes c) ∧
    ∃ s sc outer, Reachable "( type : ) -> type ) : n . n" s ∧ s.error = none ∧ s.current.readingName = false ∧
      s.fetch = some .grab ∧ s.frames = .scope sc :: outer := by
  constructor
  · let s := ((ofText "type : -> -> type : f .").after 8).getD default
    let c := s.signature.getD 0 default
    obtain ⟨hs, hc, herror, hcode, hfaithful⟩ : (ofText "type : -> -> type : f .").after 8 = some s ∧
        c ∈ s.signature ∧ s.error = none ∧ c.code = [.type, .colon, .grab, .grab, .type, .ret] ∧
        ¬Faithful (s.declaration c) := by decide +kernel
    have hreachable : Reachable "type : -> -> type : f ." s := ⟨8, hs⟩
    exact ⟨s, c, hreachable, hc, herror, hcode, fun hfollows =>
      hfaithful ((hreachable.followsScopes_iff hc).mp hfollows)⟩
  · let s := ((ofText "( type : ) -> type ) : n . n").after 15).getD default
    obtain ⟨hs, herror, hreading, hfetch, hshape⟩ : (ofText "( type : ) -> type ) : n . n").after 15 = some s ∧
        s.error = none ∧ s.current.readingName = false ∧ s.fetch = some .grab ∧
        s.frames.map Frame.shape = [.scope .pi, .call] := by decide +kernel
    cases hframes : s.frames with
    | nil => simp [hframes] at hshape
    | cons frame outer =>
      cases frame with
      | call c => simp [hframes, Frame.shape] at hshape
      | scope sc => exact ⟨s, sc, outer, ⟨15, hs⟩, herror, hreading, hfetch, hframes⟩

end State

end Stepwise
