import Mathlib.Logic.ExistsUnique
import Stepwise.Debugger
import Stepwise.Proofs.Discipline

/-!
# The history of the signature

A constant is added to the signature by the dot that ends its declaration, and by nothing else
(`Disciplined.signature_of_step`). That dot is executed in the token stream, when no call is in progress and no scope
but that of the declaration is open; no dot is taken for the end of a declaration anywhere else
(`Disciplined.exec_ne_outsideStream`).

Hence the declarations of the constants follow each other in the token stream without gap or overlap (`Tiles`), up to
the beginning of the declaration that the outermost control reads. `signature_history` puts this together.
-/

namespace Stepwise

/-! ## Consecutive declarations -/

/-- The spans of the constants follow each other without gap or overlap, from the index `first` to the one before
`next`. -/
def Tiles : Nat → Signature → Nat → Prop
  | first, [], next => first = next
  | first, c :: cs, next => c.program.first = first ∧ first ≤ c.program.last ∧ Tiles (c.program.last + 1) cs next

namespace Tiles

variable {c d : Constant} {i : Nat}

theorem concat : ∀ {cs : Signature} {first next : Nat}, Tiles first cs next → c.program.first = next →
    next ≤ c.program.last → Tiles first (cs ++ [c]) (c.program.last + 1)
  | [], _, _, rfl, hfirst, hlast => ⟨hfirst, hlast, rfl⟩
  | _ :: _, _, _, ⟨hfirst, hle, hrest⟩, hc, hlast => ⟨hfirst, hle, hrest.concat hc hlast⟩

theorem le : ∀ {cs : Signature} {first next : Nat}, Tiles first cs next → first ≤ next
  | [], _, _, h => Nat.le_of_eq h
  | _ :: _, _, _, ⟨_, hle, hrest⟩ => by
    have := hrest.le
    omega

theorem first_eq {cs : Signature} {first next : Nat} (h : Tiles first cs next) (hc : cs[0]? = some c) :
    c.program.first = first := by
  cases cs with
  | nil => simp at hc
  | cons d cs =>
    cases hc
    exact h.1

theorem first_eq_succ : ∀ {cs : Signature} {first next j : Nat}, Tiles first cs next → cs[j]? = some c →
    cs[j + 1]? = some d → d.program.first = c.program.last + 1
  | [], _, _, _, _, hc, _ => by simp at hc
  | _ :: _, _, _, 0, ⟨_, _, hrest⟩, hc, hd => by
    cases hc
    exact hrest.first_eq hd
  | _ :: _, _, _, _ + 1, ⟨_, _, hrest⟩, hc, hd => hrest.first_eq_succ hc hd

theorem next_eq : ∀ {cs : Signature} {first next : Nat}, Tiles first cs next →
    next = cs.getLast?.elim first (·.program.last + 1)
  | [], _, _, h => h.symm
  | c :: cs, _, _, ⟨_, _, hrest⟩ => by
    rw [hrest.next_eq, List.getLast?_cons]
    cases cs.getLast? <;> rfl

/-- The span of a constant lies within the tiled part. -/
theorem mem_bounds : ∀ {cs : Signature} {first next j : Nat}, Tiles first cs next → cs[j]? = some c →
    i ∈ c.program → first ≤ i ∧ i < next
  | [], _, _, _, _, hc, _ => by simp at hc
  | _ :: _, _, _, 0, ⟨hfirst, _, hrest⟩, hc, hi => by
    cases hc
    have := hrest.le
    rw [Span.mem_def] at hi
    omega
  | _ :: _, _, _, _ + 1, ⟨_, hle, hrest⟩, hc, hi => by
    have := hrest.mem_bounds hc hi
    omega

/-- No index lies in the spans of two constants. -/
theorem index_eq : ∀ {cs : Signature} {first next j k : Nat}, Tiles first cs next → cs[j]? = some c →
    cs[k]? = some d → i ∈ c.program → i ∈ d.program → j = k
  | [], _, _, _, _, _, hc, _, _, _ => by simp at hc
  | _ :: _, _, _, 0, 0, _, _, _, _, _ => rfl
  | _ :: _, _, _, 0, _ + 1, ⟨_, _, hrest⟩, hc, hd, hi, hi' => by
    cases hc
    have := hrest.mem_bounds hd hi'
    rw [Span.mem_def] at hi
    omega
  | _ :: _, _, _, _ + 1, 0, ⟨_, _, hrest⟩, hc, hd, hi, hi' => by
    cases hd
    have := hrest.mem_bounds hc hi
    rw [Span.mem_def] at hi'
    omega
  | _ :: _, _, _, _ + 1, _ + 1, ⟨_, _, hrest⟩, hc, hd, hi, hi' => by rw [hrest.index_eq hc hd hi hi']

/-- Every index of the tiled part lies in the span of a constant. -/
theorem exists_mem : ∀ {cs : Signature} {first next : Nat}, Tiles first cs next → first ≤ i → i < next →
    ∃ (j : Nat) (c : Constant), cs[j]? = some c ∧ i ∈ c.program
  | [], _, _, h, hfirst, hnext => by
    rw [Tiles] at h
    omega
  | c :: _, _, _, ⟨hc, _, hrest⟩, hfirst, hnext => by
    by_cases hlast : i ≤ c.program.last
    · exact ⟨0, c, rfl, Span.mem_def.mpr ⟨by omega, hlast⟩⟩
    · obtain ⟨j, d, hd, hi⟩ := hrest.exists_mem (by omega) hnext
      exact ⟨j + 1, d, hd, hi⟩

end Tiles

namespace State

variable {s t : State} {text : String}

/-! ## No declaration ends outside the token stream -/

/-- The operation does not complain that a declaration ends outside the token stream. -/
def InStream {α : Type} (x : Except Failure α) : Prop := ∀ during, x ≠ stuck (.outsideStream during)

section Operations

variable {α β : Type} (tok : Token)

theorem inStream_ok (a : α) : InStream (.ok a) := fun _ h => by cases h

theorem InStream.bind {x : Except Failure α} {f : α → Except Failure β} (hx : InStream x)
    (hf : ∀ a, InStream (f a)) : InStream (x >>= f) := by
  cases x with
  | error failure =>
    intro during h
    cases h
    exact hx during rfl
  | ok a => exact hf a

theorem takeValue_inStream (s : State) : InStream (s.takeValue tok) := by
  unfold takeValue
  split <;> intro during h <;> cases h

theorem takeControl_inStream (s : State) : InStream (s.takeControl tok) := by
  unfold takeControl
  split <;> intro during h <;> cases h

theorem takeType_inStream (s : State) : InStream (s.takeType tok) := by
  refine (takeValue_inStream tok s).bind fun p => ?_
  dsimp only
  split <;> intro during h <;> cases h

theorem extend_inStream (s : State) (sc : Scope) (outer : List Frame) : InStream (s.extend sc outer tok) :=
  (takeType_inStream tok s).bind fun _ => inStream_ok _

theorem grab_inStream (s : State) : InStream (s.grab tok) := by
  unfold grab
  split
  · intro during h
    cases h
  · intro during h
    cases h
  · refine (takeType_inStream tok s).bind fun p => (takeControl_inStream tok p.2).bind fun q =>
      (takeValue_inStream tok q.2).bind fun r => ?_
    dsimp only
    split <;> intro during h <;> cases h

end Operations

/-- A dot complains so only if it ends a declaration and is executed in code. -/
theorem declares_of_bindTop {during : Token} (h : s.bindTop .dot = stuck (.outsideStream during)) :
    (∃ binders outer, Declares s.frames binders outer) ∧ s.current.pc.entry? ≠ none := by
  have hdefine (binders : List (Option Name × Expr)) (outer : List Frame)
      (hstuck : s.define binders outer = stuck (.outsideStream during)) : s.current.pc.entry? ≠ none := by
    unfold define at hstuck
    split at hstuck
    · rename_i hpc
      simp [hpc, Address.entry?]
    · refine absurd hstuck ((takeType_inStream .dot s).bind (fun p => ?_) during)
      dsimp only
      split <;> intro during h <;> cases h
  unfold bindTop at h
  split at h
  · exact absurd h (grab_inStream .dot s during)
  · rename_i sc outer hframes
    split at h
    · rename_i hdecl
      exact ⟨⟨sc.telescope, outer, hframes ▸ .scope hdecl.1⟩, hdefine _ _ h⟩
    · exact absurd h (extend_inStream .dot s sc outer during)
  · rename_i hframes
    exact ⟨⟨[], [], hframes ▸ .plain⟩, hdefine _ _ h⟩

/-- Where a declaration can end, the scope of the declaration is the only frame, if there is one. -/
theorem Disciplined.outer_eq_nil (hs : s.Disciplined) {binders : List (Option Name × Expr)} {outer : List Frame}
    (h : Declares s.frames binders outer) : outer = [] ∧ s.openCalls = [] := by
  have hdecl := hs.decl
  unfold openCalls
  generalize s.frames = frames at h hdecl
  cases h with
  | plain => exact ⟨rfl, rfl⟩
  | scope hkind =>
    obtain rfl := hdecl.1 hkind
    exact ⟨rfl, rfl⟩

/-- **No instruction complains that a declaration ends outside the token stream.** -/
theorem Disciplined.exec_ne_outsideStream (hs : s.Disciplined) (tok during : Token) :
    s.exec tok ≠ .error (.error (.outsideStream during)) := by
  intro h
  obtain rfl : tok = .dot := by
    cases exec_refuses s tok h
    rfl
  have heffect : s.effect .dot = stuck (.outsideStream during) := by
    unfold exec at h
    cases he : s.effect .dot with
    | error failure =>
      rw [he] at h
      cases h
      rfl
    | ok effect =>
      rw [he] at h
      cases effect with
      | next u =>
        change some <$> u.advance = _ at h
        unfold advance at h
        split at h <;> cases h
      | jump u => cases h
      | halt => cases h
  have hbind : s.bindTop .dot = stuck (.outsideStream during) := by
    unfold effect at heffect
    split at heffect
    · cases heffect
    · cases hb : s.bindTop .dot <;> rw [hb] at heffect <;> cases heffect
      rfl
  obtain ⟨⟨binders, outer, hframes⟩, hcode⟩ := declares_of_bindTop hbind
  rw [hs.entry?_current, (hs.outer_eq_nil hframes).2] at hcode
  exact hcode rfl

/-! ## One step -/

/-- The control that reads the token stream: the current one, or the one that the outermost call saved. -/
def outermost (s : State) : Control := s.savedControls.head?.getD s.current

/-- The step from `s` to `t` executes the dot that ends the declaration of `c`. -/
structure Appends (s t : State) (c : Constant) : Prop where
  fetch : s.fetch = some .dot
  reading : s.current.readingName = false
  inStream : s.current.pc = .stream c.program.last
  depth : s.callDepth = 0
  frames : t.frames = []
  signature : t.signature = s.signature ++ [c]
  first : c.program.first = s.outermost.program.first
  last : c.program.first ≤ c.program.last
  next : t.outermost.program.first = c.program.last + 1

theorem outermost_of_savedControls (h : s.savedControls = []) : s.outermost = s.current := by
  rw [outermost, h]
  rfl

/-- In the token stream no control is saved, so the outermost one is the current one. -/
theorem outermost_of_stream {index : Nat} (hlevel : Levelled s.current.pc.inCode s.stack)
    (hpc : s.current.pc = .stream index) : s.outermost = s.current := by
  rw [hpc] at hlevel
  refine outermost_of_savedControls (List.length_eq_zero_iff.mp ?_)
  rw [length_savedControls]
  exact countP_isSaved_of_levelled hlevel

theorem Within.outermost_program_eq (h : Within s t) (hsignature : t.signature = s.signature) :
    t.outermost.program = s.outermost.program := by
  unfold outermost
  rw [h.savedControls_eq]
  cases s.savedControls.head? with
  | none => exact h.program_eq hsignature
  | some k => rfl

theorem outermost_enter (s : State) (entry : Nat) (c : Constant) : (s.enter entry c).outermost = s.outermost := by
  unfold outermost
  rw [savedControls_enter, List.head?_append]
  cases s.savedControls.head? <;> rfl

theorem Leaves.outermost_program_eq (h : Leaves s t) : t.outermost.program = s.outermost.program := by
  obtain ⟨caller, _, pc, _, hcurrent, hcontrols, _⟩ := h.exists_innermost
  unfold outermost
  rw [hcontrols, hcurrent, List.head?_append]
  cases t.savedControls.head? <;> rfl

/-- A step keeps the signature and the declaration that the outermost control reads, or it ends that declaration. -/
theorem Disciplined.signature_of_step (hs : s.Disciplined) (h : s.step = .ok (some t)) :
    t.signature = s.signature ∧ t.outermost.program = s.outermost.program ∨ ∃ c, s.Appends t c := by
  rcases step_cases h with hmove | ⟨_, e, rfl⟩
  · cases hmove with
    | within h =>
      have hcontrols := h.savedControls_eq
      have hsame := h.outermost_program_eq
      cases h with
      | name => exact .inl ⟨rfl, hsame rfl⟩
      | rule _ hfetch hreading _ hrule =>
        cases hrule with
        | @define v rest binders outer index hpc _ _ hframes hspan =>
          obtain ⟨rfl, hcalls⟩ := hs.outer_eq_nil hframes
          have hdepth : s.callDepth = 0 := by rw [← hs.length_openCalls, hcalls, List.length_nil]
          have hnone : s.savedControls = [] := by
            rw [← List.length_eq_zero_iff, length_savedControls, hdepth]
          rw [hnone] at hcontrols
          refine .inr ⟨s.declared index binders v, hfetch, hreading, hpc, hdepth, rfl, rfl, ?_, hspan.1, ?_⟩
          · rw [outermost_of_savedControls hnone]
            rfl
          · rw [outermost_of_savedControls hcontrols]
            rfl
        | _ => exact .inl ⟨rfl, hsame rfl⟩
    | enter h =>
      obtain ⟨entry, c, _, rfl⟩ := h
      exact .inl ⟨rfl, by rw [outermost_enter]⟩
    | leave h =>
      obtain ⟨_, _, _, _, _, _, _, _, hsignature⟩ := h.exists_innermost
      exact .inl ⟨hsignature, h.outermost_program_eq⟩
  · exact .inl ⟨rfl, rfl⟩

/-! ## The whole run -/

/-- What the steps keep: the declarations of the constants reach up to the one that is being read, and each ends in a
dot. -/
structure Tiled (s : State) : Prop where
  tiles : Tiles 0 s.signature s.outermost.program.first
  dots : ∀ c ∈ s.signature, s.source.tokens[c.program.last]? = some .dot

theorem Tiled.of_step (hs : s.Tiled) (hdisciplined : s.Disciplined) (h : s.step = .ok (some t)) : t.Tiled := by
  have hsource := (grows_of_step h).source
  rcases hdisciplined.signature_of_step h with ⟨hsignature, hprogram⟩ | ⟨c, happends⟩
  · refine ⟨?_, ?_⟩
    · rw [hsignature, hprogram]
      exact hs.tiles
    · rw [hsignature, hsource]
      exact hs.dots
  · refine ⟨?_, fun d hd => ?_⟩
    · rw [happends.signature, happends.next]
      exact hs.tiles.concat happends.first (happends.first ▸ happends.last)
    · rw [hsource]
      rw [happends.signature, List.mem_append, List.mem_singleton] at hd
      rcases hd with hd | rfl
      · exact hs.dots d hd
      · have hfetch := happends.fetch
        rwa [fetch, happends.inStream] at hfetch

theorem tiled_ofText (text : String) : (ofText text).Tiled where
  tiles := rfl
  dots _ hc := nomatch hc

theorem Reachable.tiled (h : Reachable text s) : s.Tiled :=
  h.induction_reachable (tiled_ofText text) fun _ _ hreachable hs hstep => hs.of_step hreachable.disciplined hstep

theorem highlights_constant_iff {j index : Nat} :
    s.highlights (.constant j) index = true ↔ ∃ c, s.signature[j]? = some c ∧ index ∈ c.program := by
  simp only [highlights]
  cases hj : s.signature[j]? with
  | none => simp
  | some c => simp

/-- The constants of a state cover the tokens before the declaration that is being read. -/
structure Covered (s : State) : Prop where
  first : ∀ c, s.signature[0]? = some c → c.program.first = 0
  next : ∀ (j : Nat) (c d : Constant), s.signature[j]? = some c → s.signature[j + 1]? = some d →
    d.program.first = c.program.last + 1
  dot : ∀ c ∈ s.signature, s.source.tokens[c.program.last]? = some .dot
  code : ∀ c ∈ s.signature, c.code = Code.ofDeclaration (s.declaration c)
  /-- The outermost control reads the declaration behind the last one, or the first declaration. -/
  outermost : s.outermost.program.first = s.signature.getLast?.elim 0 (·.program.last + 1)
  /-- No token belongs to two constants. -/
  highlights_unique : ∀ index j k : Nat, s.highlights (.constant j) index = true →
    s.highlights (.constant k) index = true → j = k
  /-- The tokens of the finished declarations, and no others, belong to one. -/
  highlights_iff : ∀ index : Nat, (∃! j, s.highlights (.constant j) index = true) ↔ index < s.outermost.program.first

theorem Tiled.covered (hs : s.Tiled) (hplaced : s.WellPlaced) : s.Covered where
  first _ := hs.tiles.first_eq
  next _ _ _ := hs.tiles.first_eq_succ
  dot := hs.dots
  code c hc := (hplaced.codes c hc).1
  outermost := hs.tiles.next_eq
  highlights_unique index j k hj hk := by
    obtain ⟨c, hc, hmem⟩ := highlights_constant_iff.mp hj
    obtain ⟨d, hd, hmem'⟩ := highlights_constant_iff.mp hk
    exact hs.tiles.index_eq hc hd hmem hmem'
  highlights_iff index := by
    constructor
    · rintro ⟨j, hj, -⟩
      obtain ⟨c, hc, hmem⟩ := highlights_constant_iff.mp hj
      exact (hs.tiles.mem_bounds hc hmem).2
    · intro hlt
      obtain ⟨j, c, hc, hmem⟩ := hs.tiles.exists_mem (Nat.zero_le index) hlt
      refine ⟨j, highlights_constant_iff.mpr ⟨c, hc, hmem⟩, fun k hk => ?_⟩
      obtain ⟨d, hd, hmem'⟩ := highlights_constant_iff.mp hk
      exact hs.tiles.index_eq hd hc hmem' hmem

/-- **Along every run, a step keeps the signature or appends the constant whose declaration ends at its dot; no
instruction complains of a declaration that ends elsewhere; and the declarations cover what has been read.** -/
theorem signature_history (h : Reachable text s) :
    (∀ t, s.step = .ok (some t) → t.signature = s.signature ∨ ∃ c, s.Appends t c) ∧
      (∀ tok during, s.exec tok ≠ .error (.error (.outsideStream during))) ∧ s.Covered := by
  have hs := h.disciplined
  refine ⟨fun t hstep => ?_, hs.exec_ne_outsideStream, h.tiled.covered h.wellPlaced⟩
  exact (hs.signature_of_step hstep).imp_left And.left

/-- Behind three declarations `p` is called, and its code has called `o`: the dot of the second declaration belongs to
the second constant and to no other. -/
theorem signature_history_in_nested_calls :
    ∃ s, Reachable "type : o . ( o : x -> type ) : p . o : k . k p" s ∧ s.callDepth = 2 ∧
      s.outermost.program.first = 18 ∧ s.highlights (.constant 1) 13 = true ∧
      (∃! j, s.highlights (.constant j) 13 = true) ∧ s.Covered := by
  let run := (ofText "type : o . ( o : x -> type ) : p . o : k . k p").after
  let s := (run 30).getD default
  obtain ⟨hreachable, hdepth, hfirst, hlight⟩ : run 30 = some s ∧ s.callDepth = 2 ∧
      s.outermost.program.first = 18 ∧ s.highlights (.constant 1) 13 = true := by decide +kernel
  obtain ⟨_, _, hcovered⟩ := signature_history ⟨30, hreachable⟩
  exact ⟨s, ⟨30, hreachable⟩, hdepth, hfirst, hlight, (hcovered.highlights_iff 13).mpr (by omega), hcovered⟩

end State

end Stepwise
