import Stepwise.Proofs.Contents
import Stepwise.Proofs.Instantiation
import Stepwise.Proofs.Record
import Stepwise.Proofs.Skeleton

/-!
# Calls go to older constants

Every constant of a reachable state was declared by a run that executed its declaration while only the constants before
it existed (`Reachable.recorded`). A call executes the code of the declaration, and the two executions have the same
skeleton (`Follows`): an identifier that calls a constant in the code called a constant in the declaration. When no two
constants have the same name, it is the same constant, and hence older than the one that was called
(`Reachable.calls_lt`).

One thing can break this. The code takes every arrow outside all brackets for a parameter, also one that the declaration
reads as a name, and then the name is `grab` in the code and `->` in the declaration. It matters if the declaration
mentions the name `grab` (`Code.Misnames`).
-/

namespace Stepwise

namespace Code

/-- The code reads other names than the declaration, and the declaration mentions a name that only the code reads. -/
def Misnames (declaration : List Token) : Prop :=
  namesRead false (grabParameters 0 (body declaration)) ≠ namesRead false (body declaration) ∧ .id "grab" ∈ declaration

instance (declaration : List Token) : Decidable (Misnames declaration) := inferInstanceAs (Decidable (_ ∧ _))

/-- The label of a name is the name, if the list mentions it. -/
def mentioned (ts : List Token) (x : Name) : Label := if .id x ∈ ts then some x else none

theorem told_mentioned {ts : List Token} {x : Name} (h : .id x ∈ ts) : Told (mentioned ts) x := by
  intro y
  unfold mentioned
  constructor
  · intro hy
    split at hy
    · exact Option.some.inj hy
    · cases hy
  · rintro rfl
    exact if_pos h

/-- The labels of the tokens that are read as names. -/
def labelsRead (label : Name → Label) (reading : Bool) (ts : List Token) : List Label :=
  (namesRead reading ts).map fun t => label t.text

/-- Only arrows are replaced, and only by `grab`. -/
theorem labelsRead_grabParameters {label : Name → Label} (h : label Token.grab.text = label Token.arrow.text) :
    ∀ (reading : Bool) (depth : Nat) (ts : List Token),
      labelsRead label reading (grabParameters depth ts) = labelsRead label reading ts
  | _, _, [] => rfl
  | reading, depth, t :: ts => by
    have ih (r : Bool) := labelsRead_grabParameters h r (t.depthAfter depth) ts
    unfold labelsRead at ih ⊢
    rcases grabParameters_cons_cases depth t ts with ⟨rfl, _, hgrab⟩ | hkeep
    · rw [hgrab]
      cases reading with
      | false => simpa [namesRead] using ih false
      | true => simpa [namesRead, h] using ih false
    · rw [hkeep, namesRead, namesRead, List.map_append, List.map_append, ih]

theorem labelsRead_eq_of_not_misnames {ts : List Token} (h : ¬Misnames ts) (harrow : .id Token.arrow.text ∉ ts) :
    labelsRead (mentioned ts) false (grabParameters 0 (body ts)) = labelsRead (mentioned ts) false (body ts) := by
  by_cases hsame : namesRead false (grabParameters 0 (body ts)) = namesRead false (body ts)
  · rw [labelsRead, hsame, labelsRead]
  · have hgrab : .id Token.grab.text ∉ ts := fun hmem => h ⟨hsame, hmem⟩
    refine labelsRead_grabParameters ?_ false 0 (body ts)
    rw [mentioned, if_neg hgrab, mentioned, if_neg harrow]

end Code

namespace State

open Activation Code

variable {s t u v w : State} {a b : Activation} {σ : Signature} {tok : Token} {ts post : List Token} {wrapped : Bool}
  {left : List Slot} {label : Name → Label} {text : String}

/-! ## A declaration and its code have the same skeleton -/

/-- From `u` on the declaration executes `ts` and `post`, and then is at `w`. The activation `a` has the skeleton of
`u`, and what stands for `ts` is left of its code. -/
structure Follows (σ : Signature) (label : Name → Label) (wrapped : Bool) (left : List Slot) (post : List Token)
    (w : State) (ts : List Token) (u : State) (a : Activation) : Prop where
  executes : Executes (ts ++ post) u w
  signature : w.signature = u.signature
  told : ∀ x, .id x ∈ ts → Told label x
  outlines : Outlines label wrapped left u (a.skeleton label)
  code : ∃ depth, a.remaining σ = grabParameters depth ts ++ [.ret] ∧
    labelsRead label u.current.readingName (grabParameters depth ts) = labelsRead label u.current.readingName ts

/-- The next instruction of the code is the token of the declaration, or `grab` for an arrow; read as a name, it has the
same label. -/
theorem Follows.fetch_cases (h : Follows σ label wrapped left post w (tok :: ts) u a) :
    ∃ tok', a.fetch σ = some tok' ∧ (tok' = tok ∨ tok = .arrow ∧ tok' = .grab) ∧
      (u.current.readingName = true → label tok'.text = label tok.text) := by
  obtain ⟨depth, hcode, hlabels⟩ := h.code
  rw [fetch_eq_head?, hcode]
  rcases grabParameters_cons_cases depth tok ts with ⟨rfl, _, hgrab⟩ | hkeep
  · refine ⟨.grab, by rw [hgrab]; rfl, .inr ⟨rfl, rfl⟩, fun hreading => ?_⟩
    rw [hgrab, hreading] at hlabels
    simpa [labelsRead, namesRead] using (List.cons.inj hlabels).1
  · exact ⟨tok, by rw [hkeep]; rfl, .inl rfl, fun _ => rfl⟩

/-- What is left to check when both have executed a token. -/
theorem Follows.advance (h : Follows σ label wrapped left post w (tok :: ts) u a)
    (hexecutes : Executes (ts ++ post) v w) (hsignature : v.signature = u.signature)
    (hreading : v.current.readingName = (!u.current.readingName && decide (tok = .colon)))
    (houtlines : Outlines label wrapped left v (b.skeleton label)) (hpc : a.current.pc.next? = some b.current.pc) :
    Follows σ label wrapped left post w ts v b where
  executes := hexecutes
  signature := h.signature.trans hsignature.symm
  told x hx := h.told x (List.mem_cons_of_mem _ hx)
  outlines := houtlines
  code := by
    obtain ⟨depth, hcode, hlabels⟩ := h.code
    refine ⟨tok.depthAfter depth, by rw [remaining_of_next? (a := a) hpc, hcode, grabParameters]; rfl, ?_⟩
    rw [hreading]
    rcases grabParameters_cons_cases depth tok ts with ⟨rfl, _, hgrab⟩ | hkeep
    · rw [hgrab] at hlabels
      cases hr : u.current.readingName with
      | false => simpa [labelsRead, namesRead, hr] using hlabels
      | true => simpa [labelsRead, namesRead, hr] using (List.cons.inj (hr ▸ hlabels)).2
    · rw [hkeep] at hlabels
      simp only [labelsRead, namesRead, List.map_append] at hlabels
      exact List.append_cancel_left hlabels

/-- A name that is a constant for the code is a constant for the declaration, and the same one. -/
theorem Follows.calls (h : Follows σ label wrapped left post w ts u a) (hgrown : w.signature <+: σ)
    (hnames : (σ.map (·.name)).Nodup) {entry : Nat} {c : Constant} (hcalls : a.Calls σ entry c) :
    ∃ x ts' n v, ts = .id x :: ts' ∧ u.Calls entry c ∧ u.Returns n v ∧ Executes (ts' ++ post) v w := by
  obtain ⟨x, hfetch, hlookup⟩ := hcalls.names
  cases ts with
  | nil =>
    obtain ⟨depth, hcode, _⟩ := h.code
    rw [fetch_eq_head?, hcode] at hfetch
    cases hfetch
  | cons tok ts =>
    obtain ⟨tok', htok', hcases, _⟩ := h.fetch_cases
    obtain rfl : tok' = .id x := Option.some.inj (htok'.symm.trans hfetch)
    obtain rfl : tok = .id x := (hcases.resolve_right (by simp)).symm
    have htold := h.told x List.mem_cons_self
    have hfree : ¬(a.skeleton label).Binds x := fun hbinds => lookup_ne_constant htold hbinds entry c hlookup
    have hresolve := (h.outlines.resolve_eq_none_iff htold).mpr hfree
    have hlookup' : u.lookup x = (u.signature.newest? x).map fun found => .constant found.1 found.2 := by
      rw [State.lookup, hresolve]
    have hreading : u.current.readingName = false := h.outlines.reading.symm.trans hcalls.reading
    have hexecutes := h.executes
    rw [List.cons_append] at hexecutes
    cases hexecutes with
    | within hfetch' hfirst =>
      cases hfirst with
      | name _ _ hname => simp [hreading] at hname
      | rule _ htok _ _ hrule =>
        obtain rfl := Option.some.inj (hfetch'.symm.trans htok)
        cases hrule with
        | captured hbound | bound hbound => simp [hlookup'] at hbound
        | extend htoken | grab htoken => simp at htoken
    | @call _ _ _ v _ entry' n c' hfetch' hcalls' hreturns hrest =>
      -- Both find the newest constant of the name, and there is only one.
      obtain ⟨y, hy, hconstant⟩ := hcalls'.names
      obtain rfl : y = x := by simpa [hfetch'] using hy.symm
      rw [hlookup', Option.map_eq_some_iff] at hconstant
      obtain ⟨⟨entry'', c''⟩, hfound, hsame⟩ := hconstant
      obtain ⟨rfl, rfl⟩ := Binding.constant.inj hsame
      rw [lookup_of_not_binds htold hfree, newest?_of_prefix (h.signature ▸ hgrown) hnames hfound] at hlookup
      obtain ⟨rfl, rfl⟩ := Binding.constant.inj (Option.some.inj hlookup)
      exact ⟨y, ts, n, v, rfl, hcalls', hreturns, hrest⟩

/-- **The declaration follows a step of the code.** -/
theorem Follows.of_step (h : Follows σ label wrapped left post w (tok :: ts) u a) {vs : List Value}
    (hstep : Step σ a vs b) : ∃ v, Follows σ label wrapped left post w ts v b := by
  obtain ⟨tok', hfetch', hcases, hlabel⟩ := h.fetch_cases
  have hreading' := h.outlines.reading
  have hexecutes := h.executes
  rw [List.cons_append] at hexecutes
  cases hexecutes with
  | @within _ _ _ v _ hfetch hfirst hrest =>
    have hsame := (Move.within hfirst).grows.signature_eq hrest.grows h.signature
    cases hfirst with
    | @name tok₁ _ _ htok₁ hreading =>
      obtain rfl := Option.some.inj (hfetch.symm.trans htok₁)
      cases hstep with
      | rule _ hexecuted => simp [Activation.skeleton, hexecuted, hreading] at hreading'
      | @name tok₂ _ htok₂ _ hpc =>
        obtain rfl := Option.some.inj (hfetch'.symm.trans htok₂)
        refine ⟨_, h.advance hrest hsame (by simp [hreading]) ⟨rfl, ?_, h.outlines.frames, h.outlines.stack⟩ hpc⟩
        simpa [Activation.skeleton] using hlabel hreading
    | @rule tok₁ _ _ _ htok₁ hreading _ hrule =>
      obtain rfl := Option.some.inj (hfetch.symm.trans htok₁)
      cases hstep with
      | name _ hname => simp [Activation.skeleton, hname, hreading] at hreading'
      | @rule tok₂ _ _ _ htok₂ hexecuted hpc hrule' =>
        obtain rfl := Option.some.inj (hfetch'.symm.trans htok₂)
        have hnext : (a.skeleton label).next? tok = some (b.skeleton label) := by
          rcases hcases with rfl | ⟨rfl, rfl⟩
          · exact hrule'.skeleton_eq
          · exact hrule'.skeleton_eq
        refine ⟨v, h.advance hrest hsame ?_ (h.outlines.of_rule hrule hsame hnext) ?_⟩
        · rcases hrule.current_cases hreading with ⟨_, _, _, hcolon⟩ | ⟨index, binders, y, _, _, hgrown, _⟩
          · rw [hcolon, hreading]
            rfl
          · simp [hgrown] at hsame
        · rw [(hrule'.outline hexecuted).2.1]
          exact hpc
  | @call x _ _ v _ entry n c hfetch hcalls hreturns hrest =>
    -- The code does not find a variable where the declaration found none.
    obtain rfl : tok' = .id x := hcases.resolve_right (by simp)
    have htold := h.told x List.mem_cons_self
    have hfree : ¬(a.skeleton label).Binds x := by
      rw [← h.outlines.resolve_eq_none_iff htold]
      obtain ⟨y, hy, hlookup⟩ := hcalls.names
      obtain rfl : y = x := by simpa [hfetch] using hy.symm
      cases hresolve : resolve u.current.pc.inCode y u.frames with
      | none => rfl
      | some found =>
        rw [State.lookup, hresolve] at hlookup
        exact absurd (hresolve.trans hlookup) (resolve_ne_constant _ _ _ _ _)
    have hlookup := lookup_of_not_binds (σ := σ) htold hfree
    cases hstep with
    | name _ hname => simp [Activation.skeleton, hname, hcalls.reading] at hreading'
    | rule htok₂ _ _ hrule' =>
      obtain rfl := Option.some.inj (hfetch'.symm.trans htok₂)
      cases hrule' with
      | captured hbound | bound hbound => simp [hlookup] at hbound
      | extend htoken | grab htoken => simp at htoken

/-- **The declaration follows a call of the code.** It captures equally many values in both. -/
theorem Follows.of_calls (h : Follows σ label wrapped left post w ts u a) (hgrown : w.signature <+: σ)
    (hnames : (σ.map (·.name)).Nodup) {entry m : Nat} {c : Constant} {vs rest : List Value} {r : Value} {pc : Address}
    (hcalls : a.Calls σ entry c) (hbody : Eval σ m (.start entry c) vs b) (hreturning : b.Returning σ r)
    (hvalues : a.values = vs ++ rest) (hpc : a.current.pc.next? = some pc) :
    ∃ ts' v, Follows σ label wrapped left post w ts' v
      { a with current.pc := pc, values := result c vs r :: rest } := by
  obtain ⟨x, ts', n, v, rfl, hcalls', hreturns, hrest⟩ := h.calls hgrown hnames hcalls
  obtain ⟨m', ws, below, b', r', pc', _, hbody', hreturning', hstack, _, rfl⟩ := hcalls'.returns_iff_eval.mp hreturns
  have hentry : σ[entry]? = some c := getElem?_of_prefix (h.signature ▸ hgrown) hcalls'.getElem?_eq
  have hlength : ws.length = vs.length :=
    Eval.length_eq_length hcalls'.getElem?_eq hentry hbody' hreturning' hbody hreturning
  have hle : ws.length ≤ (a.skeleton label).values.length := by simp [Activation.skeleton, hvalues, hlength]
  refine ⟨ts', _, h.advance hrest rfl (by simp [hcalls'.reading]) ?_ hpc⟩
  rw [skeleton_of_call hvalues, ← hlength]
  exact h.outlines.of_call hstack hle _ rfl

/-- **The calls that a code makes are calls that the declaration made.** -/
theorem Follows.calls_lt (h : Follows σ label wrapped left post w ts u a) (hgrown : w.signature <+: σ)
    (hnames : (σ.map (·.name)).Nodup) {n entry : Nat} {vs : List Value} {c : Constant} (heval : Eval σ n a vs b)
    (hcalls : b.Calls σ entry c) : entry < w.signature.length := by
  induction heval generalizing ts u with
  | nil a =>
    obtain ⟨_, _, _, _, _, hcalls', _⟩ := h.calls hgrown hnames hcalls
    rw [h.signature]
    exact (List.getElem?_eq_some_iff.mp hcalls'.getElem?_eq).1
  | step hfirst hrest ih =>
    cases ts with
    | cons tok ts =>
      obtain ⟨v, hv⟩ := h.of_step hfirst
      exact ih hv hcalls
    | nil =>
      -- The code is at its `ret`, which it can only read as a name, and then it is at its end.
      obtain ⟨depth, hcode, _⟩ := h.code
      obtain ⟨x, hx, _⟩ := hcalls.names
      have hsome := hrest.fetch_isSome (by rw [hx]; rfl)
      cases hfirst with
      | name _ _ hpc =>
        rw [fetch_eq_head?, remaining_of_next? (a := _) hpc, hcode] at hsome
        cases hsome
      | rule hfetch hreading _ hrule =>
        rw [fetch_eq_head?, hcode] at hfetch
        obtain rfl := Option.some.inj hfetch
        exact absurd rfl (hrule.outline hreading).2.2.2.2
  | call hcalls' hbody hreturning hvalues hpc _ _ ih =>
    obtain ⟨ts', v, hv⟩ := h.of_calls hgrown hnames hcalls' hbody hreturning hvalues hpc
    exact ih hv hcalls

/-! ## The constants that a code calls -/

/-- The code of a declaration calls only constants that were there when it was declared. -/
theorem calls_lt_of_executes {s₀ : State} {declaration : List Token} {c d : Constant} {i j n : Nat} {vs : List Value}
    (hopens : s₀.Opens) (hexecutes : Executes declaration s₀ w) (hsignature : w.signature = s₀.signature)
    (hcode : c.code = ofDeclaration declaration) (hmisnames : ¬Misnames declaration)
    (harrow : .id Token.arrow.text ∉ declaration) (hentry : σ[i]? = some c) (hgrown : w.signature <+: σ)
    (hnames : (σ.map (·.name)).Nodup) (heval : Eval σ n (.start i c) vs b) (hcalls : b.Calls σ j d) :
    j < w.signature.length := by
  let label := mentioned declaration
  have htold (x : Name) (hx : .id x ∈ body declaration) : Told label x := told_mentioned (mem_of_mem_body hx)
  have hremaining : (Activation.start i c).remaining σ = grabParameters 0 (body declaration) ++ [.ret] := by
    rw [remaining_start hentry, hcode, ofDeclaration]
  have hlabels := labelsRead_eq_of_not_misnames hmisnames harrow
  rcases body_cases declaration with ⟨post, _, hdeclaration⟩ | ⟨inner, outer, _, _, hdeclaration⟩
  · rw [hdeclaration] at hexecutes
    have houtlines : Outlines label false s₀.stack s₀ ((Activation.start i c).skeleton label) :=
      ⟨hopens.reading.symm, by rw [hopens.name]; rfl, ⟨[], [], [], hopens.frames, .plain, rfl, rfl⟩, ⟨[], rfl, rfl⟩⟩
    have hfollows : Follows σ label false s₀.stack post w (body declaration) s₀ (.start i c) :=
      ⟨hexecutes, hsignature, htold, houtlines, 0, hremaining, by rw [hopens.reading]; exact hlabels⟩
    exact hfollows.calls_lt hgrown hnames heval hcalls
  · rw [hdeclaration] at hexecutes
    obtain ⟨u, pc, _, _, hrest, hu⟩ := hexecutes.of_lparen hopens.reading
    have houtlines : Outlines label true s₀.stack u ((Activation.start i c).skeleton label) := by
      rw [hu]
      exact ⟨hopens.reading.symm, by rw [hopens.name]; rfl,
        ⟨[], [.scope ⟨.pi, s₀.current.pc, []⟩], [], by rw [hopens.frames]; rfl, .wrapped rfl, rfl, rfl⟩, ⟨[], rfl, rfl⟩⟩
    have hreading : u.current.readingName = false := by rw [hu]; exact hopens.reading
    have hfollows : Follows σ label true s₀.stack (inner ++ .rparen :: outer) w (body declaration) u (.start i c) :=
      ⟨hrest, by rw [hu]; exact hsignature, htold, houtlines, 0, hremaining, by rw [hreading]; exact hlabels⟩
    exact hfollows.calls_lt hgrown hnames heval hcalls

/-- **Where no two constants have the same name and no declaration misnames a parameter, a call goes to a constant older
than the one whose code makes it.** -/
theorem Reachable.calls_lt (h : Reachable text s) (hnames : (s.signature.map (·.name)).Nodup) {c d : Constant}
    {i j n : Nat} {vs : List Value} (hc : s.signature[i]? = some c) (hmisnames : ¬Misnames (s.declaration c))
    (heval : Eval s.signature n (.start i c) vs b) (hcalls : b.Calls s.signature j d) : j < i := by
  obtain ⟨s₀, w, hrun⟩ := h.recorded.declared i c hc
  have harrow : .id Token.arrow.text ∉ s.declaration c := by
    intro hmem
    exact absurd (Source.ofAtom_of_id_mem (h.mem_of_mem_declaration hmem)) (by decide)
  have hlt := calls_lt_of_executes hrun.opens hrun.executes hrun.signature
    (h.wellPlaced.codes c (List.mem_of_getElem? hc)).1 hmisnames harrow hc
    (by rw [hrun.signature, hrun.before]; exact List.take_prefix _ _) hnames heval hcalls
  rw [hrun.signature, hrun.before, List.length_take] at hlt
  omega

end State

end Stepwise
