import Stepwise.Proofs.Continuation
import Stepwise.Proofs.Mirror

/-!
# Two executions of the same tokens

The tokens of a declaration may be executed with a parenthesis before them or without. Then the instructions are at
other addresses, and the parameters are in another frame, but nothing else differs: names refer to the same, scopes bind
the same and the stacks are equal (`Alike`). Hence what the one execution can do the other can do too, for every
instruction (`Alike.of_rule`), every call (`Alike.of_calls`) and every list of tokens that has no bracket or dot that
would act on the frame of the parameters (`Alike.of_executes`).
-/

namespace Stepwise

namespace Code

/-- The list closes the brackets opened in it and the `depth` ones open before it, and no others; outside all of them it
has no dot. -/
def Contained : Nat → List Token → Prop
  | depth, [] => depth = 0
  | depth, t :: ts => (depth = 0 → t ≠ .dot ∧ t.isClosing = false) ∧ Contained (t.depthAfter depth) ts

instance decidableContained : ∀ (depth : Nat) (ts : List Token), Decidable (Contained depth ts)
  | depth, [] => inferInstanceAs (Decidable (depth = 0))
  | depth, t :: ts =>
    have := decidableContained (t.depthAfter depth) ts
    inferInstanceAs (Decidable ((depth = 0 → t ≠ .dot ∧ t.isClosing = false) ∧ Contained (t.depthAfter depth) ts))

end Code

namespace State

open Code

/-! ## States that are alike -/

/-- The frames of the two executions, with `depth` scopes open in the tokens: they bind the same, but the instructions
that did so may differ. -/
inductive Matched (wrapped wrapped' : Bool) : Nat → List Frame → List Frame → Prop
  | base {frames frames' : List Frame} {params : List (Option Name × Expr)} (h : Base wrapped frames params)
      (h' : Base wrapped' frames' params) : Matched wrapped wrapped' 0 frames frames'
  | scope {depth : Nat} {frames frames' : List Frame} {sc sc' : Scope} (hkind : sc.kind = sc'.kind)
      (hdecl : sc.kind ≠ .decl) (htelescope : sc.telescope = sc'.telescope)
      (h : Matched wrapped wrapped' depth frames frames') :
      Matched wrapped wrapped' (depth + 1) (.scope sc :: frames) (.scope sc' :: frames')

/-- The state is in the declaration that began at `s₀`. -/
def Continues (s₀ w : State) : Prop :=
  w.error = none ∧ w.signature = s₀.signature ∧ w.current.program = s₀.current.program

/-- Two states in executions of the same tokens, at the same place. -/
structure Alike (s₀ : State) (wrapped wrapped' : Bool) (depth : Nat) (w w' : State) : Prop where
  left : Continues s₀ w
  right : Continues s₀ w'
  reading : w.current.readingName = w'.current.readingName
  name : w.current.name = w'.current.name
  stack : w.stack = w'.stack
  frames : Matched wrapped wrapped' depth w.frames w'.frames

variable {s₀ s t u v w w' : State} {wrapped wrapped' : Bool} {depth : Nat} {pc : Address} {tok : Token}
  {ts more : List Token} {params : List (Option Name × Expr)} {frames frames' : List Frame}

theorem Matched.symm (h : Matched wrapped wrapped' depth frames frames') :
    Matched wrapped' wrapped depth frames' frames := by
  induction h with
  | base h h' => exact .base h' h
  | scope hkind hdecl htelescope _ ih => exact .scope hkind.symm (hkind ▸ hdecl) htelescope.symm ih

theorem Matched.push {sc sc' : Scope} {b b' : Binder}
    (h : Matched wrapped wrapped' (depth + 1) (.scope sc :: frames) (.scope sc' :: frames')) (hname : b.name = b'.name)
    (htype : b.type = b'.type) :
    Matched wrapped wrapped' (depth + 1) (.scope (sc.push b) :: frames) (.scope (sc'.push b') :: frames') := by
  cases h with
  | scope hkind hdecl htelescope h =>
    exact .scope hkind hdecl (by rw [Scope.telescope_push, Scope.telescope_push, htelescope, hname, htype]) h

/-- Inside a scope of the tokens no dot ends the declaration. -/
theorem Matched.not_declares {binders : List (Option Name × Expr)} {outer : List Frame}
    (h : Matched wrapped wrapped' (depth + 1) frames frames') : ¬Declares frames binders outer := by
  intro hdeclares
  cases h with
  | scope _ hdecl =>
    cases hdeclares with
    | scope hkind => exact hdecl hkind

theorem Alike.symm (h : Alike s₀ wrapped wrapped' depth w w') : Alike s₀ wrapped' wrapped depth w' w :=
  ⟨h.right, h.left, h.reading.symm, h.name.symm, h.stack.symm, h.frames.symm⟩

/-! ## What a name refers to -/

/-- The type that a name has in a telescope. -/
def typeIn? (telescope : List (Option Name × Expr)) (x : Name) : Option Expr :=
  (telescope.reverse.find? (·.1 = some x)).map (·.2)

theorem typeIn?_telescope (sc : Scope) (x : Name) : typeIn? sc.telescope x = (sc.binder? x).map (·.type) := by
  simp [typeIn?, Scope.telescope, Scope.binder?, ← List.map_reverse, Function.comp_def]

/-- The name is a variable, of the same type in both lists of frames, or in neither. -/
def ResolveAlike (frames frames' : List Frame) (x : Name) : Prop :=
  (∃ b b', (∀ inCode, resolve inCode x frames = some (.variable b)) ∧
    (∀ inCode, resolve inCode x frames' = some (.variable b')) ∧ b.type = b'.type) ∨
  ∀ inCode, resolve inCode x frames = none ∧ resolve inCode x frames' = none

theorem Base.resolve_eq {x : Name} (h : Base wrapped frames params) :
    (∃ b, (∀ inCode, resolve inCode x frames = some (.variable b)) ∧ typeIn? params x = some b.type) ∨
      (∀ inCode, resolve inCode x frames = none) ∧ typeIn? params x = none := by
  have hscope (sc : Scope) :
      (∃ b, (∀ inCode, resolve inCode x [.scope sc] = some (.variable b)) ∧ typeIn? sc.telescope x = some b.type) ∨
        (∀ inCode, resolve inCode x [.scope sc] = none) ∧ typeIn? sc.telescope x = none := by
    rw [typeIn?_telescope]
    cases hb : sc.binder? x with
    | some b => exact .inl ⟨b, fun _ => by simp [resolve, hb], rfl⟩
    | none => exact .inr ⟨fun _ => by simp [resolve, hb], rfl⟩
  cases h with
  | plain => exact .inr ⟨fun _ => rfl, rfl⟩
  | declared => exact hscope _
  | wrapped => exact hscope _

theorem Matched.resolveAlike (h : Matched wrapped wrapped' depth frames frames') (x : Name) :
    ResolveAlike frames frames' x := by
  induction h with
  | base h h' =>
    rcases h.resolve_eq (x := x) with ⟨b, hb, htype⟩ | ⟨hnone, htype⟩ <;>
      rcases h'.resolve_eq (x := x) with ⟨b', hb', htype'⟩ | ⟨hnone', htype'⟩
    · exact .inl ⟨b, b', hb, hb', Option.some.inj (htype.symm.trans htype')⟩
    · simp [htype] at htype'
    · simp [htype] at htype'
    · exact .inr fun inCode => ⟨hnone inCode, hnone' inCode⟩
  | @scope _ _ _ sc sc' _ _ htelescope _ ih =>
    have htypes : (sc.binder? x).map (·.type) = (sc'.binder? x).map (·.type) := by
      rw [← typeIn?_telescope, ← typeIn?_telescope, htelescope]
    unfold ResolveAlike resolve
    cases hb : sc.binder? x with
    | some b =>
      rw [hb, Option.map_some, eq_comm, Option.map_eq_some_iff] at htypes
      obtain ⟨b', hb', htype⟩ := htypes
      exact .inl ⟨b, b', fun _ => rfl, fun _ => by rw [hb'], htype.symm⟩
    | none =>
      rw [hb, Option.map_none, eq_comm, Option.map_eq_none_iff] at htypes
      simp only [htypes]
      exact ih

/-- A name is a variable of the same type in both executions, or it is the same constant. -/
theorem Alike.lookup_cases (h : Alike s₀ wrapped wrapped' depth w w') (x : Name) :
    (∃ b b', w.lookup x = some (.variable b) ∧ w'.lookup x = some (.variable b') ∧ b.type = b'.type) ∨
      w.lookup x = w'.lookup x ∧
        w.lookup x = (w.signature.newest? x).map fun found => .constant found.1 found.2 := by
  unfold lookup
  rcases h.frames.resolveAlike x with ⟨b, b', hb, hb', htype⟩ | hnone
  · exact .inl ⟨b, b', by rw [hb], by rw [hb'], htype⟩
  · refine .inr ?_
    rw [(hnone _).1, (hnone _).2, h.left.2.1, h.right.2.1]
    exact ⟨rfl, rfl⟩

/-! ## One execution follows the other -/

/-- These tokens of the stream come next, and they end within the machine words. -/
def Ahead (w : State) (ts : List Token) : Prop :=
  ∃ index, w.current.pc = .stream index ∧ ts <+: w.source.tokens.drop index ∧ index + ts.length ≤ maxWord

theorem Ahead.next (h : Ahead w (tok :: ts)) : w.fetch = some tok ∧ ∃ pc, w.current.pc.next? = some pc ∧
    ∀ {v : State}, v.source = w.source → v.current.pc = pc → Ahead v ts := by
  obtain ⟨index, hpc, htokens, hlength⟩ := h
  rw [List.length_cons] at hlength
  obtain ⟨rest, hrest⟩ := htokens
  refine ⟨?_, .stream (index + 1), ?_, fun hsource hv => ⟨index + 1, hv, ?_, by omega⟩⟩
  · rw [fetch, hpc, tokenAt?, ← Nat.add_zero index, ← List.getElem?_drop, ← hrest]
    rfl
  · have hlt : (Address.stream index).counter < maxWord := by
      show index < maxWord
      omega
    rw [hpc, Address.next?, if_pos hlt]
  · rw [hsource, ← List.drop_drop, ← hrest]
    exact List.prefix_append _ _

theorem Ahead.of_executes (h : Ahead w (ts ++ more)) (hexecutes : Executes ts w v) : Ahead v more := by
  obtain ⟨index, hpc, ⟨rest, hrest⟩, hlength⟩ := h
  refine ⟨index + ts.length, (hexecutes.tokens_eq hpc).2, ?_, by rw [List.length_append] at hlength; omega⟩
  rw [hexecutes.grows.source, ← List.drop_drop, ← hrest, List.append_assoc, List.drop_left]
  exact List.prefix_append _ _

/-- Where an arrow binds outside the scopes of the tokens, it does so in every form of the declaration. -/
theorem Base.exists_rule {x : Value} {rest : List Slot} (h : Base wrapped s.frames params)
    (hstack : s.stack = .value x :: rest) (hsort : x.type.isSort = true) (pc : Address) :
    ∃ frames, Rule s pc .arrow { s with current.pc := pc, current.name := none, frames := frames, stack := rest } ∧
      Base wrapped frames (params ++ [(s.current.name.or x.name, x.term)]) := by
  suffices ∃ frames, Rule s pc .arrow
      { s with current.pc := pc, current.name := none, frames := frames, stack := rest } by
    obtain ⟨frames, hrule⟩ := this
    obtain ⟨x', rest', hstack', _, _, hbase⟩ := h.of_rule (.inl rfl) hrule rfl
    obtain ⟨rfl, rfl⟩ : x = x' ∧ rest = rest' := by simpa [hstack] using hstack'
    exact ⟨frames, hrule, hbase⟩
  cases hframes : s.frames with
  | nil => exact ⟨_, .declare hstack hsort hframes⟩
  | cons f outer =>
    rw [hframes] at h
    cases h with
    | declared => exact ⟨_, .extend (.inl rfl) hstack hsort hframes (by simp)⟩
    | wrapped => exact ⟨_, .extend (.inl rfl) hstack hsort hframes (by simp)⟩

/-- An arrow outside the scopes of the tokens binds the same in both executions. -/
theorem Alike.bind {x : Value} {rest : List Slot} (h : Alike s₀ wrapped wrapped' depth w w')
    (hbase : Base wrapped w.frames params) (hbase' : Base wrapped' w'.frames params)
    (hstack : w.stack = .value x :: rest) (hsort : x.type.isSort = true)
    (hrule : Rule w pc .arrow { w with current.pc := pc, current.name := none, frames := frames, stack := rest })
    (pc' : Address) : ∃ v', Rule w' pc' .arrow v' ∧ v'.source = w'.source ∧ v'.current.pc = pc' ∧
      Alike s₀ wrapped wrapped' 0 { w with current.pc := pc, current.name := none, frames := frames, stack := rest }
        v' := by
  obtain ⟨x', rest', hstack', _, _, hbound⟩ := hbase.of_rule (.inl rfl) hrule rfl
  obtain ⟨rfl, rfl⟩ : x = x' ∧ rest = rest' := by simpa [hstack] using hstack'
  obtain ⟨frames', hrule', hbound'⟩ := hbase'.exists_rule (h.stack ▸ hstack) hsort pc'
  rw [← h.name] at hbound'
  exact ⟨_, hrule', rfl, rfl, h.left, h.right, h.reading, rfl, rfl, .base hbound hbound'⟩

/-- **A rule that the one execution follows is one that the other can follow.** -/
theorem Alike.of_rule (h : Alike s₀ wrapped wrapped' depth w w')
    (houtside : depth = 0 → tok ≠ .dot ∧ tok.isClosing = false) (hrule : Rule w pc tok v) (pc' : Address) :
    ∃ v', Rule w' pc' tok v' ∧ v'.source = w'.source ∧ v'.current.pc = pc' ∧
      Alike s₀ wrapped wrapped' (tok.depthAfter depth) v v' := by
  have hrule₀ := hrule
  have hcases := h.frames
  generalize hframes' : w'.frames = frames' at hcases
  cases hrule with
  | type => exact ⟨_, .type, rfl, rfl, h.left, h.right, h.reading, h.name, by rw [h.stack], h.frames⟩
  | colon => exact ⟨_, .colon, rfl, rfl, h.left, h.right, rfl, h.name, h.stack, h.frames⟩
  | openPi =>
    exact ⟨_, .openPi, rfl, rfl, h.left, h.right, h.reading, h.name, h.stack, .scope rfl (by simp) rfl h.frames⟩
  | openLam =>
    exact ⟨_, .openLam, rfl, rfl, h.left, h.right, h.reading, h.name, h.stack, .scope rfl (by simp) rfl h.frames⟩
  | closePi hstack hsort hframes hkind =>
    rw [hframes] at hcases
    cases hcases with
    | base => simp [Token.isClosing] at houtside
    | scope hsame _ htelescope hrest =>
      exact ⟨_, .closePi (h.stack ▸ hstack) hsort hframes' (hsame ▸ hkind), rfl, rfl, h.left, h.right, h.reading, rfl,
        by rw [htelescope, h.name], hrest⟩
  | closeLam hstack hframes hkind =>
    rw [hframes] at hcases
    cases hcases with
    | base => simp [Token.isClosing] at houtside
    | scope hsame _ htelescope hrest =>
      exact ⟨_, .closeLam (h.stack ▸ hstack) hframes' (hsame ▸ hkind), rfl, rfl, h.left, h.right, h.reading, rfl,
        by rw [htelescope, h.name], hrest⟩
  | extend htoken hstack hsort hframes hdecl =>
    rw [hframes] at hcases
    cases hcases with
    | base hbase hbase' =>
      -- The arrow binds a parameter of the declaration.
      obtain rfl := htoken.resolve_right (houtside rfl).1
      exact h.bind (hframes ▸ hbase) (hframes' ▸ hbase') hstack hsort hrule₀ pc'
    | @scope _ _ _ _ sc' hsame hinner htelescope hrest =>
      have hdecl' : ¬(sc'.kind = .decl ∧ tok = .dot) := fun hboth => hinner (hsame.trans hboth.1)
      have hrule' : Rule w' pc' tok _ := .extend htoken (h.stack ▸ hstack) hsort hframes' hdecl'
      refine ⟨_, hrule', rfl, rfl, h.left, h.right, h.reading, rfl, rfl, ?_⟩
      have hpushed {b b' : Binder} (hname : b.name = b'.name) (htype : b.type = b'.type) :=
        (Matched.scope hsame hinner htelescope hrest).push hname htype
      rcases htoken with rfl | rfl
      · exact hpushed (by rw [h.name]) rfl
      · exact hpushed (by rw [h.name]) rfl
  | declare hstack hsort hframes =>
    rw [hframes] at hcases
    cases hcases with
    | base hbase hbase' => exact h.bind (hframes ▸ hbase) (hframes' ▸ hbase') hstack hsort hrule₀ pc'
  | define hpc hstack hsort hframes hspan =>
    -- Outside the scopes of the tokens there is no dot, and inside them it does not end the declaration.
    cases depth with
    | zero => exact absurd rfl (houtside rfl).1
    | succ depth => exact absurd hframes h.frames.not_declares
  | grab htoken hstack hsort hframes hmatch =>
    rw [hframes] at hcases
    cases hcases with
    | base hbase => cases hbase
  | @captured x a hlookup =>
    rcases h.lookup_cases x with ⟨b, _, hb, _⟩ | ⟨_, hconstant⟩
    · simp [hb] at hlookup
    · simp [hconstant] at hlookup
  | @bound x b hlookup =>
    rcases h.lookup_cases x with ⟨_, b', hb, hb', htype⟩ | ⟨_, hconstant⟩
    · obtain rfl : b = _ := by simpa [hlookup] using hb
      exact ⟨_, .bound hb', rfl, rfl, h.left, h.right, h.reading, h.name, by rw [h.stack, htype], h.frames⟩
    · simp [hconstant] at hlookup

/-- A call that the one execution makes returns in the other with the same result. -/
theorem Alike.of_calls {x : Name} {entry n : Nat} {c : Constant} (h : Alike s₀ wrapped wrapped' depth w w')
    (hfetch : w.fetch = some (.id x)) (hcalls : w.Calls entry c) (hreturns : w.Returns n v)
    (hfetch' : w'.fetch = some (.id x)) {pc' : Address} (hpc' : w'.current.pc.next? = some pc') :
    w'.Calls entry c ∧ ∃ v', w'.Returns n v' ∧ v'.source = w'.source ∧ v'.current.pc = pc' ∧
      Alike s₀ wrapped wrapped' depth v v' := by
  obtain ⟨y, hy, hlookup⟩ := hcalls.names
  obtain rfl : y = x := by simpa [hfetch] using hy.symm
  have hlookup' : w'.lookup y = some (.constant entry c) := by
    rcases h.lookup_cases y with ⟨b, _, hb, _⟩ | ⟨hsame, _⟩
    · simp [hb] at hlookup
    · rw [← hsame, hlookup]
  have hcalls' : w'.Calls entry c := ⟨h.right.1, h.reading ▸ hcalls.reading, y, hfetch', hlookup'⟩
  obtain ⟨m, vs, rest, b, z, pc, rfl, heval, hreturning, hstack, _, rfl⟩ := hcalls.returns_iff_eval.mp hreturns
  rw [h.left.2.1, ← h.right.2.1] at heval hreturning
  have hreturns' := hcalls'.returns_iff_eval.mpr
    ⟨m, vs, rest, b, z, pc', rfl, heval, hreturning, h.stack ▸ hstack, hpc', rfl⟩
  exact ⟨hcalls', _, hreturns', rfl, rfl, h.left, h.right, h.reading, h.name, rfl, h.frames⟩

theorem Executes.names_of_cons (h : Executes [tok] w u)
    (hnames : ∀ t ∈ namesRead w.current.readingName (tok :: ts), t = .id t.text) :
    ∀ t ∈ namesRead u.current.readingName ts, t = .id t.text := by
  intro t ht
  rw [h.reading_eq] at ht
  exact hnames t (List.mem_append_right _ ht)

/-- **What the one execution executes, the other can execute too.** -/
theorem Alike.of_executes (hexecutes : Executes ts w v) : ∀ {depth : Nat} {w' : State},
    Alike s₀ wrapped wrapped' depth w w' → Contained depth ts →
    (∀ t ∈ namesRead w.current.readingName ts, t = .id t.text) → Ahead w' (ts ++ more) →
    ∃ v', Executes ts w' v' ∧ Alike s₀ wrapped wrapped' 0 v v' := by
  induction hexecutes with
  | nil w =>
    intro depth w' h hcontained _ _
    obtain rfl : depth = 0 := hcontained
    exact ⟨w', .nil w', h⟩
  | @within tok ts w u v hfetch hfirst _ ih =>
    intro depth w' h hcontained hnames hahead
    obtain ⟨hfetch', pc', hpc', hbehind⟩ := hahead.next
    have hnames' := (Executes.within hfetch hfirst (.nil u)).names_of_cons hnames
    cases hfirst with
    | @name _ pc _ htok hreading =>
      obtain rfl := Option.some.inj (hfetch.symm.trans htok)
      have hreading' : w'.current.readingName = true := h.reading ▸ hreading
      -- A name is no bracket, so as many are open behind it as before.
      obtain ⟨x, rfl⟩ : ∃ x, tok = .id x := ⟨_, hnames tok (by simp [namesRead, hreading])⟩
      let u' : State := { w' with current := ⟨pc', w'.current.program, some x, false⟩ }
      have halike : Alike s₀ wrapped wrapped' depth { w with current := ⟨pc, w.current.program, some x, false⟩ } u' :=
        ⟨h.left, h.right, rfl, rfl, h.stack, h.frames⟩
      obtain ⟨v', hexecutes', hv⟩ := ih halike hcontained.2 hnames' (hbehind rfl rfl)
      exact ⟨v', .within hfetch' (.name h.right.1 hfetch' hreading' hpc' (by simp)) hexecutes', hv⟩
    | rule _ htok hreading _ hrule =>
      obtain rfl := Option.some.inj (hfetch.symm.trans htok)
      have hreading' : w'.current.readingName = false := h.reading ▸ hreading
      obtain ⟨u', hrule', hsource, hpc, halike⟩ := h.of_rule hcontained.1 hrule pc'
      obtain ⟨v', hexecutes', hv⟩ := ih halike hcontained.2 hnames' (hbehind hsource hpc)
      exact ⟨v', .within hfetch' (.rule h.right.1 hfetch' hreading' hpc' hrule') hexecutes', hv⟩
  | call hfetch hcalls hreturns _ ih =>
    intro depth w' h hcontained hnames hahead
    obtain ⟨hfetch', pc', hpc', hbehind⟩ := hahead.next
    have hnames' := (Executes.call hfetch hcalls hreturns (.nil _)).names_of_cons hnames
    obtain ⟨hcalls', u', hreturns', hsource, hpc, halike⟩ := h.of_calls hfetch hcalls hreturns hfetch' hpc'
    obtain ⟨v', hexecutes', hv⟩ := ih halike hcontained.2 hnames' (hbehind hsource hpc)
    exact ⟨v', .call hfetch' hcalls' hreturns' hexecutes', hv⟩

end State

end Stepwise
