import Stepwise.Proofs.Instantiation
import Stepwise.Proofs.Parallel

/-!
# The two forms of a declaration

A declaration can be written with parentheses around all of it (`Code.wrappedForm`) or without (`Code.plainForm`). In
the wrapped form a scope of the program holds the parameters, and the parenthesis at its end makes the function type; in
the plain one the first arrow opens a scope for them, and the dot makes the type. The tokens between are executed alike
and compiled alike, so both forms declare the same constant (`forms_agree`).
-/

namespace Stepwise

namespace Code

variable {ts us : List Token} {n : Name}

/-! ## The tokens of both forms -/

/-- The list is complete in itself: it reads only identifiers as names, and none after its end, and its brackets are
balanced and hold all its dots. -/
structure SelfContained (ts : List Token) : Prop where
  complete : readsAfter false ts = false
  names : ∀ t ∈ namesRead false ts, t = .id t.text
  contained : Contained 0 ts

/-- The list can be written with parentheses around it or without: it is complete in itself and not in parentheses
already. -/
structure Enclosable (ts : List Token) : Prop extends SelfContained ts where
  bare : parenthesised? ts = none

instance (ts : List Token) : Decidable (Enclosable ts) :=
  decidable_of_iff (readsAfter false ts = false ∧ (∀ t ∈ namesRead false ts, t = .id t.text) ∧ Contained 0 ts ∧
    parenthesised? ts = none)
    ⟨fun ⟨h₁, h₂, h₃, h₄⟩ => ⟨⟨h₁, h₂, h₃⟩, h₄⟩, fun ⟨⟨h₁, h₂, h₃⟩, h₄⟩ => ⟨h₁, h₂, h₃, h₄⟩⟩

/-- The tokens with a name at their end. -/
def named (ts : List Token) (n : Name) : List Token := ts ++ [.colon, .id n]

/-- The tokens with the name, then the dot. -/
def plainForm (ts : List Token) (n : Name) : List Token := named ts n ++ [.dot]

/-- The tokens with the name in parentheses, then the dot. -/
def wrappedForm (ts : List Token) (n : Name) : List Token := .lparen :: named ts n ++ [.rparen, .dot]

theorem Contained.append (hus : Contained 0 us) : ∀ {depth : Nat} {ts : List Token}, Contained depth ts →
    Contained depth (ts ++ us)
  | _, [], h => by
    obtain rfl : _ = 0 := h
    exact hus
  | _, _ :: _, h => ⟨h.1, Contained.append hus h.2⟩

/-- Inside one more bracket, no bracket of such a list closes it. -/
theorem Contained.closedBy?_append (us : List Token) : ∀ {depth : Nat} {ts : List Token}, Contained depth ts →
    closedBy? (depth + 1) (ts ++ us) = (closedBy? 1 us).map (ts ++ ·)
  | _, [], h => by
    obtain rfl : _ = 0 := h
    simp
  | depth, t :: ts, h => by
    obtain ⟨houtside, hrest⟩ := h
    have hgoesOn : ¬(t.isClosing = true ∧ depth = 0) := fun hstops => by simp_all
    rw [List.cons_append, closedBy?_succ_cons, if_neg hgoesOn, hrest.closedBy?_append us, Option.map_map]
    rfl

theorem dropName_named (ts : List Token) (n : Name) : dropName (named ts n) = ts := by simp [dropName, named]

theorem Enclosable.ofDeclaration_plain (h : Enclosable ts) (n : Name) :
    ofDeclaration (named ts n) = grabParameters 0 ts ++ [.ret] := by
  simp only [ofDeclaration, body, dropName_named, h.bare]

theorem Enclosable.ofDeclaration_wrapped (h : Enclosable ts) (n : Name) :
    ofDeclaration (.lparen :: named ts n ++ [.rparen]) = grabParameters 0 ts ++ [.ret] := by
  -- The last token but one is the name, so no name is dropped before the parentheses are.
  have hparen : dropName (.lparen :: named ts n ++ [.rparen]) = .lparen :: named ts n ++ [.rparen] := by
    simp [dropName, named]
  have hinside : parenthesised? (.lparen :: named ts n ++ [.rparen]) = some (named ts n) := by
    rw [named, List.cons_append, List.append_assoc, parenthesised?, h.contained.closedBy?_append]
    rfl
  simp only [ofDeclaration, body, hparen, hinside, dropName_named]

/-- A name at the end keeps the list complete. -/
theorem SelfContained.named (h : SelfContained ts) (n : Name) : SelfContained (named ts n) where
  complete := by
    rw [Code.named, readsAfter_append, h.complete]
    rfl
  names t ht := by
    rw [Code.named, namesRead_append, h.complete] at ht
    rcases List.mem_append.mp ht with hbefore | hlast
    · exact h.names t hbefore
    · obtain rfl : t = .id n := by simpa [namesRead] using hlast
      rfl
  contained := .append (by simp [Contained, Token.depthAfter, Token.isOpening, Token.isClosing]) h.contained

end Code

namespace State

open Code

variable {s₀ s t u u' v w' : State} {wrapped : Bool} {pc : Address} {ts more : List Token}
  {params : List (Option Name × Expr)}

/-! ## The ends of the two forms -/

/-- Since `s₀` one constant has been declared, of the name `x`, the type `e` and this code; `rest` is left on the stack,
and no frame is open. -/
structure Concludes (s₀ t : State) (x : Name) (e : Expr) (code : List Token) (rest : List Slot) : Prop where
  signature : ∃ program, t.signature = s₀.signature ++ [⟨x, e, program, code⟩]
  stack : t.stack = rest
  frames : t.frames = []

/-- Of the declaration that began at `s₀`, the tokens `ts` have been executed, and `more` come next. -/
structure Ends (s₀ : State) (wrapped : Bool) (params : List (Option Name × Expr)) (ts more : List Token) (u : State) :
    Prop where
  executes : ∃ s, Executes ts s u ∧ s.current.pc = .stream s₀.current.program.first
  continues : Continues s₀ u
  reading : u.current.readingName = false
  base : Base wrapped u.frames params
  ahead : Ahead u more

/-- In the wrapped form the closing parenthesis makes the function type. -/
theorem Base.rule_rparen_iff (h : Base true u.frames params) : Rule u pc .rparen v ↔
    ∃ y rest, u.stack = .value y :: rest ∧ y.type.isSort = true ∧ v = { u with
      current.pc := pc
      current.name := none
      frames := []
      stack := .value ⟨.pis params y.term, y.type, u.current.name.or y.name⟩ :: rest } := by
  generalize hframes : u.frames = frames at h
  cases h with
  | wrapped hkind =>
    constructor
    · intro hrule
      cases hrule with
      | closePi hstack hsort hframes' =>
        rw [hframes] at hframes'
        cases hframes'
        exact ⟨_, _, hstack, hsort, rfl⟩
      | extend htoken | grab htoken => simp at htoken
    · rintro ⟨y, rest, hstack, hsort, rfl⟩
      exact .closePi hstack hsort hframes hkind

/-- In the plain form the dot makes the function type. -/
theorem Base.rule_dot_iff (h : Base false u.frames params) : Rule u pc .dot v ↔
    ∃ y rest index, u.stack = .value y :: rest ∧ y.type.isSort = true ∧ u.current.pc = .stream index ∧
      (u.current.program.first ≤ index ∧ index ≤ u.source.tokens.length) ∧ v = { u with
        current := ⟨pc, ⟨index + 1, index + 1⟩, none, u.current.readingName⟩
        frames := []
        stack := rest
        signature := u.signature ++ [u.declared index params y] } := by
  have hdeclares : Declares u.frames params [] := by
    generalize u.frames = frames at h
    cases h with
    | plain => exact .plain
    | declared hkind => exact .scope hkind
  constructor
  · intro hrule
    cases hrule with
    | extend _ _ _ hframes hdecl =>
      rw [hframes] at hdeclares
      cases hdeclares with
      | scope hkind => exact absurd ⟨hkind, rfl⟩ hdecl
    | define hpc hstack hsort hframes hspan =>
      generalize u.frames = frames at hframes hdeclares
      cases hframes <;> cases hdeclares <;> exact ⟨_, _, _, hstack, hsort, hpc, hspan, rfl⟩
    | grab _ _ _ hframes =>
      rw [hframes] at hdeclares
      cases hdeclares
  · rintro ⟨y, rest, index, hstack, hsort, hpc, hspan, rfl⟩
    exact .define hpc hstack hsort hdeclares hspan

/-- The tokens of the declaration are those executed. -/
theorem Ends.span (h : Ends s₀ wrapped params ts more u) : ∃ index, u.current.pc = .stream index ∧
    u.current.program.first ≤ index ∧ (u.source.tokens.take index).drop u.current.program.first = ts := by
  obtain ⟨s, hexecutes, hpc⟩ := h.executes
  obtain ⟨htokens, hend⟩ := hexecutes.tokens_eq hpc
  refine ⟨_, hend, ?_, ?_⟩
  · rw [h.continues.2.2]
    omega
  · rw [h.continues.2.2, hexecutes.grows.source, List.drop_take, Nat.add_sub_cancel_left, ← htokens]

/-- The plain form comes to its end if there is a type on the stack. -/
theorem Ends.exists_dot (h : Ends s₀ false params ts [.dot] u) {y : Value} {rest : List Slot}
    (hstack : u.stack = .value y :: rest) (hsort : y.type.isSort = true) : ∃ t, Executes [.dot] u t := by
  obtain ⟨hfetch, pc, hpc, _⟩ := h.ahead.next
  obtain ⟨index, hindex, hfirst, _⟩ := h.span
  have hlt : index < u.source.tokens.length := by
    rw [fetch, hindex, tokenAt?] at hfetch
    exact (List.getElem?_eq_some_iff.mp hfetch).1
  have hrule : Rule u pc .dot _ :=
    h.base.rule_dot_iff.mpr ⟨y, rest, index, hstack, hsort, hindex, ⟨hfirst, by omega⟩, rfl⟩
  exact ⟨_, .within hfetch (.rule h.continues.1 hfetch h.reading hpc hrule) (.nil _)⟩

theorem Ends.of_dot (h : Ends s₀ false params ts [.dot] u) (hdot : Executes [.dot] u t) :
    ∃ y rest, u.stack = .value y :: rest ∧ y.type.isSort = true ∧
      Concludes s₀ t ((u.current.name.or y.name).getD anonymous) (.pis params y.term) (ofDeclaration ts) rest := by
  obtain ⟨v, pc, _, _, hrule, hend⟩ := hdot.rule_of_cons h.reading (by simp)
  cases hend
  obtain ⟨y, rest, index, hstack, hsort, hindex, _, rfl⟩ := h.base.rule_dot_iff.mp hrule
  obtain ⟨index', hindex', _, htokens⟩ := h.span
  obtain rfl : index = index' := by simpa [hindex] using hindex'
  refine ⟨y, rest, hstack, hsort, ⟨?_, rfl, rfl⟩⟩
  refine ⟨⟨u.current.program.first, index⟩, ?_⟩
  rw [← htokens, ← h.continues.2.1]
  rfl

/-- Behind the closing parenthesis the wrapped form ends as a plain one without parameters. -/
theorem Ends.of_rparen (h : Ends s₀ true params ts (.rparen :: more) u) (hfirst : Within u v)
    (hrule : Rule u pc .rparen v) : ∃ y rest, u.stack = .value y :: rest ∧ y.type.isSort = true ∧
      v.current.name = none ∧ v.stack = .value ⟨.pis params y.term, y.type, u.current.name.or y.name⟩ :: rest ∧
      Ends s₀ false [] (ts ++ [.rparen]) more v := by
  obtain ⟨s, hexecutes, hpc⟩ := h.executes
  obtain ⟨hfetch, pc', hpc', hbehind⟩ := h.ahead.next
  have hnext := hfirst.next?_eq
  have hstep : Executes [.rparen] u v := .within hfetch hfirst (.nil v)
  obtain ⟨y, rest, hstack, hsort, rfl⟩ := h.base.rule_rparen_iff.mp hrule
  obtain rfl := Option.some.inj (hnext.symm.trans hpc')
  exact ⟨y, rest, hstack, hsort, rfl, rfl, ⟨s, hexecutes.append hstep, hpc⟩, h.continues, h.reading, .plain,
    hbehind rfl rfl⟩

theorem Ends.exists_rparen_dot (h : Ends s₀ true params ts [.rparen, .dot] u) {y : Value} {rest : List Slot}
    (hstack : u.stack = .value y :: rest) (hsort : y.type.isSort = true) : ∃ t, Executes [.rparen, .dot] u t := by
  obtain ⟨hfetch, pc, hpc, _⟩ := h.ahead.next
  have hrule : Rule u pc .rparen _ := h.base.rule_rparen_iff.mpr ⟨y, rest, hstack, hsort, rfl⟩
  have hfirst := Within.rule h.continues.1 hfetch h.reading hpc hrule
  obtain ⟨_, _, _, _, _, _, hends⟩ := h.of_rparen hfirst hrule
  obtain ⟨t, ht⟩ := hends.exists_dot rfl hsort
  exact ⟨t, .within hfetch hfirst ht⟩

theorem Ends.of_rparen_dot (h : Ends s₀ true params ts [.rparen, .dot] u) (hdot : Executes [.rparen, .dot] u t) :
    ∃ y rest, u.stack = .value y :: rest ∧ y.type.isSort = true ∧
      Concludes s₀ t ((u.current.name.or y.name).getD anonymous) (.pis params y.term) (ofDeclaration (ts ++ [.rparen]))
        rest := by
  obtain ⟨v, pc, _, hfirst, hrule, hrest⟩ := hdot.rule_of_cons h.reading (by simp)
  obtain ⟨y, rest, hstack, hsort, hname, hstack', hends⟩ := h.of_rparen hfirst hrule
  obtain ⟨y', rest', hy', _, hconcludes⟩ := hends.of_dot hrest
  obtain ⟨rfl, rfl⟩ : _ = y' ∧ rest = rest' := by simpa [hstack'] using hy'
  rw [hname] at hconcludes
  exact ⟨y, rest, hstack, hsort, hconcludes⟩

/-! ## Both forms -/

/-- The plain form, executed up to its dot, and the wrapped one, up to its last parenthesis. -/
structure Meets (s₀ : State) (ts : List Token) (u u' : State) : Prop where
  name : u.current.name = u'.current.name
  stack : u.stack = u'.stack
  ends : ∃ params, Ends s₀ false params ts [.dot] u ∧ Ends s₀ true params (.lparen :: ts) [.rparen, .dot] u'

/-- Two programs that go on after the same beginning, the one with the plain form and the other with the wrapped one. -/
structure Contrast (beginning : List Token) (s₀ : State) (ts : List Token) (source source' : Source) : Prop where
  preamble : Preamble beginning s₀
  plain : Ahead (s₀.withSource source) (ts ++ [.dot])
  wrapped : Ahead (s₀.withSource source') (.lparen :: ts ++ [.rparen, .dot])

section

variable {beginning body : List Token} {n : Name} {source source' : Source}

theorem Preamble.ahead (h : Preamble beginning s₀) (hsource : beginning ++ ts <+: source.tokens)
    (hwords : beginning.length + ts.length ≤ maxWord) : Ahead (s₀.withSource source) ts := by
  obtain ⟨rest, hrest⟩ := hsource
  refine ⟨beginning.length, h.pc, ?_, hwords⟩
  show ts <+: source.tokens.drop beginning.length
  rw [← hrest, List.append_assoc, List.drop_left]
  exact List.prefix_append _ _

/-- Behind the parenthesis that the wrapped form begins with, the two executions are alike. -/
theorem Preamble.alike (h : Preamble beginning s₀) (hrule : Rule (s₀.withSource source') pc .lparen w') :
    Alike s₀ false true 0 (s₀.withSource source) w' := by
  cases hrule with
  | openPi =>
    refine ⟨⟨h.error, rfl, rfl⟩, ⟨h.error, rfl, rfl⟩, rfl, rfl, rfl, ?_⟩
    show Matched false true 0 s₀.frames (.scope ⟨.pi, s₀.current.pc, []⟩ :: s₀.frames)
    rw [h.frames]
    exact .base .plain (.wrapped rfl)
  | extend htoken | grab htoken => simp at htoken

namespace Contrast

theorem meets (h : Contrast beginning s₀ ts source source') (hts : SelfContained ts)
    (hexecutes : Executes ts (s₀.withSource source) u) (hexecutes' : Executes (.lparen :: ts) (s₀.withSource source') u')
    (halike : Alike s₀ false true 0 u u') : Meets s₀ ts u u' := by
  have hopens := h.preamble.opens
  have hreading : u.current.readingName = false := by
    rw [hexecutes.reading_eq, show (s₀.withSource source).current.readingName = false from hopens.reading]
    exact hts.complete
  refine ⟨halike.name, halike.stack, ?_⟩
  have hframes := halike.frames
  generalize hu : u.frames = frames at hframes
  generalize hu' : u'.frames = frames' at hframes
  cases hframes with
  | base hbase hbase' =>
    exact ⟨_, ⟨⟨_, hexecutes, hopens.pc⟩, halike.left, hreading, hu ▸ hbase, h.plain.of_executes hexecutes⟩,
      ⟨⟨_, hexecutes', hopens.pc⟩, halike.right, halike.reading ▸ hreading, hu' ▸ hbase',
        h.wrapped.of_executes hexecutes'⟩⟩

theorem meets_of_plain (h : Contrast beginning s₀ ts source source') (hts : SelfContained ts)
    (hexecutes : Executes ts (s₀.withSource source) u) :
    ∃ u', Executes (.lparen :: ts) (s₀.withSource source') u' ∧ Meets s₀ ts u u' := by
  have hreading : s₀.current.readingName = false := h.preamble.opens.reading
  obtain ⟨hfetch, pc, hpc, hbehind⟩ := h.wrapped.next
  have hrule : Rule (s₀.withSource source') pc .lparen _ := .openPi
  have hbegin : Alike s₀ false true 0 (s₀.withSource source) _ := h.preamble.alike hrule
  obtain ⟨u', hexecutes', halike⟩ := hbegin.of_executes hexecutes hts.contained
    (by rw [show (s₀.withSource source).current.readingName = false from hreading]; exact hts.names) (hbehind rfl rfl)
  have hall := Executes.within hfetch (.rule h.preamble.error hfetch hreading hpc hrule) hexecutes'
  exact ⟨u', hall, h.meets hts hexecutes hall halike⟩

theorem meets_of_wrapped (h : Contrast beginning s₀ ts source source') (hts : SelfContained ts)
    (hexecutes' : Executes (.lparen :: ts) (s₀.withSource source') u') :
    ∃ u, Executes ts (s₀.withSource source) u ∧ Meets s₀ ts u u' := by
  have hreading : s₀.current.readingName = false := h.preamble.opens.reading
  obtain ⟨w', pc, _, _, hrule, hrest⟩ := hexecutes'.rule_of_cons hreading (by simp)
  have hbegin : Alike s₀ false true 0 (s₀.withSource source) w' := h.preamble.alike hrule
  obtain ⟨u, hexecutes, halike⟩ := hbegin.symm.of_executes hrest hts.contained
    (by rw [← hbegin.reading, show (s₀.withSource source).current.readingName = false from hreading]; exact hts.names)
    h.plain
  exact ⟨u, hexecutes, h.meets hts hexecutes hexecutes' halike.symm⟩

/-- Where the plain form comes to its end, so does the wrapped one, and they declare the same. -/
theorem wrapped_of_plain (h : Contrast beginning s₀ (named body n) source source') (hbody : Enclosable body)
    (hexecutes : Executes (plainForm body n) (s₀.withSource source) t) :
    ∃ t', Executes (wrappedForm body n) (s₀.withSource source') t' ∧
      ∃ x e code rest, Concludes s₀ t x e code rest ∧ Concludes s₀ t' x e code rest := by
  obtain ⟨u, hu, hdot⟩ := hexecutes.split
  obtain ⟨u', hu', hmeets⟩ := h.meets_of_plain (hbody.named n) hu
  obtain ⟨params, hplain, hwrapped⟩ := hmeets.ends
  obtain ⟨y, rest, hstack, hsort, hconcludes⟩ := hplain.of_dot hdot
  obtain ⟨t', hdot'⟩ := hwrapped.exists_rparen_dot (hmeets.stack ▸ hstack) hsort
  obtain ⟨y', rest', hstack', _, hconcludes'⟩ := hwrapped.of_rparen_dot hdot'
  obtain ⟨rfl, rfl⟩ : y = y' ∧ rest = rest' := by simpa [← hmeets.stack, hstack] using hstack'
  rw [hbody.ofDeclaration_plain] at hconcludes
  rw [hbody.ofDeclaration_wrapped, ← hmeets.name] at hconcludes'
  exact ⟨t', hu'.append hdot', _, _, _, _, hconcludes, hconcludes'⟩

/-- Where the wrapped form comes to its end, so does the plain one. -/
theorem plain_of_wrapped {t' : State} (h : Contrast beginning s₀ (named body n) source source')
    (hbody : Enclosable body) (hexecutes' : Executes (wrappedForm body n) (s₀.withSource source') t') :
    ∃ t, Executes (plainForm body n) (s₀.withSource source) t := by
  obtain ⟨u', hu', hdot'⟩ := hexecutes'.split
  obtain ⟨u, hu, hmeets⟩ := h.meets_of_wrapped (hbody.named n) hu'
  obtain ⟨params, hplain, hwrapped⟩ := hmeets.ends
  obtain ⟨y, rest, hstack, hsort, _⟩ := hwrapped.of_rparen_dot hdot'
  obtain ⟨t, hdot⟩ := hplain.exists_dot (hmeets.stack.trans hstack) hsort
  exact ⟨t, hu.append hdot⟩

end Contrast

/-- **The two forms of a declaration agree.** After tokens whose run comes to the beginning of a declaration, the run
comes to the end of the plain form without error exactly when it comes to the end of the wrapped form, and then both
have declared a constant of the same name, type and code, with the same stack and no frame open. The longer of the two
forms has to end within the machine words. -/
theorem forms_agree (h : Preamble beginning s₀) (hbody : Enclosable body)
    (hsource : beginning ++ plainForm body n <+: source.tokens)
    (hsource' : beginning ++ wrappedForm body n <+: source'.tokens)
    (hwords : (beginning ++ wrappedForm body n).length ≤ maxWord) :
    ((∃ t, Arrives source (beginning ++ plainForm body n).length t) ↔
      ∃ t', Arrives source' (beginning ++ wrappedForm body n).length t') ∧
    ∀ t t', Arrives source (beginning ++ plainForm body n).length t →
      Arrives source' (beginning ++ wrappedForm body n).length t' →
      ∃ x e code rest, Concludes s₀ t x e code rest ∧ Concludes s₀ t' x e code rest := by
  have hlength : (wrappedForm body n).length = (plainForm body n).length + 2 := by simp [plainForm, wrappedForm]
  rw [List.length_append] at hwords ⊢
  rw [List.length_append]
  have hplain : Ahead (s₀.withSource source) (plainForm body n) := h.ahead hsource (by omega)
  have hforms : Contrast beginning s₀ (named body n) source source' :=
    ⟨h, hplain, h.ahead hsource' hwords⟩
  have harrives (t : State) := h.arrives_iff (t := t) hsource (by simp [plainForm])
  have harrives' (t : State) := h.arrives_iff (t := t) hsource' (by simp [wrappedForm])
  refine ⟨⟨?_, ?_⟩, ?_⟩
  · rintro ⟨t, ht⟩
    obtain ⟨t', ht', _⟩ := hforms.wrapped_of_plain hbody ((harrives t).mp ht)
    exact ⟨t', (harrives' t').mpr ht'⟩
  · rintro ⟨t', ht'⟩
    obtain ⟨t, ht⟩ := hforms.plain_of_wrapped hbody ((harrives' t').mp ht')
    exact ⟨t, (harrives t).mpr ht⟩
  · intro t t' ht ht'
    obtain ⟨u', hu', hsame⟩ := hforms.wrapped_of_plain hbody ((harrives t).mp ht)
    -- The run of the wrapped form comes to its end in one state only.
    obtain rfl := ht'.eq ((harrives' u').mpr hu')
    exact hsame

/-- The declaration of `q` has a parameter of a function type, for which it opens a scope and calls `o`. -/
theorem forms_agree_on_function_type : ∃ (beginning body : List Token) (s₀ t t' : State),
    Preamble beginning s₀ ∧ Enclosable body ∧
      Arrives (.ofText "type : o . ( o : y -> o ) : g -> o : q .") (beginning ++ plainForm body "q").length t ∧
      Arrives (.ofText "type : o . ( ( o : y -> o ) : g -> o : q ) .") (beginning ++ wrappedForm body "q").length t' ∧
      ∃ x e code rest, Concludes s₀ t x e code rest ∧ Concludes s₀ t' x e code rest := by
  let source := Source.ofText "type : o . ( o : y -> o ) : g -> o : q ."
  let source' := Source.ofText "type : o . ( ( o : y -> o ) : g -> o : q ) ."
  let beginning := source.tokens.take 4
  let body := (source.tokens.drop 4).take 11
  let s₀ := ((start source).after 4).getD default
  let t := ((start source).after 24).getD default
  obtain ⟨hbegins, hreaches, herror, hpc, hfirst, hframes⟩ : beginning <+: s₀.source.tokens ∧
      (start s₀.source).after 4 = some s₀ ∧ s₀.error = none ∧ s₀.current.pc = .stream beginning.length ∧
      s₀.current.program.first = beginning.length ∧ s₀.frames = [] := by decide +kernel
  obtain ⟨hbody, hsource, hsource', hwords⟩ : Enclosable body ∧ beginning ++ plainForm body "q" <+: source.tokens ∧
      beginning ++ wrappedForm body "q" <+: source'.tokens ∧ (beginning ++ wrappedForm body "q").length ≤ maxWord := by
    decide +kernel
  obtain ⟨hreaches', herror', hpc'⟩ : (start source).after 24 = some t ∧ t.error = none ∧
      t.current.pc = .stream (beginning ++ plainForm body "q").length := by decide +kernel
  have hpreamble : Preamble beginning s₀ := ⟨hbegins, ⟨4, hreaches⟩, herror, hpc, hfirst, hframes⟩
  have harrives : Arrives source (beginning ++ plainForm body "q").length t := ⟨⟨24, hreaches'⟩, herror', hpc'⟩
  obtain ⟨hends, hagree⟩ := forms_agree hpreamble hbody hsource hsource' hwords
  obtain ⟨t', harrives'⟩ := hends.mp ⟨t, harrives⟩
  exact ⟨beginning, body, s₀, t, t', hpreamble, hbody, harrives, harrives', hagree t t' harrives harrives'⟩

end

end State

end Stepwise
