import Stepwise.Proofs.Mirror

/-!
# A call instantiates the declared type

The execution of a declaration and the execution of its code in a call go in step (`InStep`), token by token
(`InStep.next`) to the end of the code (`InStep.finish`). There the value of the declaration is the type of the constant
under its binders, and the value of the call is the same with the arguments in place of the binders, so a call gives the
constant, applied to its arguments, the declared type instantiated with them (`call_instantiates_type`).
-/

namespace Stepwise.State

open Activation Code

variable {s t u v w : State} {a b : Activation} {σ : Signature} {tok : Token} {ts post : List Token} {wrapped : Bool}
  {r : Value}

/-! ## Two executions in step -/

/-- From `u` on the declaration executes `ts` and `post`, and then is at `w`. From `a` on the code executes what stands
for `ts`, and then is at `b`. The states `u` and `a` are alike. -/
structure InStep (σ : Signature) (wrapped : Bool) (post : List Token) (w : State) (b : Activation) (ts : List Token)
    (u : State) (a : Activation) : Prop where
  executes : Executes (ts ++ post) u w
  signature : w.signature = u.signature
  fresh : u.Fresh (ts ++ post)
  mirrors : ∃ params, Mirrors wrapped params u a
  remaining : a.remaining σ = grabParameters a.scopes.length ts ++ [.ret]
  evaluates : ∃ n vs, Eval σ n a vs b

/-- What is left to check when both have executed a token. -/
theorem InStep.advance (h : InStep σ wrapped post w b (tok :: ts) u a) {a' : Activation}
    (hexecutes : Executes (ts ++ post) v w) (hsignature : w.signature = v.signature) (hfresh : v.Fresh (ts ++ post))
    (hmirrors : ∃ params, Mirrors wrapped params v a') (hpc : a.current.pc.next? = some a'.current.pc)
    (hscopes : a'.scopes.length = tok.depthAfter a.scopes.length) (heval : ∃ n vs, Eval σ n a' vs b) :
    InStep σ wrapped post w b ts v a' where
  executes := hexecutes
  signature := hsignature
  fresh := hfresh
  mirrors := hmirrors
  remaining := by
    rw [remaining_of_next? (a := a) hpc, h.remaining, grabParameters, hscopes]
    rfl
  evaluates := heval

/-- A token that stands for itself in the code, or an arrow that stands as `grab`. -/
theorem InStep.fetch_cases (h : InStep σ wrapped post w b (tok :: ts) u a) :
    (tok = .arrow ∧ a.scopes = [] ∧ a.fetch σ = some .grab) ∨ a.fetch σ = some tok := by
  rw [fetch_eq_head?, h.remaining]
  rcases grabParameters_cons_cases a.scopes.length tok ts with ⟨htok, hdepth, hcode⟩ | hcode
  · exact .inl ⟨htok, List.length_eq_zero_iff.mp hdepth, by rw [hcode]; rfl⟩
  · exact .inr (by rw [hcode]; rfl)

/-- Both read the token as a name. -/
theorem InStep.of_name (h : InStep σ wrapped post w b (tok :: ts) u a) (hreturning : b.Returning σ r)
    (hfetch : u.fetch = some tok) (hreading : u.current.readingName = true) (hfirst : Within u v)
    (hrest : Executes (ts ++ post) v w) : ∃ a', InStep σ wrapped post w b ts v a' := by
  obtain ⟨params, hmirrors⟩ := h.mirrors
  obtain ⟨n, vs, heval⟩ := h.evaluates
  have hreading' := hmirrors.reading.trans hreading
  have hfresh := h.fresh.of_within hfetch hfirst
  -- A name is an identifier, and so stands for itself.
  obtain ⟨y, rfl⟩ : ∃ y, tok = .id y := h.fresh.ids tok (by simp [namesRead, hreading])
  have hfetch' : a.fetch σ = some (.id y) := h.fetch_cases.resolve_left (by simp)
  cases hfirst with
  | rule _ _ hexecuted => simp [hreading] at hexecuted
  | @name tok' pc _ htok' =>
    obtain rfl := Option.some.inj (hfetch.symm.trans htok')
    cases heval with
    | nil => simp [hreturning.reading] at hreading'
    | call hcalls => simp [hcalls.reading] at hreading'
    | step hfirst' hrest' =>
      cases hfirst' with
      | rule _ hexecuted => simp [hreading'] at hexecuted
      | @name tok'' pc' htok'' _ hpc' =>
        obtain rfl := Option.some.inj (hfetch'.symm.trans htok'')
        refine ⟨{ a with current := ⟨pc', a.current.program, some (Token.id y).text, false⟩ },
          h.advance hrest h.signature hfresh ⟨params, ?_⟩ hpc' rfl ⟨_, _, hrest'⟩⟩
        exact { hmirrors with reading := rfl, name := rfl }

/-- Both execute the token, and neither calls a constant. -/
theorem InStep.of_rule {pc : Address} (h : InStep σ wrapped post w b (tok :: ts) u a) (hreturning : b.Returning σ r)
    (hreading : u.current.readingName = false) (hfresh : v.Fresh (ts ++ post)) (hsame : v.signature = u.signature)
    (hrule : Rule u pc tok v) (hrest : Executes (ts ++ post) v w) : ∃ a', InStep σ wrapped post w b ts v a' := by
  obtain ⟨params, hmirrors⟩ := h.mirrors
  obtain ⟨n, vs, heval⟩ := h.evaluates
  have hreading' := hmirrors.reading.trans hreading
  have hret := hrule.token_ne.2
  cases heval with
  | nil =>
    have hfetch := hreturning.fetch
    rcases h.fetch_cases with ⟨_, _, hgrab⟩ | hself
    · simp [hgrab] at hfetch
    · simp [hself, hret] at hfetch
  | call hcalls =>
    -- A name that is a constant for the code is one for the declaration.
    obtain ⟨x, hfetch, hlookup⟩ := hcalls.names
    rcases h.fetch_cases with ⟨_, _, hgrab⟩ | hself
    · simp [hgrab] at hfetch
    · obtain rfl : tok = .id x := by simpa [hself] using hfetch
      exact absurd hlookup (hmirrors.lookup_ne_constant h.fresh hrule)
  | step hfirst' hrest' =>
    cases hfirst' with
    | name _ hname => simp [hreading'] at hname
    | @rule tok' pc' _ a' hfetch' _ hpc' hrule' =>
      obtain ⟨_, hpcEq, _, hscopes, _⟩ := hrule'.outline hreading'
      rw [← hpcEq] at hpc'
      rcases h.fetch_cases with ⟨rfl, hnone, hgrab⟩ | hself
      · obtain rfl : tok' = .grab := by simpa [hgrab] using hfetch'.symm
        cases hrule' with
        | extend htoken => simp at htoken
        | grab _ hvalues _ _ hmatch =>
          exact ⟨_, h.advance hrest (h.signature.trans hsame.symm) hfresh
            (hmirrors.of_grab (.inl rfl) hrule hsame hvalues hnone hmatch) hpc' rfl ⟨_, _, hrest'⟩⟩
      · obtain rfl : tok' = tok := by simpa [hself] using hfetch'.symm
        exact ⟨_, h.advance hrest (h.signature.trans hsame.symm) hfresh
          (hmirrors.of_rule h.fresh hrule hsame hrule') hpc' hscopes ⟨_, _, hrest'⟩⟩

/-- Both call the same constant. -/
theorem InStep.of_calls {x : Name} {entry n : Nat} {c : Constant} (h : InStep σ wrapped post w b (.id x :: ts) u a)
    (hgrown : w.signature <+: σ) (hnames : (σ.map (·.name)).Nodup) (hreturning : b.Returning σ r)
    (hfetch : u.fetch = some (.id x)) (hcalls : u.Calls entry c) (hreturns : u.Returns n v)
    (hrest : Executes (ts ++ post) v w) : ∃ a', InStep σ wrapped post w b ts v a' := by
  obtain ⟨params, hmirrors⟩ := h.mirrors
  obtain ⟨k, vs, heval⟩ := h.evaluates
  have hreading := hmirrors.reading.trans hcalls.reading
  have hfetch' : a.fetch σ = some (.id x) := h.fetch_cases.resolve_left (by simp)
  have hsame : v.signature = u.signature :=
    (grows_of_after hreturns.reaches).signature_eq hrest.grows h.signature
  -- What the name refers to in the declaration, it refers to in the code.
  have hlookup : u.lookup x = some (.constant entry c) := by
    obtain ⟨y, hy, hlookup⟩ := hcalls.names
    obtain rfl : y = x := by simpa [hfetch] using hy.symm
    exact hlookup
  have hlookup' : a.lookup σ x = some (.constant entry c) := by
    rcases hmirrors.lookup_cases h.fresh σ x with ⟨_, hub, _⟩ | ⟨hub, hab⟩
    · simp [hub] at hlookup
    · rw [hub, Option.map_eq_some_iff] at hlookup
      obtain ⟨found, hfound, hconstant⟩ := hlookup
      obtain ⟨rfl, rfl⟩ := Binding.constant.inj hconstant
      rw [hab, newest?_of_prefix (h.signature ▸ hgrown) hnames hfound]
      rfl
  cases heval with
  | nil => simp [hreturning.fetch] at hfetch'
  | step hfirst' =>
    cases hfirst' with
    | name _ hname => simp [hreading] at hname
    | rule htok' _ _ hrule' =>
      obtain rfl := Option.some.inj (hfetch'.symm.trans htok')
      cases hrule' with
      | captured h | bound h => simp [hlookup'] at h
      | extend htoken | grab htoken => simp at htoken
  | @call _ _ _ _ _ entry' c' _ _ _ _ pc hcalls' hbody hreturning' hvalues hpc hrest' =>
    obtain ⟨rfl, rfl⟩ : entry = entry' ∧ c = c' := by
      obtain ⟨y, hy, hconstant⟩ := hcalls'.names
      obtain rfl : y = x := by simpa [hfetch'] using hy.symm
      simpa [hlookup'] using hconstant
    have hentry : σ[entry]? = some c := getElem?_of_prefix (h.signature ▸ hgrown) hcalls.getElem?_eq
    exact ⟨_, h.advance hrest (h.signature.trans hsame.symm) (h.fresh.of_returns hcalls hreturns)
      ⟨params, hmirrors.of_calls hcalls hreturns hentry hbody hreturning' hvalues⟩ hpc rfl ⟨_, _, hrest'⟩⟩

/-- **The executions stay in step over a token.** -/
theorem InStep.next (h : InStep σ wrapped post w b (tok :: ts) u a) (hgrown : w.signature <+: σ)
    (hnames : (σ.map (·.name)).Nodup) (hreturning : b.Returning σ r) : ∃ v a', InStep σ wrapped post w b ts v a' := by
  have hexecutes := h.executes
  rw [List.cons_append] at hexecutes
  cases hexecutes with
  | @within _ _ _ v _ hfetch hfirst hrest =>
    cases hreading : u.current.readingName with
    | true => exact ⟨v, h.of_name hreturning hfetch hreading hfirst hrest⟩
    | false =>
      have hfresh := h.fresh.of_within hfetch hfirst
      have hsame := (Move.within hfirst).grows.signature_eq hrest.grows h.signature
      cases hfirst with
      | name _ _ hname => simp [hreading] at hname
      | rule _ htok' _ _ hrule =>
        obtain rfl := Option.some.inj (hfetch.symm.trans htok')
        exact ⟨v, h.of_rule hreturning hreading hfresh hsame hrule hrest⟩
  | @call x _ _ v _ entry n c hfetch hcalls hreturns hrest =>
    exact ⟨v, h.of_calls hgrown hnames hreturning hfetch hcalls hreturns hrest⟩

/-- At the end of the code the activation is about to return. -/
theorem InStep.eq_of_nil (h : InStep σ wrapped post w b [] u a) (hreturning : b.Returning σ r) : a = b := by
  obtain ⟨n, vs, heval⟩ := h.evaluates
  have hremaining : a.remaining σ = [.ret] := h.remaining
  have hfetch : a.fetch σ = some .ret := by rw [fetch_eq_head?, hremaining]; rfl
  cases heval with
  | nil => rfl
  | call hcalls =>
    obtain ⟨_, hid, _⟩ := hcalls.names
    simp [hfetch] at hid
  | step hfirst hrest =>
    cases hfirst with
    | @name _ pc _ _ hpc =>
      -- Behind the end of the code there is nothing to return with.
      have hsome := hrest.fetch_isSome (by rw [hreturning.fetch]; rfl)
      rw [fetch_eq_head?, remaining_of_next? (a := a) hpc, hremaining] at hsome
      cases hsome
    | rule htok' hreading _ hrule =>
      obtain rfl := Option.some.inj (hfetch.symm.trans htok')
      exact absurd rfl (hrule.outline hreading).2.2.2.2

/-- **The executions stay in step to the end of the code.** -/
theorem InStep.finish (h : InStep σ wrapped post w b ts u a) (hgrown : w.signature <+: σ)
    (hnames : (σ.map (·.name)).Nodup) (hreturning : b.Returning σ r) :
    ∃ v params, Executes post v w ∧ Mirrors wrapped params v b := by
  induction ts generalizing u a with
  | nil =>
    obtain rfl := h.eq_of_nil hreturning
    obtain ⟨params, hmirrors⟩ := h.mirrors
    exact ⟨u, params, h.executes, hmirrors⟩
  | cons tok ts ih =>
    obtain ⟨v, a', hnext⟩ := h.next hgrown hnames hreturning
    exact ih hnext

/-! ## The tokens that the code leaves out -/

/-- A token that is no identifier, and is not read as a name, follows a rule. -/
theorem Executes.rule_of_cons (h : Executes (tok :: ts) u w) (hreading : u.current.readingName = false)
    (hid : ∀ x, tok ≠ .id x) : ∃ v pc, u.fetch = some tok ∧ Within u v ∧ Rule u pc tok v ∧ Executes ts v w := by
  cases h with
  | call => exact absurd rfl (hid _)
  | within hfetch hfirst hrest =>
    have hwithin := hfirst
    cases hfirst with
    | name _ _ hname => simp [hreading] at hname
    | rule _ hfetch' _ _ hrule =>
      obtain rfl := Option.some.inj (hfetch.symm.trans hfetch')
      exact ⟨_, _, hfetch, hwithin, hrule, hrest⟩

/-- An opening parenthesis opens a scope. -/
theorem Executes.of_lparen (h : Executes (.lparen :: ts) u w) (hreading : u.current.readingName = false) :
    ∃ v pc, u.fetch = some .lparen ∧ Within u v ∧ Executes ts v w ∧
      v = { u with current.pc := pc, frames := .scope ⟨.pi, u.current.pc, []⟩ :: u.frames } := by
  obtain ⟨v, pc, hfetch, hwithin, hrule, hrest⟩ := h.rule_of_cons hreading (by simp)
  cases hrule with
  | openPi => exact ⟨_, pc, hfetch, hwithin, hrest, rfl⟩
  | extend htoken | grab htoken => simp at htoken

/-- A closing parenthesis turns the innermost scope and the value on the stack into a function type. -/
theorem Executes.of_rparen (h : Executes (.rparen :: ts) u w) (hreading : u.current.readingName = false) :
    ∃ v body rest sc outer, Executes ts v w ∧ v.current.readingName = false ∧ u.stack = .value body :: rest ∧
      u.frames = .scope sc :: outer ∧ v.frames = outer ∧
      v.stack = .value ⟨.pis sc.telescope body.term, body.type, u.current.name.or body.name⟩ :: rest := by
  obtain ⟨v, pc, _, _, hrule, hrest⟩ := h.rule_of_cons hreading (by simp)
  cases hrule with
  | closePi hstack _ hframes => exact ⟨_, _, _, _, _, hrest, hreading, hstack, hframes, rfl, rfl⟩
  | extend htoken | grab htoken => simp at htoken

/-- A name at the end changes neither the frames nor the stack. -/
theorem Executes.of_nameAtEnd (h : Executes ts u w) (hname : NameAtEnd ts) (hreading : u.current.readingName = false) :
    w.frames = u.frames ∧ w.stack = u.stack ∧ w.current.readingName = false := by
  rcases hname with rfl | ⟨x, rfl⟩
  · cases h
    exact ⟨rfl, rfl, hreading⟩
  · obtain ⟨v, pc, _, _, hrule, hrest⟩ := h.rule_of_cons hreading (by simp)
    cases hrule with
    | extend htoken | grab htoken => simp at htoken
    | colon =>
      -- The token behind the colon is read as a name, so it can only be that.
      cases hrest with
      | call _ hcalls => cases hcalls.reading
      | within _ hsecond hlast =>
        cases hlast
        cases hsecond with
        | name => exact ⟨rfl, rfl, rfl⟩
        | rule _ _ hexecuted => cases hexecuted

/-! ## What the constant is declared with -/

/-- The type of the constant has a parameter for each argument, for which the argument was captured, and what follows the
parameters, with the arguments in it, is `classifier`. -/
def Instantiates (c : Constant) (arguments : List Argument) (classifier : Expr) : Prop :=
  ∃ params codomain, c.type = .pis params codomain ∧ classifier = codomain.replace (assignmentOf arguments) ∧
    Captured params arguments

/-- At the end of the code, the declaration holds the one value that mirrors the result, and no scope but that of the
binders. -/
theorem Mirrors.of_returning {params : List (Option Name × Expr)} (h : Mirrors wrapped params u b)
    (hreturning : b.Returning σ r) : u.current.readingName = false ∧ Base wrapped u.frames params ∧
      ∃ x, u.stack = [.value x] ∧ r.term = x.term.replace b.assignment := by
  obtain ⟨inner, bottom, hframes, hbase, hscopes⟩ := h.frames
  obtain ⟨values, hstack, hvalues⟩ := h.stack
  rw [hreturning.scopes, List.forall₂_nil_right_iff] at hscopes
  subst hscopes
  rw [hreturning.values, List.forall₂_cons_right_iff] at hvalues
  obtain ⟨x, below, hx, hnone, rfl⟩ := hvalues
  rw [List.forall₂_nil_right_iff] at hnone
  subst hnone
  exact ⟨h.reading.symm.trans hreturning.reading, hframes ▸ hbase, x, hstack, hx.2⟩

/-- Without parentheses around the whole, the dot finds the binders in the scope of the declaration. -/
theorem instantiates_of_plain {c : Constant} {params : List (Option Name × Expr)} (h : Mirrors false params u b)
    (hreturning : b.Returning σ r) (hexecutes : Executes post u w) (hpost : NameAtEnd post)
    (hdeclaring : w.Declaring c) : Instantiates c b.arguments r.term := by
  obtain ⟨hreading, hbase, x, hstack, hterm⟩ := h.of_returning hreturning
  obtain ⟨hframes, hsame, _⟩ := hexecutes.of_nameAtEnd hpost hreading
  obtain ⟨index, binders, outer, y, rest, _, hdeclares, hy, rfl⟩ := hdeclaring.ends
  rw [hsame, hstack] at hy
  obtain ⟨rfl, rfl⟩ : x = y ∧ [] = rest := by simpa using hy
  have hbinders : binders = params := by
    rw [hframes] at hdeclares
    generalize u.frames = frames at hbase hdeclares
    cases hbase with
    | plain => cases hdeclares; rfl
    | declared => cases hdeclares; rfl
  exact ⟨params, x.term, by rw [← hbinders]; rfl, hterm, h.captured⟩

/-- With parentheses around the whole, the closing one has put the binders into the value that the dot finds. -/
theorem instantiates_of_wrapped {c : Constant} {inner outer : List Token} {params : List (Option Name × Expr)}
    (h : Mirrors true params u b) (hreturning : b.Returning σ r) (hexecutes : Executes (inner ++ .rparen :: outer) u w)
    (hinner : NameAtEnd inner) (houter : NameAtEnd outer) (hdeclaring : w.Declaring c) :
    Instantiates c b.arguments r.term := by
  obtain ⟨hreading, hbase, x, hstack, hterm⟩ := h.of_returning hreturning
  obtain ⟨v, hfirst, hclosing⟩ := hexecutes.split
  obtain ⟨hframes, hsame, hreading⟩ := hfirst.of_nameAtEnd hinner hreading
  obtain ⟨v', body, rest, sc, below, hlast, hreading, hbody, hsc, hframes', hstack'⟩ := hclosing.of_rparen hreading
  obtain ⟨hframes'', hsame'', _⟩ := hlast.of_nameAtEnd houter hreading
  rw [hsame, hstack] at hbody
  obtain ⟨rfl, rfl⟩ : x = body ∧ [] = rest := by simpa using hbody
  rw [hframes] at hsc
  rw [hsc] at hbase
  cases hbase with
  | wrapped =>
    obtain ⟨index, binders, outer, y, rest, _, hdeclares, hy, rfl⟩ := hdeclaring.ends
    rw [hframes'', hframes'] at hdeclares
    cases hdeclares
    rw [hsame'', hstack'] at hy
    obtain ⟨rfl, rfl⟩ : _ = y ∧ [] = rest := by simpa using hy
    exact ⟨sc.telescope, x.term, rfl, hterm, h.captured⟩

/-! ## From the start of a declaration to a call -/

/-- A declaration starts here, with nothing on the stack and no frame open. -/
structure Starting (s : State) : Prop where
  pc : s.current.pc = .stream s.current.program.first
  stack : s.stack = []
  frames : s.frames = []

/-- Nothing has been read of a declaration that starts. -/
theorem Starting.nothing_read {text : String} (h : s.Starting) (hreachable : Reachable text s) :
    s.current.readingName = false ∧ s.current.name = none := by
  rcases hreachable.wellPlaced.current with hplaced | ⟨_, _, _, _, hpc, _⟩
  · simp only [Placed, h.pc] at hplaced
    exact ⟨by simpa [readsAfter] using hplaced.2.2.1, hplaced.2.2.2 trivial⟩
  · rw [h.pc] at hpc
    cases hpc

/-- **The code of a declaration computes its type, instantiated with the arguments.** -/
theorem instantiates_of_eval {c : Constant} {entry n : Nat} {vs : List Value} {declaration : List Token}
    (hstart : s.Starting) (hreading : s.current.readingName = false) (hname : s.current.name = none)
    (hexecutes : Executes declaration s w) (hsignature : w.signature = s.signature) (hdeclaring : w.Declaring c)
    (hfresh : s.Fresh declaration) (hcode : c.code = ofDeclaration declaration) (hentry : σ[entry]? = some c)
    (hgrown : w.signature <+: σ) (hnames : (σ.map (·.name)).Nodup) (heval : Eval σ n (.start entry c) vs b)
    (hreturning : b.Returning σ r) : Instantiates c b.arguments r.term := by
  have hremaining : (Activation.start entry c).remaining σ = grabParameters 0 (body declaration) ++ [.ret] := by
    rw [remaining_start hentry, hcode, ofDeclaration]
  rcases body_cases declaration with ⟨name, hpost, hdeclaration⟩ | ⟨inner, outer, hinner, houter, hdeclaration⟩
  · rw [hdeclaration] at hexecutes hfresh
    have hmirrors : Mirrors false [] s (.start entry c) :=
      ⟨hreading.symm, hname.symm, ⟨[], [], hstart.frames, .plain, .nil⟩, ⟨[], hstart.stack, .nil⟩, ⟨rfl, by simp⟩⟩
    have hinStep : InStep σ false name w b (body declaration) s (.start entry c) :=
      ⟨hexecutes, hsignature, hfresh, ⟨[], hmirrors⟩, hremaining, n, vs, heval⟩
    obtain ⟨v, params, hlast, hmirrors⟩ := hinStep.finish hgrown hnames hreturning
    exact instantiates_of_plain hmirrors hreturning hlast hpost hdeclaring
  · rw [hdeclaration] at hexecutes hfresh
    obtain ⟨u, pc, hfetch, hfirst, hrest, hu⟩ := hexecutes.of_lparen hreading
    have hmirrors : Mirrors true [] u (.start entry c) := by
      rw [hu]
      exact ⟨hreading.symm, hname.symm, ⟨[], _, rfl, hstart.frames ▸ .wrapped rfl, .nil⟩, ⟨[], hstart.stack, .nil⟩,
        ⟨rfl, by simp⟩⟩
    have hinStep : InStep σ true (inner ++ .rparen :: outer) w b (body declaration) u (.start entry c) :=
      ⟨hrest, by rw [hu]; exact hsignature, hfresh.of_within hfetch hfirst, ⟨[], hmirrors⟩, hremaining, n, vs, heval⟩
    obtain ⟨v, params, hlast, hmirrors⟩ := hinStep.finish hgrown hnames hreturning
    exact instantiates_of_wrapped hmirrors hreturning hlast hinner houter hdeclaring

/-- A declaration that reads identifiers only, each of them once, is fresh where it starts. -/
theorem Starting.fresh (h : s.Starting) (hreading : s.current.readingName = false) (hname : s.current.name = none)
    (hids : ∀ tok ∈ namesRead false ts, ∃ x, tok = .id x) (hdistinct : (namesRead false ts).Nodup) : s.Fresh ts where
  ids := by
    rw [hreading]
    exact hids
  once x := by
    have honce := List.nodup_iff_count.mp hdistinct (.id x)
    have hnone : s.liveNames.count (some x) = 0 := by simp [count_liveNames, hname, h.stack, h.frames]
    rw [hreading]
    omega

/-- The arguments of a call are the captured values, each under the name of its parameter. -/
theorem assignmentOf_eq {params : List (Option Name × Expr)} {entry n : Nat} {c : Constant} {vs : List Value}
    (hcaptured : Captured params b.arguments) (heval : Eval σ n (.start entry c) vs b) :
    assignmentOf b.arguments = (params.map (·.1)).zip (vs.map (·.term)) := by
  rw [← hcaptured.names, ← heval.spine_eq, List.zip_map']
  rfl

/-- **A call of a declared constant instantiates its type.** A declaration starts with nothing on the stack and no frame
open, reads only identifiers as names, none of them twice, and declares `c`. Later, when no two constants have the same
name, a call of `c` that returns has captured one value for each of the first parameters in the type of `c`, and their
types match those of the parameters, with the earlier values in place of their variables. The value pushed is `c`
applied to the captured terms, and its type is the rest of the type of `c` with these terms in it. -/
theorem call_instantiates_type {text : String} {s₀ s₁ : State} {c : Constant} {m k n : Nat}
    (hreachable : Reachable text s₀) (hstart : s₀.Starting) (hdeclared : s₀.after m = some s₁)
    (hsignature : s₁.signature = s₀.signature ++ [c])
    (hids : ∀ tok ∈ namesRead false (s₁.declaration c), ∃ x, tok = .id x)
    (hdistinct : (namesRead false (s₁.declaration c)).Nodup) (hlater : s₁.after k = some s)
    (hnames : (s.signature.map (·.name)).Nodup) (hcalls : s.Calls s₀.signature.length c) (hreturns : s.Returns n t) :
    ∃ (vs : List Value) (rest : List Slot) (params : List (Option Name × Expr)) (codomain : Expr),
      s.stack = vs.map .value ++ rest ∧ params.length = vs.length ∧ c.type = .pis params codomain ∧
      t.stack = .value ⟨.const c.name (vs.map (·.term)),
        codomain.replace ((params.map (·.1)).zip (vs.map (·.term))), none⟩ :: rest ∧
      ∀ (i : Nat) (v : Value) (p : Option Name × Expr), vs[i]? = some v → params[i]? = some p →
        v.type.Matches (p.2.replace (((params.map (·.1)).zip (vs.map (·.term))).take i)) := by
  obtain ⟨_, vs, rest, b, r, pc, _, heval, hreturning, hstack, _, rfl⟩ := hcalls.returns_iff_eval.mp hreturns
  obtain ⟨hreading, hname⟩ := hstart.nothing_read hreachable
  have hlevel : Levelled false s₀.stack := by rw [hstart.stack]; rfl
  obtain ⟨w, hexecutes, hsame, hdeclaring⟩ := exists_executes_declaration hstart.pc hlevel hdeclared hsignature
  have hcode : c.code = ofDeclaration (s₁.declaration c) := by
    obtain ⟨l, hl⟩ := hreachable
    have hreachable₁ : Reachable text s₁ := ⟨l + m, after_trans hl hdeclared⟩
    exact (hreachable₁.wellPlaced.codes c (by simp [hsignature])).1
  have hgrown : w.signature <+: s.signature := by
    rw [hsame]
    exact (grows_of_after hdeclared).signature.trans (grows_of_after hlater).signature
  obtain ⟨params, codomain, htype, hclassifier, hcaptured⟩ := instantiates_of_eval hstart hreading hname hexecutes hsame
    hdeclaring (hstart.fresh hreading hname hids hdistinct) hcode hcalls.getElem?_eq hgrown hnames heval hreturning
  have harguments : b.arguments.map (fun x => (x.term, x.type)) = vs.map fun v => (v.term, v.type) := heval.arguments_eq
  have hlength : b.arguments.length = vs.length := by simpa using congrArg List.length harguments
  rw [assignmentOf_eq hcaptured heval] at hclassifier
  refine ⟨vs, rest, params, codomain, hstack, hcaptured.length_eq ▸ hlength, htype, ?_, fun i v p hv hp => ?_⟩
  · rw [← hclassifier]
    rfl
  · obtain ⟨x, hx, hxv⟩ : ∃ x, b.arguments[i]? = some x ∧ (x.term, x.type) = (v.term, v.type) := by
      have hi := congrArg (·[i]?) harguments
      simpa [hv] using hi
    rw [← assignmentOf_eq hcaptured heval, ← (Prod.mk.inj hxv).2]
    exact hcaptured.types i x p hx hp

/-- The type of the second parameter of `g` and the type of its result depend on the first argument: a call with `k` and
`h` gives a value of the type `k p`. -/
theorem call_instantiates_dependent_type : ∃ s₀ s₁ s t c,
    Reachable "type : o . ( o : x -> type ) : p . ( o : y -> y p : z -> y p ) : g . o : k . k p : h . h k g" s₀ ∧
      s₀.Starting ∧ s₀.after 34 = some s₁ ∧ s₁.signature = s₀.signature ++ [c] ∧
      namesRead false (s₁.declaration c) = [.id "y", .id "z", .id "g"] ∧ s₁.after 44 = some s ∧
      (s.signature.map (·.name)).Nodup ∧ s.Calls s₀.signature.length c ∧ s.Returns 31 t ∧
      ∃ (vs : List Value) (rest : List Slot) (params : List (Option Name × Expr)) (codomain : Expr),
        s.stack = vs.map .value ++ rest ∧ params.length = vs.length ∧ c.type = .pis params codomain ∧
        t.stack = .value ⟨.const c.name (vs.map (·.term)),
          codomain.replace ((params.map (·.1)).zip (vs.map (·.term))), none⟩ :: rest ∧
        ∀ (i : Nat) (v : Value) (p : Option Name × Expr), vs[i]? = some v → params[i]? = some p →
          v.type.Matches (p.2.replace (((params.map (·.1)).zip (vs.map (·.term))).take i)) := by
  let run := (ofText
    "type : o . ( o : x -> type ) : p . ( o : y -> y p : z -> y p ) : g . o : k . k p : h . h k g").after
  let s₀ := (run 16).getD default
  let s₁ := (run 50).getD default
  let s := (run 94).getD default
  let t := (run 125).getD default
  let c := s.signature.getD 2 default
  obtain ⟨hreachable, hpc, hstack, hframes, hdeclared, hsignature, hread, hlater, hnames, hcalls, hreturns⟩ :
      run 16 = some s₀ ∧ s₀.current.pc = .stream s₀.current.program.first ∧ s₀.stack = [] ∧ s₀.frames = [] ∧
        s₀.after 34 = some s₁ ∧ s₁.signature = s₀.signature ++ [c] ∧
        namesRead false (s₁.declaration c) = [.id "y", .id "z", .id "g"] ∧ s₁.after 44 = some s ∧
        (s.signature.map (·.name)).Nodup ∧ s.Calls s₀.signature.length c ∧ s.Returns 31 t := by decide +kernel
  have hstart : s₀.Starting := ⟨hpc, hstack, hframes⟩
  exact ⟨s₀, s₁, s, t, c, ⟨16, hreachable⟩, hstart, hdeclared, hsignature, hread, hlater, hnames, hcalls, hreturns,
    call_instantiates_type ⟨16, hreachable⟩ hstart hdeclared hsignature (by simp [hread]) (by simp [hread]) hlater
      hnames hcalls hreturns⟩

end Stepwise.State
