import Mathlib.Data.List.Forall2
import Stepwise.Proofs.Arity
import Stepwise.Proofs.Freshness
import Stepwise.Proofs.Replacement

/-!
# A declaration and its code

The tokens of a declaration are executed once in the token stream, where its binders are variables, and again in every
call of the constant, where they are arguments. `Mirrors` relates the two: the scopes and the values of the call are
those of the declaration with the arguments in place of the variables of the binders (`Activation.assignment`). Only
terms and names are related, since neither execution puts the type of a value into a term.

Executing the same token keeps the relation (`Mirrors.of_rule`, `Mirrors.of_calls`). A name refers to the same thing in
both (`Mirrors.lookup_cases`), as no variable inside a scope has the name of a binder of the declaration.
-/

namespace Stepwise

/-- The terms of the arguments, each for the name of its parameter. -/
def assignmentOf (arguments : List Argument) : Assignment := arguments.map fun x => (x.name, x.term)

/-- The terms that an activation has for the names of its parameters. -/
def Activation.assignment (a : Activation) : Assignment := assignmentOf a.arguments

/-- The second scope binds what the first one does, up to the replacement in the types. -/
def Scope.Mirrors (ρ : Assignment) (sc sc' : Scope) : Prop :=
  sc'.kind = sc.kind ∧ sc'.telescope = Expr.replaceTelescope ρ sc.telescope

/-- The second value is the first one, up to the replacement in the term. -/
def Value.Mirrors (ρ : Assignment) (v v' : Value) : Prop := v'.name = v.name ∧ v'.term = v.term.replace ρ

theorem Scope.Mirrors.push {ρ : Assignment} {sc sc' : Scope} (h : sc.Mirrors ρ sc') {b b' : Binder}
    (hname : b'.name = b.name) (htype : b'.type = b.type.replace ρ) : (sc.push b).Mirrors ρ (sc'.push b') :=
  ⟨h.1, by simp [h.2, hname, htype, Expr.replaceTelescope]⟩

/-- The arguments were captured for the parameters, in order: each has the name of its parameter, and its type matches
that of the parameter with the earlier arguments in it. -/
structure Captured (params : List (Option Name × Expr)) (arguments : List Argument) : Prop where
  names : arguments.map (·.name) = params.map (·.1)
  types : ∀ (i : Nat) (x : Argument) (p : Option Name × Expr), arguments[i]? = some x → params[i]? = some p →
    x.type.Matches (p.2.replace ((assignmentOf arguments).take i))

theorem Captured.length_eq {params : List (Option Name × Expr)} {arguments : List Argument}
    (h : Captured params arguments) : arguments.length = params.length := by
  simpa using congrArg List.length h.names

theorem Captured.concat {params : List (Option Name × Expr)} {arguments : List Argument}
    (h : Captured params arguments) {p : Option Name × Expr} {x : Argument} (hname : x.name = p.1)
    (hmatch : x.type.Matches (p.2.replace (assignmentOf arguments))) : Captured (params ++ [p]) (arguments ++ [x]) where
  names := by simp [h.names, hname]
  types i y q hy hq := by
    have hlength := h.length_eq
    have hassigned : (assignmentOf (arguments ++ [x])).take i = (assignmentOf arguments).take i := by
      have hi : i < (arguments ++ [x]).length := (List.getElem?_eq_some_iff.mp hy).1
      simp only [List.length_append, List.length_singleton] at hi
      rw [assignmentOf, List.map_append, List.take_append_of_le_length (by simp; omega)]
      rfl
    rw [hassigned]
    rcases Nat.lt_or_ge i arguments.length with hlt | hge
    · rw [List.getElem?_append_left hlt] at hy
      rw [List.getElem?_append_left (hlength ▸ hlt)] at hq
      exact h.types i y q hy hq
    · rw [List.getElem?_append_right hge, List.getElem?_singleton] at hy
      rw [List.getElem?_append_right (hlength ▸ hge), List.getElem?_singleton] at hq
      split at hy
      · rename_i hi
        rw [if_pos (hlength ▸ hi)] at hq
        cases hy
        cases hq
        rw [List.take_of_length_le (by simp [assignmentOf]; omega)]
        exact hmatch
      · cases hy

namespace State

open Activation

variable {s t u v w : State} {a b : Activation} {σ : Signature} {ts : List Token} {wrapped : Bool}
  {params : List (Option Name × Expr)} {ρ : Assignment}

/-- The frames in which the body of a declaration is executed, with the binders that they hold. If parentheses go around
the whole (`wrapped`), these hold the binders; otherwise an arrow opens a scope for them. -/
inductive Base : Bool → List Frame → List (Option Name × Expr) → Prop
  | plain : Base false [] []
  | declared {sc : Scope} (hkind : sc.kind = .decl) : Base false [.scope sc] sc.telescope
  | wrapped {sc : Scope} (hkind : sc.kind = .pi) : Base true [.scope sc] sc.telescope

/-- The state `u`, in a declaration, and the activation `a`, in the code of its constant, are at the same token. -/
structure Mirrors (wrapped : Bool) (params : List (Option Name × Expr)) (u : State) (a : Activation) : Prop where
  reading : a.current.readingName = u.current.readingName
  name : a.current.name = u.current.name
  frames : ∃ inner bottom, u.frames = inner.map .scope ++ bottom ∧ Base wrapped bottom params ∧
    List.Forall₂ (Scope.Mirrors a.assignment) inner a.scopes
  stack : ∃ values, u.stack = values.map .value ∧ List.Forall₂ (Value.Mirrors a.assignment) values a.values
  captured : Captured params a.arguments

/-! ## What a name refers to -/

theorem binder?_isSome (sc : Scope) (x : Name) : (sc.binder? x).isSome = true ↔ some x ∈ (Frame.scope sc).names := by
  simp [Scope.binder?, Frame.names, Scope.telescope]

theorem findSome?_binder?_isSome (scopes : List Scope) (x : Name) :
    (scopes.findSome? (·.binder? x)).isSome = true ↔ some x ∈ (scopes.map .scope).flatMap Frame.names := by
  simp only [List.findSome?_isSome_iff, binder?_isSome, List.mem_flatMap, List.mem_map, exists_exists_and_eq_and]

theorem names_eq_of_mirrors {inner scopes : List Scope} (h : List.Forall₂ (Scope.Mirrors ρ) inner scopes) :
    (scopes.map Frame.scope).flatMap Frame.names = (inner.map Frame.scope).flatMap Frame.names := by
  induction h with
  | nil => rfl
  | cons hfirst _ ih =>
    simp only [List.map_cons, List.flatMap_cons, ih, Frame.names, hfirst.2, Expr.replaceTelescope, List.map_map]
    rfl

theorem Base.names_eq {bottom : List Frame} (h : Base wrapped bottom params) :
    bottom.flatMap Frame.names = params.map (·.1) := by
  cases h <;> simp [Frame.names]

/-- The frames of a declaration hold variables only. -/
theorem Base.resolve_cases {bottom : List Frame} (h : Base wrapped bottom params) (inCode : Bool) (x : Name) :
    (∃ b, resolve inCode x bottom = some (.variable b) ∧ some x ∈ params.map (·.1)) ∨
      resolve inCode x bottom = none ∧ some x ∉ params.map (·.1) := by
  rw [← h.names_eq]
  have hscope (sc : Scope) : (∃ b, resolve inCode x [.scope sc] = some (.variable b) ∧
      some x ∈ [Frame.scope sc].flatMap Frame.names) ∨
      resolve inCode x [.scope sc] = none ∧ some x ∉ [Frame.scope sc].flatMap Frame.names := by
    simp only [List.flatMap_singleton, ← binder?_isSome, resolve]
    cases sc.binder? x with
    | some b => exact .inl ⟨b, rfl, rfl⟩
    | none => exact .inr ⟨rfl, by simp⟩
  cases h with
  | plain => exact .inr ⟨rfl, by simp⟩
  | declared => exact hscope _
  | wrapped => exact hscope _

theorem term?_assignment (a : Activation) (x : Name) : a.assignment.term? x = (a.argument? x).map (·.term) := by
  simp [Assignment.term?, Activation.assignment, assignmentOf, argument?, ← List.map_reverse, Function.comp_def]

theorem argument?_isSome (a : Activation) (x : Name) :
    (a.argument? x).isSome = true ↔ some x ∈ a.arguments.map (·.name) := by
  simp [argument?]

/-- A name refers to a variable in both executions, or to a variable in the declaration and to the argument for it in
the code, or in both to a constant. -/
theorem Mirrors.lookup_cases (h : Mirrors wrapped params u a) (hfresh : u.Fresh ts) (σ : Signature) (x : Name) :
    (∃ b, u.lookup x = some (.variable b) ∧
      ((∃ b', a.lookup σ x = some (.variable b') ∧ (Expr.var x []).replace a.assignment = .var x []) ∨
        ∃ y, a.lookup σ x = some (.argument y) ∧ (Expr.var x []).replace a.assignment = y.term)) ∨
    u.lookup x = (u.signature.newest? x).map (fun found => .constant found.1 found.2) ∧
      a.lookup σ x = (σ.newest? x).map fun found => .constant found.1 found.2 := by
  obtain ⟨inner, bottom, hframes, hbase, hscopes⟩ := h.frames
  have harguments := argument?_isSome a x
  rw [h.captured.names] at harguments
  have hsame : (a.scopes.findSome? (·.binder? x)).isSome = (inner.findSome? (·.binder? x)).isSome := by
    rw [Bool.eq_iff_iff, findSome?_binder?_isSome, findSome?_binder?_isSome, names_eq_of_mirrors hscopes]
  unfold State.lookup Activation.lookup
  rw [hframes, resolve_scopes]
  cases hinner : inner.findSome? (·.binder? x) with
  | some b =>
    -- Not the name of a parameter, so that nothing is replaced.
    have hx : some x ∉ params.map (·.1) := by
      rw [← hbase.names_eq]
      exact hfresh.not_mem hframes ((findSome?_binder?_isSome inner x).mp (by rw [hinner]; rfl))
    rw [hinner, Option.isSome_some, Option.isSome_iff_exists] at hsame
    obtain ⟨b', hb'⟩ := hsame
    have hnone : a.argument? x = none := by
      rw [← Option.not_isSome_iff_eq_none, harguments]
      exact hx
    refine .inl ⟨b, rfl, .inl ⟨b', by rw [hb'], ?_⟩⟩
    rw [Expr.replace, term?_assignment, hnone]
    rfl
  | none =>
    rw [hinner, Option.isSome_none, Option.isSome_eq_false_iff, Option.isNone_iff_eq_none] at hsame
    rw [hsame]
    rcases hbase.resolve_cases u.current.pc.inCode x with ⟨b, hb, hx⟩ | ⟨hnone, hx⟩
    · obtain ⟨y, hy⟩ := Option.isSome_iff_exists.mp (harguments.mpr hx)
      refine .inl ⟨b, by rw [hb], .inr ⟨y, by rw [hy], ?_⟩⟩
      rw [Expr.replace, term?_assignment, hy]
      rfl
    · have hargument : a.argument? x = none := by
        rw [← Option.not_isSome_iff_eq_none, harguments]
        exact hx
      exact .inr ⟨by rw [hnone], by rw [hargument]⟩

/-- In a signature without repeated names, a name refers to what it referred to before the signature grew. -/
theorem newest?_of_prefix {earlier later : Signature} {x : Name} {entry : Nat} {c : Constant}
    (hgrown : earlier <+: later) (hnames : (later.map (·.name)).Nodup) (h : earlier.newest? x = some (entry, c)) :
    later.newest? x = some (entry, c) := by
  obtain ⟨hentry, hname⟩ := Signature.getElem?_of_newest? h
  have hlater := getElem?_of_prefix hgrown hentry
  cases hfound : later.newest? x with
  | none => exact absurd hname (Signature.newest?_eq_none_iff.mp hfound c (List.mem_of_getElem? hlater))
  | some found =>
    obtain ⟨entry', c'⟩ := found
    obtain ⟨hentry', hname'⟩ := Signature.getElem?_of_newest? hfound
    have hindex : entry = entry' := by
      refine (List.getElem?_inj (l := later.map (·.name)) ?_ hnames).mp ?_
      · simpa using (List.getElem?_eq_some_iff.mp hlater).1
      · simp [hlater, hentry', hname, hname']
    subst hindex
    rw [hlater] at hentry'
    rw [Option.some.inj hentry']

/-! ## The same token in both -/

/-- What is on top of the two stacks mirrors each other. -/
theorem mirrors_of_cons {values values' below' : List Value} {rest : List Slot} {x x' : Value}
    (h : List.Forall₂ (Value.Mirrors ρ) values values') (hstack : values.map Slot.value = .value x :: rest)
    (hvalues' : values' = x' :: below') :
    x.Mirrors ρ x' ∧ ∃ below, rest = below.map .value ∧ List.Forall₂ (Value.Mirrors ρ) below below' := by
  subst hvalues'
  cases h with
  | cons hfirst hrest =>
    simp only [List.map_cons, List.cons.injEq, Slot.value.injEq] at hstack
    exact ⟨hstack.1 ▸ hfirst, _, hstack.2.symm, hrest⟩

/-- The innermost scopes, if the activation has one open, mirror each other. -/
theorem mirrors_of_scope {inner scopes' outer' : List Scope} {bottom outer : List Frame} {sc sc' : Scope}
    (h : List.Forall₂ (Scope.Mirrors ρ) inner scopes') (hframes : inner.map Frame.scope ++ bottom = .scope sc :: outer)
    (hscopes' : scopes' = sc' :: outer') :
    sc.Mirrors ρ sc' ∧ ∃ below, outer = below.map .scope ++ bottom ∧ List.Forall₂ (Scope.Mirrors ρ) below outer' := by
  subst hscopes'
  cases h with
  | cons hfirst hrest =>
    simp only [List.map_cons, List.cons_append, List.cons.injEq, Frame.scope.injEq] at hframes
    exact ⟨hframes.1 ▸ hfirst, _, hframes.2.symm, hrest⟩

/-- An arrow or a dot outside the scopes of the body adds a binder to the declaration. -/
theorem Base.of_rule {pc : Address} {tok : Token} (h : Base wrapped u.frames params)
    (htoken : tok = .arrow ∨ tok = .dot) (hrule : Rule u pc tok v) (hsame : v.signature = u.signature) :
    ∃ x rest, u.stack = .value x :: rest ∧ v.stack = rest ∧ v.current = { u.current with pc, name := none } ∧
      Base wrapped v.frames (params ++ [(u.current.name.or x.name, x.term)]) := by
  cases hrule with
  | @extend _ x rest scope outer _ hstack _ hframes hdecl =>
    refine ⟨x, rest, hstack, rfl, rfl, ?_⟩
    rw [hframes] at h
    cases h with
    | declared hkind =>
      have hbase : Base false [.scope (scope.push ⟨u.current.name.or x.name, x.term, u.current.pc⟩)] _ :=
        .declared hkind
      simpa using hbase
    | wrapped hkind =>
      have hbase : Base true [.scope (scope.push ⟨u.current.name.or x.name, x.term, u.current.pc⟩)] _ :=
        .wrapped hkind
      simpa using hbase
  | @declare x rest hstack _ hframes =>
    refine ⟨x, rest, hstack, rfl, rfl, ?_⟩
    rw [hframes] at h
    cases h with
    | plain => exact .declared rfl
  | define => simp at hsame
  | grab _ _ _ hframes => rw [hframes] at h; cases h
  | _ => simp at htoken

/-- Outside the scopes of the body, what is a binder for the declaration captures an argument in the code. -/
theorem Mirrors.of_grab {pc pc' : Address} {tok : Token} {parameter argument : Value} (h : Mirrors wrapped params u a)
    (htoken : tok = .arrow ∨ tok = .dot) (hu : Rule u pc tok v) (hsame : v.signature = u.signature)
    (hvalues : a.values = [parameter]) (hscopes : a.scopes = [])
    (hmatch : argument.type.Matches parameter.term) :
    ∃ params', Mirrors wrapped params' v { a with
      current.pc := pc'
      current.name := none
      arguments := a.arguments ++ [⟨a.current.name.or parameter.name, argument.term, argument.type, a.current.pc⟩]
      values := [] } := by
  obtain ⟨inner, bottom, hframes, hbase, hinner⟩ := h.frames
  obtain ⟨values, hstack, hmirrors⟩ := h.stack
  rw [hscopes, List.forall₂_nil_right_iff] at hinner
  subst hinner
  rw [List.map_nil, List.nil_append] at hframes
  obtain ⟨x, rest, hx, hrest, hcurrent, hbase'⟩ := (hframes ▸ hbase).of_rule htoken hu hsame
  obtain ⟨⟨hname, hterm⟩, below, hbelow, hnone⟩ := mirrors_of_cons hmirrors (hstack ▸ hx) hvalues
  rw [List.forall₂_nil_right_iff] at hnone
  subst hnone
  refine ⟨_, ?_, ?_, ⟨[], v.frames, rfl, hbase', ?_⟩, ⟨[], by rw [hrest, hbelow], .nil⟩, h.captured.concat ?_ ?_⟩
  · rw [hcurrent]
    exact h.reading
  · rw [hcurrent]
  · rw [show ({ a with scopes := a.scopes } : Activation).scopes = [] from hscopes]
    exact .nil
  · rw [h.name, hname]
  · rw [hterm] at hmatch
    exact hmatch

/-- A name that is no constant pushes a variable in the declaration, and what mirrors it in the code. -/
theorem Mirrors.of_mention {pc pc' : Address} {x : Name} {vs : List Value} (h : Mirrors wrapped params u a)
    (hfresh : u.Fresh ts) (hu : Rule u pc (.id x) v) (ha : Activation.Rule σ a pc' (.id x) vs b) :
    Mirrors wrapped params v b := by
  obtain ⟨values, hstack, hvalues⟩ := h.stack
  have hpush {x y : Value} (hxy : x.Mirrors a.assignment y) : ∃ values, Slot.value x :: u.stack = values.map .value ∧
      List.Forall₂ (Value.Mirrors a.assignment) values (y :: a.values) :=
    ⟨x :: values, by simp [hstack], .cons hxy hvalues⟩
  rcases h.lookup_cases hfresh σ x with ⟨b, hub, hab⟩ | ⟨hub, _⟩
  · cases hu with
    | captured hlookup => simp [hub] at hlookup
    | bound hlookup =>
      cases ha with
      | captured hlookup' =>
        rcases hab with ⟨b', hab, _⟩ | ⟨y, hab, hterm⟩
        · simp [hab] at hlookup'
        · obtain rfl : y = _ := by simpa [hab] using hlookup'
          exact { h with stack := hpush ⟨rfl, hterm.symm⟩ }
      | bound hlookup' =>
        rcases hab with ⟨b', _, hterm⟩ | ⟨y, hab, _⟩
        · exact { h with stack := hpush ⟨rfl, hterm.symm⟩ }
        · simp [hab] at hlookup'
      | extend htoken | grab htoken => simp at htoken
    | extend htoken | grab htoken => simp at htoken
  · -- A rule for the name means that it refers to no constant.
    cases hu with
    | captured hlookup | bound hlookup => simp [hub] at hlookup
    | extend htoken | grab htoken => simp at htoken

/-- A name that is no constant in the declaration is none in the code. -/
theorem Mirrors.lookup_ne_constant {pc : Address} {x : Name} (h : Mirrors wrapped params u a) (hfresh : u.Fresh ts)
    (hu : Rule u pc (.id x) v) {entry : Nat} {c : Constant} : a.lookup σ x ≠ some (.constant entry c) := by
  rcases h.lookup_cases hfresh σ x with ⟨_, _, ⟨_, hab, _⟩ | ⟨_, hab, _⟩⟩ | ⟨hub, _⟩
  · simp [hab]
  · simp [hab]
  · cases hu with
    | captured hlookup | bound hlookup => simp [hub] at hlookup
    | extend htoken | grab htoken => simp at htoken

theorem Mirrors.frames_ne_call (h : Mirrors wrapped params u a) {call : Call} {outer : List Frame} :
    u.frames ≠ .call call :: outer := by
  obtain ⟨inner, bottom, hframes, hbase, _⟩ := h.frames
  rw [hframes]
  cases inner with
  | nil => cases hbase <;> simp
  | cons sc inner => simp

/-- **Executing the same token keeps the two executions alike.** -/
theorem Mirrors.of_rule {pc pc' : Address} {tok : Token} {vs : List Value} (h : Mirrors wrapped params u a)
    (hfresh : u.Fresh ts) (hu : Rule u pc tok v) (hsame : v.signature = u.signature)
    (ha : Activation.Rule σ a pc' tok vs b) : ∃ params', Mirrors wrapped params' v b := by
  obtain ⟨inner, bottom, hframes, hbase, hscopes⟩ := h.frames
  obtain ⟨values, hstack, hvalues⟩ := h.stack
  cases ha with
  | type =>
    cases hu with
    | type => exact ⟨params, { h with stack := ⟨_ :: values, by simp [hstack], .cons ⟨rfl, rfl⟩ hvalues⟩ }⟩
    | extend htoken | grab htoken => simp at htoken
  | colon =>
    cases hu with
    | colon => exact ⟨params, { h with reading := rfl }⟩
    | extend htoken | grab htoken => simp at htoken
  | openPi =>
    cases hu with
    | openPi =>
      exact ⟨params, { h with frames := ⟨⟨.pi, u.current.pc, []⟩ :: inner, bottom, by simp [hframes], hbase,
        .cons ⟨rfl, rfl⟩ hscopes⟩ }⟩
    | extend htoken | grab htoken => simp at htoken
  | openLam =>
    cases hu with
    | openLam =>
      exact ⟨params, { h with frames := ⟨⟨.lam, u.current.pc, []⟩ :: inner, bottom, by simp [hframes], hbase,
        .cons ⟨rfl, rfl⟩ hscopes⟩ }⟩
    | extend htoken | grab htoken => simp at htoken
  | closePi hvalues' _ hscopes' =>
    cases hu with
    | closePi hstack' _ hframes' =>
      obtain ⟨⟨hname, hterm⟩, below, rfl, hbelow⟩ := mirrors_of_cons hvalues (hstack ▸ hstack') hvalues'
      obtain ⟨⟨_, htelescope⟩, outer, rfl, houter⟩ := mirrors_of_scope hscopes (hframes ▸ hframes') hscopes'
      refine ⟨params, { h with
        name := rfl
        frames := ⟨outer, bottom, rfl, hbase, houter⟩
        stack := ⟨⟨_, _, _⟩ :: below, rfl, .cons ⟨?_, ?_⟩ hbelow⟩ }⟩
      · simp only [h.name, hname]
      · simp only [hterm, htelescope, ← Expr.replace_pis]
        rfl
    | extend htoken | grab htoken => simp at htoken
  | closeLam hvalues' hscopes' =>
    cases hu with
    | closeLam hstack' hframes' =>
      obtain ⟨⟨hname, hterm⟩, below, rfl, hbelow⟩ := mirrors_of_cons hvalues (hstack ▸ hstack') hvalues'
      obtain ⟨⟨_, htelescope⟩, outer, rfl, houter⟩ := mirrors_of_scope hscopes (hframes ▸ hframes') hscopes'
      refine ⟨params, { h with
        name := rfl
        frames := ⟨outer, bottom, rfl, hbase, houter⟩
        stack := ⟨⟨_, _, _⟩ :: below, rfl, .cons ⟨?_, ?_⟩ hbelow⟩ }⟩
      · simp only [h.name, hname]
      · simp only [hterm, htelescope, ← Expr.replace_lams]
        rfl
    | extend htoken | grab htoken => simp at htoken
  | extend htoken hvalues' _ hscopes' =>
    cases hu with
    | extend _ hstack' _ hframes' =>
      obtain ⟨⟨hname, hterm⟩, below, rfl, hbelow⟩ := mirrors_of_cons hvalues (hstack ▸ hstack') hvalues'
      obtain ⟨hscope, outer, rfl, houter⟩ := mirrors_of_scope hscopes (hframes ▸ hframes') hscopes'
      exact ⟨params, { h with
        name := rfl
        frames := ⟨_ :: outer, bottom, rfl, hbase, .cons (hscope.push (by simp only [h.name, hname]) hterm) houter⟩
        stack := ⟨below, rfl, hbelow⟩ }⟩
    | declare _ _ hframes' =>
      rw [hscopes', List.forall₂_cons_right_iff] at hscopes
      obtain ⟨_, _, _, _, rfl⟩ := hscopes
      simp [hframes'] at hframes
    | define => simp at hsame
    | grab _ _ _ hframes' => exact absurd hframes' h.frames_ne_call
    | _ => simp at htoken
  | grab htoken hvalues' _ hscopes' hmatch =>
    rcases htoken with htoken | htoken | rfl
    · exact h.of_grab (.inl htoken) hu hsame hvalues' hscopes' hmatch
    · exact h.of_grab (.inr htoken) hu hsame hvalues' hscopes' hmatch
    · -- No call is open in the declaration.
      cases hu with
      | extend htoken => simp at htoken
      | grab _ _ _ hframes' => exact absurd hframes' h.frames_ne_call
  | captured hlookup => exact ⟨params, h.of_mention hfresh hu (.captured hlookup)⟩
  | bound hlookup => exact ⟨params, h.of_mention hfresh hu (.bound hlookup)⟩

/-! ## The same call in both -/

theorem terms_eq_of_mirrors {values values' : List Value} (h : List.Forall₂ (Value.Mirrors ρ) values values') :
    values'.map (·.term) = (values.map (·.term)).map (Expr.replace ρ) := by
  induction h with
  | nil => rfl
  | cons hfirst _ ih => simp only [List.map_cons, hfirst.2, ih]

/-- **A call of the same constant keeps the two executions alike.** It captures equally many values in both. -/
theorem Mirrors.of_calls {entry m n : Nat} {c : Constant} {vs rest : List Value} {r : Value} {pc : Address}
    (h : Mirrors wrapped params u a) (hcalls : u.Calls entry c) (hreturns : u.Returns n v)
    (hσ : σ[entry]? = some c) (hbody : Eval σ m (.start entry c) vs b) (hreturning : b.Returning σ r)
    (hvalues : a.values = vs ++ rest) :
    Mirrors wrapped params v { a with current.pc := pc, values := result c vs r :: rest } := by
  obtain ⟨m', ws, below, b', r', pc', _, hbody', hreturning', hstack, _, rfl⟩ := hcalls.returns_iff_eval.mp hreturns
  have hlength : ws.length = vs.length :=
    Eval.length_eq_length hcalls.getElem?_eq hσ hbody' hreturning' hbody hreturning
  obtain ⟨values, hu, hmirrors⟩ := h.stack
  rw [hu, List.map_eq_append_iff] at hstack
  obtain ⟨ws', left, rfl, hws, rfl⟩ := hstack
  obtain rfl : ws' = ws := (List.map_inj_right fun _ _ => Slot.value.inj).mp hws
  rw [hvalues] at hmirrors
  have hcaptured := List.forall₂_take_append _ _ _ hmirrors
  have hleft := List.forall₂_drop_append _ _ _ hmirrors
  rw [← hlength, List.take_left] at hcaptured
  rw [← hlength, List.drop_left] at hleft
  refine { h with stack := ⟨result c ws' r' :: left, rfl, .cons ⟨rfl, ?_⟩ hleft⟩ }
  simp only [result, Expr.replace_const, terms_eq_of_mirrors hcaptured]
  rfl

end State

end Stepwise
