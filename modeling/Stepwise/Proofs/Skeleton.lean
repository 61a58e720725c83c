import Stepwise.Proofs.Mirror

/-!
# The names in an execution

The skeleton of an execution is what it has bound and pushed, told by names alone: no term and no type is in it. What a
token does to the skeleton is a function of the token (`Skeleton.next?`), and it is the same for the execution of a
declaration in the token stream (`State.Outlines.of_rule`) and for the execution of its code in a call
(`Activation.Rule.skeleton_eq`), where arguments take the place of variables. A name is bound in an execution if it
is bound in the skeleton, so a name that refers to a constant in one of two executions with the same skeleton refers to
a constant in the other (`State.Outlines.resolve_eq_none_iff`, `Activation.lookup_of_not_binds`).

A name is in the skeleton as its label. Names that no identifier mentions may share a label: nothing can tell them
apart.
-/

namespace Stepwise

/-- What stands for a name in a skeleton: the name itself, if it can be told apart. -/
abbrev Label := Option Name

/-- What an execution has bound and pushed, told by the labels of names. -/
structure Skeleton where
  reading : Bool
  name : Option Label
  /-- The variables of the open scopes, innermost scope first. -/
  scopes : List (List (Option Label))
  /-- The variables of the declaration, or the arguments captured for them. -/
  params : List (Option Label)
  /-- Top first. -/
  values : List (Option Label)

namespace Skeleton

/-- A value is bound: by the innermost scope, or as a parameter. -/
def bind? (k : Skeleton) : Option Skeleton :=
  match k.scopes, k.values with
  | _, [] => none
  | [], v :: values => some { k with name := none, params := k.params ++ [k.name.or v], values }
  | sc :: scopes, v :: values => some { k with name := none, scopes := (sc ++ [k.name.or v]) :: scopes, values }

/-- A scope is closed over a value. -/
def close? (k : Skeleton) : Option Skeleton :=
  match k.scopes, k.values with
  | _ :: scopes, v :: values => some { k with name := none, scopes, values := k.name.or v :: values }
  | _, _ => none

/-- What an executed token does that neither enters nor leaves a constant. -/
def next? (k : Skeleton) : Token → Option Skeleton
  | .type | .id _ => some { k with values := none :: k.values }
  | .colon => some { k with reading := true }
  | .lparen | .lbrack => some { k with scopes := [] :: k.scopes }
  | .rparen | .rbrack => k.close?
  | .arrow | .dot | .grab => k.bind?
  | .ret | .eof => none

/-- What a call does that captures so many values. -/
def called (k : Skeleton) (arity : Nat) : Skeleton := { k with values := none :: k.values.drop arity }

/-- A variable or a parameter has the name. -/
def Binds (k : Skeleton) (x : Name) : Prop := some (some x) ∈ k.scopes.flatten ++ k.params

end Skeleton

variable {label : Name → Label} {x : Name}

/-- The label of the name tells it apart from all others. -/
def Told (label : Name → Label) (x : Name) : Prop := ∀ y, label y = some x ↔ y = x

theorem Told.mem_map_iff (h : Told label x) (names : List (Option Name)) :
    some (some x) ∈ names.map (·.map label) ↔ some x ∈ names := by
  simp only [List.mem_map, Option.map_eq_some_iff]
  constructor
  · rintro ⟨_, hmem, y, rfl, hy⟩
    rwa [(h y).mp hy] at hmem
  · intro hmem
    exact ⟨some x, hmem, x, rfl, (h x).mpr rfl⟩

/-- The labels of the variables of a scope. -/
def Scope.labels (label : Name → Label) (sc : Scope) : List (Option Label) :=
  (Frame.scope sc).names.map (·.map label)

@[simp] theorem Scope.labels_push (label : Name → Label) (sc : Scope) (b : Binder) :
    (sc.push b).labels label = sc.labels label ++ [b.name.map label] := by
  simp [Scope.labels, Frame.names]

@[simp] theorem Scope.labels_empty (label : Name → Label) (kind : ScopeKind) (origin : Address) :
    Scope.labels label ⟨kind, origin, []⟩ = [] := rfl

theorem Told.mem_labels_iff (h : Told label x) (scopes : List Scope) :
    some (some x) ∈ (scopes.map (Scope.labels label)).flatten ↔
      some x ∈ (scopes.map Frame.scope).flatMap Frame.names := by
  simp only [List.mem_flatten, List.mem_map, exists_exists_and_eq_and, List.mem_flatMap, Scope.labels, h.mem_map_iff]

/-! ## The execution of a code -/

namespace Activation

variable {σ : Signature} {a b : Activation} {tok : Token} {vs : List Value} {pc : Address}

def skeleton (label : Name → Label) (a : Activation) : Skeleton where
  reading := a.current.readingName
  name := a.current.name.map label
  scopes := a.scopes.map (Scope.labels label)
  params := (a.arguments.map (·.name)).map (·.map label)
  values := (a.values.map (·.name)).map (·.map label)

theorem Rule.skeleton_eq (h : Rule σ a pc tok vs b) : (a.skeleton label).next? tok = some (b.skeleton label) := by
  cases h with
  | extend htoken hvalues _ hscopes =>
    rcases htoken with rfl | rfl <;> simp [Skeleton.next?, Skeleton.bind?, skeleton, hvalues, hscopes, Option.map_or]
  | grab htoken hvalues _ hscopes =>
    rcases htoken with rfl | rfl | rfl <;>
      simp [Skeleton.next?, Skeleton.bind?, skeleton, hvalues, hscopes, Option.map_or]
  | closePi hvalues _ hscopes => simp [Skeleton.next?, Skeleton.close?, skeleton, hvalues, hscopes, Option.map_or]
  | closeLam hvalues hscopes => simp [Skeleton.next?, Skeleton.close?, skeleton, hvalues, hscopes, Option.map_or]
  | _ => simp [Skeleton.next?, skeleton]

theorem skeleton_of_call {c : Constant} {rest : List Value} {r : Value} (hvalues : a.values = vs ++ rest) :
    ({ a with current.pc := pc, values := result c vs r :: rest } : Activation).skeleton label =
      (a.skeleton label).called vs.length := by
  simp [skeleton, Skeleton.called, result, hvalues]

theorem binds_iff (hx : Told label x) (a : Activation) : (a.skeleton label).Binds x ↔
    (a.scopes.findSome? (·.binder? x)).isSome = true ∨ (a.argument? x).isSome = true := by
  rw [State.findSome?_binder?_isSome, State.argument?_isSome, ← hx.mem_labels_iff, ← hx.mem_map_iff]
  exact List.mem_append

/-- A name that the skeleton binds refers to no constant. -/
theorem lookup_ne_constant (hx : Told label x) (h : (a.skeleton label).Binds x) (entry : Nat) (c : Constant) :
    a.lookup σ x ≠ some (.constant entry c) := by
  unfold lookup
  cases hscopes : a.scopes.findSome? (·.binder? x) with
  | some b => simp
  | none =>
    rcases (binds_iff hx a).mp h with hbound | hcaptured
    · simp [hscopes] at hbound
    · obtain ⟨y, hy⟩ := Option.isSome_iff_exists.mp hcaptured
      simp [hy]

theorem lookup_of_not_binds (hx : Told label x) (h : ¬(a.skeleton label).Binds x) :
    a.lookup σ x = (σ.newest? x).map fun found => .constant found.1 found.2 := by
  rw [binds_iff hx, not_or, Option.not_isSome_iff_eq_none, Option.not_isSome_iff_eq_none] at h
  rw [lookup, h.1, h.2]

end Activation

/-! ## The execution of a declaration -/

namespace State

variable {u v : State} {k k' : Skeleton} {tok : Token} {pc : Address} {wrapped : Bool} {left : List Slot}

/-- The state, in a declaration that began with `left` on the stack, has the skeleton `k`. -/
structure Outlines (label : Name → Label) (wrapped : Bool) (left : List Slot) (u : State) (k : Skeleton) : Prop where
  reading : k.reading = u.current.readingName
  name : k.name = u.current.name.map label
  frames : ∃ (inner : List Scope) (bottom : List Frame) (params : List (Option Name × Expr)),
    u.frames = inner.map .scope ++ bottom ∧ Base wrapped bottom params ∧
      k.scopes = inner.map (Scope.labels label) ∧ k.params = (params.map (·.1)).map (·.map label)
  stack : ∃ values : List Value,
    u.stack = values.map .value ++ left ∧ k.values = (values.map (·.name)).map (·.map label)

/-- If the skeleton has a value, it is on top of the stack. -/
theorem Outlines.stack_eq_cons (h : Outlines label wrapped left u k) {l : Option Label} {ls : List (Option Label)}
    (hvalues : k.values = l :: ls) {y : Value} {rest : List Slot} (hstack : u.stack = .value y :: rest) :
    l = y.name.map label ∧ ∃ values : List Value,
      rest = values.map .value ++ left ∧ ls = (values.map (·.name)).map (·.map label) := by
  obtain ⟨values, hu, hk⟩ := h.stack
  rw [hvalues] at hk
  cases values with
  | nil => simp at hk
  | cons z values =>
    rw [hu] at hstack
    simp only [List.map_cons, List.cons_append, List.cons.injEq, Slot.value.injEq] at hstack hk
    obtain ⟨rfl, rfl⟩ := hstack
    exact ⟨hk.1, values, rfl, hk.2⟩

/-- If the skeleton has an open scope, it is the innermost frame. -/
theorem Outlines.frames_eq_cons (h : Outlines label wrapped left u k) {ls : List (Option Label)}
    {lss : List (List (Option Label))} (hscopes : k.scopes = ls :: lss) {f : Frame} {outer : List Frame}
    (hframes : u.frames = f :: outer) : ∃ (sc : Scope) (inner : List Scope) (bottom : List Frame)
      (params : List (Option Name × Expr)), f = .scope sc ∧ ls = sc.labels label ∧
      outer = inner.map .scope ++ bottom ∧ Base wrapped bottom params ∧ lss = inner.map (Scope.labels label) ∧
      k.params = (params.map (·.1)).map (·.map label) := by
  obtain ⟨inner, bottom, params, hu, hbase, hk, hparams⟩ := h.frames
  rw [hscopes] at hk
  cases inner with
  | nil => simp at hk
  | cons sc inner =>
    rw [hu] at hframes
    simp only [List.map_cons, List.cons_append, List.cons.injEq] at hframes hk
    exact ⟨sc, inner, bottom, params, hframes.1.symm, hk.1, hframes.2.symm, hbase, hk.2, hparams⟩

/-- Without an open scope, the frames are those of the declaration. -/
theorem Outlines.base (h : Outlines label wrapped left u k) (hscopes : k.scopes = []) :
    ∃ params : List (Option Name × Expr), Base wrapped u.frames params ∧
      k.params = (params.map (·.1)).map (·.map label) := by
  obtain ⟨inner, bottom, params, hu, hbase, hk, hparams⟩ := h.frames
  rw [hscopes, eq_comm, List.map_eq_nil_iff] at hk
  subst hk
  exact ⟨params, by rw [hu]; exact hbase, hparams⟩

theorem Outlines.of_bind (h : Outlines label wrapped left u k) (htoken : tok = .arrow ∨ tok = .dot)
    (hrule : Rule u pc tok v) (hsame : v.signature = u.signature) (hnext : k.bind? = some k') :
    Outlines label wrapped left v k' := by
  unfold Skeleton.bind? at hnext
  split at hnext
  · cases hnext
  · -- Outside all scopes the declaration gets a parameter.
    rename_i l ls hscopes hvalues
    cases hnext
    obtain ⟨params, hbase, hparams⟩ := h.base hscopes
    obtain ⟨y, rest, hstack, hrest, hcurrent, hbase'⟩ := hbase.of_rule htoken hrule hsame
    obtain ⟨rfl, values, rfl, rfl⟩ := h.stack_eq_cons hvalues hstack
    refine ⟨by rw [hcurrent]; exact h.reading, by rw [hcurrent]; rfl, ⟨[], _, _, rfl, hbase', ?_, ?_⟩,
      ⟨values, hrest, rfl⟩⟩
    · exact hscopes
    · simp [hparams, h.name, Option.map_or]
  · rename_i ls lss l ls' hscopes hvalues
    cases hnext
    cases hrule with
    | extend _ hstack _ hframes =>
      obtain ⟨rfl, values, rfl, rfl⟩ := h.stack_eq_cons hvalues hstack
      obtain ⟨sc, inner, bottom, params, hsc, rfl, rfl, hbase, rfl, hparams⟩ := h.frames_eq_cons hscopes hframes
      cases hsc
      refine ⟨h.reading, rfl, ⟨_ :: inner, bottom, params, rfl, hbase, ?_, hparams⟩, ⟨values, rfl, rfl⟩⟩
      simp [h.name, Option.map_or]
    | declare _ _ hframes =>
      obtain ⟨inner, _, _, hu, _, hk, _⟩ := h.frames
      rw [hframes, eq_comm, List.append_eq_nil_iff, List.map_eq_nil_iff] at hu
      simp [hu.1, hscopes] at hk
    | define => simp at hsame
    | grab _ _ _ hframes =>
      obtain ⟨sc, _, _, _, hsc, _⟩ := h.frames_eq_cons hscopes hframes
      cases hsc
    | _ => simp at htoken

theorem Outlines.of_close (h : Outlines label wrapped left u k) (hnext : k.close? = some k') {body y : Value}
    {rest : List Slot} {f : Frame} {outer : List Frame} (hstack : u.stack = .value body :: rest)
    (hframes : u.frames = f :: outer) (hname : y.name = u.current.name.or body.name) :
    Outlines label wrapped left
      { u with current.pc := pc, current.name := none, frames := outer, stack := .value y :: rest } k' := by
  unfold Skeleton.close? at hnext
  split at hnext
  · rename_i ls lss l ls' hscopes hvalues
    cases hnext
    obtain ⟨rfl, values, rfl, rfl⟩ := h.stack_eq_cons hvalues hstack
    obtain ⟨_, inner, bottom, params, _, _, rfl, hbase, rfl, hparams⟩ := h.frames_eq_cons hscopes hframes
    refine ⟨h.reading, rfl, ⟨inner, bottom, params, rfl, hbase, rfl, hparams⟩, ⟨y :: values, rfl, ?_⟩⟩
    simp [hname, h.name, Option.map_or]
  · cases hnext

theorem Outlines.push (h : Outlines label wrapped left u k) (y : Value) (hname : y.name = none) :
    Outlines label wrapped left { u with current.pc := pc, stack := .value y :: u.stack }
      { k with values := none :: k.values } := by
  obtain ⟨values, hstack, hvalues⟩ := h.stack
  exact ⟨h.reading, h.name, h.frames, ⟨y :: values, by simp [hstack], by simp [hvalues, hname]⟩⟩

theorem Outlines.openScope (h : Outlines label wrapped left u k) (kind : ScopeKind) :
    Outlines label wrapped left
      { u with current.pc := pc, frames := .scope ⟨kind, u.current.pc, []⟩ :: u.frames }
      { k with scopes := [] :: k.scopes } := by
  obtain ⟨inner, bottom, params, hframes, hbase, hscopes, hparams⟩ := h.frames
  exact ⟨h.reading, h.name, ⟨⟨kind, u.current.pc, []⟩ :: inner, bottom, params, by simp [hframes], hbase,
    by simp [hscopes], hparams⟩, h.stack⟩

/-- **An executed token does to the skeleton of a declaration what it does to every skeleton.** -/
theorem Outlines.of_rule (h : Outlines label wrapped left u k) (hrule : Rule u pc tok v)
    (hsame : v.signature = u.signature) (hnext : k.next? tok = some k') : Outlines label wrapped left v k' := by
  have hrule' := hrule
  cases hrule with
  | type => cases hnext; exact h.push _ rfl
  | colon => cases hnext; exact ⟨rfl, h.name, h.frames, h.stack⟩
  | openPi => cases hnext; exact h.openScope .pi
  | openLam => cases hnext; exact h.openScope .lam
  | closePi hstack _ hframes => exact h.of_close hnext hstack hframes rfl
  | closeLam hstack hframes => exact h.of_close hnext hstack hframes rfl
  | extend htoken =>
    refine h.of_bind htoken hrule' hsame ?_
    rcases htoken with rfl | rfl <;> exact hnext
  | declare => exact h.of_bind (.inl rfl) hrule' hsame hnext
  | define => simp at hsame
  | grab _ _ _ hframes =>
    obtain ⟨inner, bottom, params, hu, hbase, _⟩ := h.frames
    cases inner <;> cases hbase <;> simp [hframes] at hu
  | captured => cases hnext; exact h.push _ rfl
  | bound => cases hnext; exact h.push _ rfl

/-- A call captures values from the top of the stack and pushes one. -/
theorem Outlines.of_call (h : Outlines label wrapped left u k) {ws : List Value} {below : List Slot}
    (hstack : u.stack = ws.map .value ++ below) (hle : ws.length ≤ k.values.length) (y : Value)
    (hname : y.name = none) :
    Outlines label wrapped left { u with current.pc := pc, stack := .value y :: below } (k.called ws.length) := by
  obtain ⟨values, hu, hvalues⟩ := h.stack
  have hle' : ws.length ≤ (values.map Slot.value).length := by
    rw [hvalues, List.length_map, List.length_map] at hle
    rwa [List.length_map]
  have hbelow : below = (values.drop ws.length).map .value ++ left := by
    have hsame := congrArg (List.drop ws.length) (hstack.symm.trans hu)
    rwa [List.drop_left' (List.length_map _), List.drop_append_of_le_length hle', ← List.map_drop] at hsame
  refine ⟨h.reading, h.name, h.frames, ⟨y :: values.drop ws.length, by simp [hbelow], ?_⟩⟩
  simp [Skeleton.called, hvalues, hname, List.map_drop]

theorem Outlines.resolve_eq_none_iff (hx : Told label x) (h : Outlines label wrapped left u k) :
    resolve u.current.pc.inCode x u.frames = none ↔ ¬k.Binds x := by
  obtain ⟨inner, bottom, params, hframes, hbase, hscopes, hparams⟩ := h.frames
  rw [Skeleton.Binds, List.mem_append, hscopes, hparams, hx.mem_labels_iff, hx.mem_map_iff,
    ← findSome?_binder?_isSome, hframes, resolve_scopes]
  cases inner.findSome? (·.binder? x) with
  | some b => simp
  | none =>
    rcases hbase.resolve_cases u.current.pc.inCode x with ⟨b, hb, hx⟩ | ⟨hnone, hx⟩
    · simp [hb, hx]
    · simp [hnone, hx]

end State

end Stepwise
