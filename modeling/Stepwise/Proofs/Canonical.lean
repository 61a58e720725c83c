import Stepwise.Proofs.Contents

/-!
# What terms and types look like

A term tells a good deal about its type. `kind` is the type of `type` and of the function types that end in it, and of
nothing else; a function type is a type; a function has the function type with the same binder; and what applies a
constant or a variable has a type without `kind`. `Canonical` says this of a term and its type, and `Grounded` says what
an expression is made of: variables without a spine, and constants of the signature.

The constructions of values keep both (`constructed_canonical`), so they hold throughout a run
(`values_are_canonical`). The signature only grows, hence a constant that was known stays known.
-/

namespace Stepwise

namespace Expr

variable {e k a b : Expr} {n : Option Name} {x : Name} {es : List Expr} {binders : List (Option Name × Expr)}

/-! ## What an expression is made of -/

mutual

/-- The expressions that occur in an expression, itself included. -/
def parts : Expr → List Expr
  | type => [type]
  | kind => [kind]
  | pi n a b => pi n a b :: (parts a ++ parts b)
  | lam n a b => lam n a b :: (parts a ++ parts b)
  | const name spine => const name spine :: partsSpine spine
  | var name spine => var name spine :: partsSpine spine

def partsSpine : List Expr → List Expr
  | [] => []
  | e :: es => parts e ++ partsSpine es

end

theorem partsSpine_eq (es : List Expr) : partsSpine es = es.flatMap parts := by
  induction es with
  | nil => rfl
  | cons e es ih => rw [partsSpine, ih, List.flatMap_cons]

/-- A property of everything that occurs in an expression. -/
def Throughout (p : Expr → Prop) (e : Expr) : Prop := ∀ part ∈ e.parts, p part

section Throughout

variable {p : Expr → Prop}

theorem throughout_pi : (pi n a b).Throughout p ↔ p (pi n a b) ∧ a.Throughout p ∧ b.Throughout p := by
  simp only [Throughout, parts, List.forall_mem_cons, List.forall_mem_append]

theorem throughout_lam : (lam n a b).Throughout p ↔ p (lam n a b) ∧ a.Throughout p ∧ b.Throughout p := by
  simp only [Throughout, parts, List.forall_mem_cons, List.forall_mem_append]

theorem throughout_var : (var x []).Throughout p ↔ p (var x []) := by
  simp only [Throughout, parts, partsSpine, List.forall_mem_singleton]

theorem throughout_const : (const x es).Throughout p ↔ p (const x es) ∧ ∀ e ∈ es, e.Throughout p := by
  simp only [Throughout, parts, List.forall_mem_cons, partsSpine_eq, List.forall_mem_flatMap]

theorem Throughout.pis (hpi : ∀ n a b, p (pi n a b)) (hbinders : ∀ b ∈ binders, b.2.Throughout p)
    (he : e.Throughout p) : (pis binders e).Throughout p := by
  induction binders with
  | nil => exact he
  | cons b binders ih =>
    rw [List.forall_mem_cons] at hbinders
    exact throughout_pi.mpr ⟨hpi _ _ _, hbinders.1, ih hbinders.2⟩

theorem Throughout.lams (hlam : ∀ n a b, p (lam n a b)) (hbinders : ∀ b ∈ binders, b.2.Throughout p)
    (he : e.Throughout p) : (lams binders e).Throughout p := by
  induction binders with
  | nil => exact he
  | cons b binders ih =>
    rw [List.forall_mem_cons] at hbinders
    exact throughout_lam.mpr ⟨hlam _ _ _, hbinders.1, ih hbinders.2⟩

end Throughout

/-- `kind` does not occur in the expression. -/
def Kindless (e : Expr) : Prop := e.Throughout (· ≠ kind)

/-- A variable has no spine, and a constant is one of the signature. -/
def Known (σ : Signature) : Expr → Prop
  | var _ spine => spine = []
  | const c _ => ∃ d ∈ σ, d.name = c
  | _ => True

/-- Every variable in the expression has no spine, and every constant is one of the signature. -/
def Grounded (σ : Signature) (e : Expr) : Prop := e.Throughout (Known σ)

theorem Known.mono {σ τ : Signature} (h : Known σ e) (hgrown : σ <+: τ) : Known τ e := by
  cases e with
  | const c spine =>
    obtain ⟨d, hd, hname⟩ := h
    exact ⟨d, hgrown.subset hd, hname⟩
  | _ => exact h

theorem Grounded.mono {σ τ : Signature} (h : e.Grounded σ) (hgrown : σ <+: τ) : e.Grounded τ :=
  fun part hpart => (h part hpart).mono hgrown

/-! ## Canonical forms -/

/-- Whether the expression is `type` behind any number of function types. -/
def endsInType : Expr → Bool
  | type => true
  | pi _ _ b => endsInType b
  | _ => false

/-- What the form of a term says about its type. The body of a function and the type behind its binder are again such a
pair. -/
def Canonical (e k : Expr) : Prop :=
  e.Kindless ∧ (k = kind ↔ e.endsInType = true) ∧
    match e with
    | pi _ _ _ => k = type ∨ k = kind
    | lam n a m => ∃ l, k = pi n a l ∧ Canonical m l
    | const _ _ | var _ _ => k.Kindless
    | type | kind => True

theorem Canonical.kindless (h : Canonical e k) : e.Kindless := by
  rw [Canonical.eq_def] at h
  exact h.1

theorem Canonical.eq_kind_iff (h : Canonical e k) : k = kind ↔ e.endsInType = true := by
  rw [Canonical.eq_def] at h
  exact h.2.1

theorem endsInType_pis : (pis binders e).endsInType = e.endsInType := by
  induction binders with
  | nil => rfl
  | cons b binders ih => exact ih

theorem kindless_type : type.Kindless := by simp [Kindless, Throughout, parts]

theorem Kindless.ne_kind (h : e.Kindless) : e ≠ kind := by
  rintro rfl
  exact h kind (by simp [parts]) rfl

theorem canonical_type : Canonical type kind := ⟨kindless_type, by simp [endsInType], trivial⟩

theorem canonical_var (hk : k.Kindless) : Canonical (var x []) k :=
  ⟨throughout_var.mpr nofun, by simp [hk.ne_kind, endsInType], hk⟩

theorem canonical_const (hes : ∀ e ∈ es, e.Kindless) (hk : k.Kindless) : Canonical (const x es) k :=
  ⟨throughout_const.mpr ⟨nofun, hes⟩, by simp [hk.ne_kind, endsInType], hk⟩

/-- A function type has the type of its body, which is `type` or `kind`. -/
theorem canonical_pis (hbinders : ∀ b ∈ binders, b.2.Kindless) (h : Canonical e k) (hsort : k.isSort = true) :
    Canonical (pis binders e) k := by
  cases binders with
  | nil => exact h
  | cons b binders =>
    refine ⟨Throughout.pis nofun hbinders h.kindless, ?_, isSort_iff.mp hsort⟩
    rw [endsInType_pis]
    exact h.eq_kind_iff

/-- A function over the binders has the function type over the same binders. -/
theorem canonical_lams (hbinders : ∀ b ∈ binders, b.2.Kindless) (h : Canonical e k) :
    Canonical (lams binders e) (pis binders k) := by
  induction binders with
  | nil => exact h
  | cons b binders ih =>
    have hrest := ih (List.forall_mem_cons.mp hbinders).2
    exact ⟨Throughout.lams nofun hbinders h.kindless, by simp [endsInType], _, rfl, hrest⟩

end Expr

open Stepwise.Expr

/-! ## Along a run -/

/-- A term and its type are canonical, and made of what the signature knows. -/
structure Formed (σ : Signature) (e k : Expr) : Prop where
  canonical : Canonical e k
  term : e.Grounded σ
  type : k.Grounded σ

/-- The type of a variable or of a constant. -/
structure FormedType (σ : Signature) (a : Expr) : Prop where
  kindless : a.Kindless
  grounded : a.Grounded σ

theorem FormedType.mono {σ τ : Signature} {a : Expr} (h : FormedType σ a) (hgrown : σ <+: τ) : FormedType τ a :=
  ⟨h.kindless, h.grounded.mono hgrown⟩

theorem Formed.mono {σ τ : Signature} {e k : Expr} (h : Formed σ e k) (hgrown : σ <+: τ) : Formed τ e k :=
  ⟨h.canonical, h.term.mono hgrown, h.type.mono hgrown⟩

theorem constructed_canonical (σ : Signature) :
    Constructed (fun _ => True) (fun c => ∃ d ∈ σ, d.name = c) (Formed σ) (FormedType σ) where
  type := ⟨canonical_type, by simp [Grounded, Throughout, parts, Known], by simp [Grounded, Throughout, parts, Known]⟩
  domain h _ := ⟨h.canonical.kindless, h.term⟩
  var _ ha := ⟨canonical_var ha.kindless, throughout_var.mpr rfl, ha.grounded⟩
  const hc hspine h _ := by
    refine ⟨canonical_const (fun a ha => ?_) h.canonical.kindless, throughout_const.mpr ⟨hc, fun a ha => ?_⟩, h.term⟩
    · obtain ⟨k, hk⟩ := hspine a ha
      exact hk.canonical.kindless
    · obtain ⟨k, hk⟩ := hspine a ha
      exact hk.term
  pis hbinders h hsort :=
    ⟨canonical_pis (fun b hb => (hbinders b hb).kindless) h.canonical hsort,
      h.term.pis (fun _ _ _ => trivial) fun b hb => (hbinders b hb).grounded, h.type⟩
  lams hbinders h :=
    ⟨canonical_lams (fun b hb => (hbinders b hb).kindless) h.canonical,
      h.term.lams (fun _ _ _ => trivial) fun b hb => (hbinders b hb).grounded,
      h.type.pis (fun _ _ _ => trivial) fun b hb => (hbinders b hb).grounded⟩

namespace State

variable {s t : State} {text : String}

/-- What the steps keep: everything on the stack and in the frames, and every type of a constant, is well formed. -/
structure WellFormed (s : State) : Prop where
  holds : s.Holds (fun c => ∃ d ∈ s.signature, d.name = c) (Formed s.signature) (FormedType s.signature)
  types : ∀ c ∈ s.signature, FormedType s.signature c.type

/-- What is well formed over a signature stays so when it grows. -/
theorem Holds.mono {σ τ : Signature} (hgrown : σ <+: τ)
    (h : s.Holds (fun c => ∃ d ∈ σ, d.name = c) (Formed σ) (FormedType σ)) :
    s.Holds (fun c => ∃ d ∈ τ, d.name = c) (Formed τ) (FormedType τ) := by
  refine ⟨fun v hv => (h.stack v hv).mono hgrown, fun f hf => ?_⟩
  have hframe := h.frames f hf
  cases f with
  | scope sc => exact fun b hb => (hframe b hb).mono hgrown
  | call c =>
    obtain ⟨⟨d, hd, hname⟩, harguments⟩ := hframe
    exact ⟨⟨d, hgrown.subset hd, hname⟩, fun a ha => (harguments a ha).mono hgrown⟩

theorem WellFormed.of_step (hs : s.WellFormed) (h : s.step = .ok (some t)) : t.WellFormed := by
  rcases step_cases h with hmove | ⟨_, e, rfl⟩
  · have hgrown := hmove.grows.signature
    have hholds := hs.holds.mono hgrown
    have htypes : ∀ c ∈ s.signature, FormedType t.signature c.type := fun c hc => (hs.types c hc).mono hgrown
    refine ⟨hmove.holds (constructed_canonical t.signature) (fun _ _ => trivial) (fun entry c hcalls => ?_) hholds,
      hmove.types_hold (constructed_canonical t.signature) hholds htypes⟩
    exact ⟨c, hgrown.subset (List.mem_of_getElem? hcalls.getElem?_eq), rfl⟩
  · exact ⟨⟨hs.holds.stack, hs.holds.frames⟩, hs.types⟩

theorem Reachable.wellFormed (h : Reachable text s) : s.WellFormed := by
  refine h.induction ?_ fun _ _ => WellFormed.of_step
  exact ⟨⟨by simp [StackHolds, ofText, start], by simp [ofText, start]⟩, by simp [ofText, start]⟩

/-- **In every state of a run, values and arguments are canonical, the types of variables and constants are without
`kind`, and all of them are made of variables without a spine and constants of the signature.** -/
theorem values_are_canonical (h : Reachable text s) :
    (∀ v, .value v ∈ s.stack →
      Canonical v.term v.type ∧ v.term.Grounded s.signature ∧ v.type.Grounded s.signature) ∧
    (∀ call, .call call ∈ s.frames → ∀ a ∈ call.arguments,
      Canonical a.term a.type ∧ a.term.Grounded s.signature ∧ a.type.Grounded s.signature) ∧
    (∀ sc, .scope sc ∈ s.frames → ∀ b ∈ sc.binders, b.type.Kindless ∧ b.type.Grounded s.signature) ∧
    ∀ c ∈ s.signature, c.type.Kindless ∧ c.type.Grounded s.signature := by
  obtain ⟨⟨hstack, hframes⟩, htypes⟩ := h.wellFormed
  refine ⟨fun v hv => ?_, fun call hcall a ha => ?_, fun sc hsc b hb => ?_, fun c hc => ?_⟩
  · obtain ⟨hcanonical, hterm, htype⟩ := hstack v hv
    exact ⟨hcanonical, hterm, htype⟩
  · obtain ⟨hcanonical, hterm, htype⟩ := (hframes _ hcall).2 a ha
    exact ⟨hcanonical, hterm, htype⟩
  · obtain ⟨hkindless, hgrounded⟩ := hframes _ hsc (b.name, b.type) (List.mem_map.mpr ⟨b, hb, rfl⟩)
    exact ⟨hkindless, hgrounded⟩
  · obtain ⟨hkindless, hgrounded⟩ := htypes c hc
    exact ⟨hkindless, hgrounded⟩

/-- A function that a call has captured: its body, a variable, and the type behind its binder are canonical again. -/
theorem values_are_canonical_of_captured_function :
    ∃ s call a, Reachable "type : o . ( ( o : y -> o ) -> o ) : h . [ o : x -> x ] h" s ∧
      .call call ∈ s.frames ∧ a ∈ call.arguments ∧ a.term = .lam (some "x") (.const "o" []) (.var "x" []) ∧
      a.type = .pi (some "x") (.const "o" []) (.const "o" []) ∧
      Canonical a.term a.type ∧ a.term.Grounded s.signature ∧ a.type.Grounded s.signature := by
  let s := ((ofText "type : o . ( ( o : y -> o ) -> o ) : h . [ o : x -> x ] h").after 46).getD default
  let a : Argument :=
    ⟨none, .lam (some "x") (.const "o" []) (.var "x" []), .pi (some "x") (.const "o" []) (.const "o" []), .code 1 7⟩
  let call : Call := ⟨"h", 1, .stream 25, [a]⟩
  obtain ⟨hreachable, hcall⟩ :
      (ofText "type : o . ( ( o : y -> o ) -> o ) : h . [ o : x -> x ] h").after 46 = some s ∧
        .call call ∈ s.frames := by decide +kernel
  have ha : a ∈ call.arguments := List.mem_singleton_self a
  exact ⟨s, call, a, ⟨46, hreachable⟩, hcall, ha, rfl, rfl,
    (values_are_canonical ⟨46, hreachable⟩).2.1 call hcall a ha⟩

end State

end Stepwise
