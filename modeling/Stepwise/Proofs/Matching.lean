import Stepwise.Proofs.Contents
import Stepwise.Proofs.Readability

/-!
# Which arguments a call accepts

A call captures an argument when its type has the flat form that the parameter asks for. Flat forms are compared as
texts, but the names of a run hold no space, so the comparison is one of words (`Reachable.plain`).

`grab_accepts_iff` says when the flat forms tell two types apart. They do, up to the names of binders and the
difference between constants and variables, for types that can be read back from their flat forms. They do not in
general, and `grab_accepts_other_types` has one program for each condition of `Expr.wellApplied`.
-/

namespace Stepwise

namespace Expr

variable {n : Option Name} {a b e : Expr} {name : Name} {es : List Expr} {binders : List (Option Name × Expr)}

/-! ## Words without spaces -/

theorem spaceless_pi : (pi n a b).Spaceless ↔ a.Spaceless ∧ b.Spaceless := by
  have hmarkers : ' ' ∉ "pi".toList ∧ ' ' ∉ anonymous.toList := by decide
  simp only [Spaceless, flat, List.forall_mem_cons, List.forall_mem_append, hmarkers, not_false_eq_true, true_and]

theorem spaceless_lam : (lam n a b).Spaceless ↔ a.Spaceless ∧ b.Spaceless := by
  have hmarkers : ' ' ∉ "lam".toList ∧ ' ' ∉ anonymous.toList := by decide
  simp only [Spaceless, flat, List.forall_mem_cons, List.forall_mem_append, hmarkers, not_false_eq_true, true_and]

theorem spaceless_const (hname : ' ' ∉ name.toList) (hes : ∀ e ∈ es, e.Spaceless) : (const name es).Spaceless := by
  rw [Spaceless, flat, List.forall_mem_append, flatSpine_eq]
  refine ⟨fun w hw => ?_, List.forall_mem_singleton.mpr hname⟩
  obtain ⟨words, hwords, hw⟩ := List.mem_flatten.mp hw
  obtain ⟨e, he, rfl⟩ := List.mem_map.mp hwords
  exact hes e (List.mem_reverse.mp he) w hw

theorem spaceless_var (hname : ' ' ∉ name.toList) : (var name []).Spaceless := List.forall_mem_singleton.mpr hname

theorem spaceless_pis (hbinders : ∀ b ∈ binders, b.2.Spaceless) (he : e.Spaceless) : (pis binders e).Spaceless := by
  induction binders with
  | nil => exact he
  | cons b binders ih =>
    rw [List.forall_mem_cons] at hbinders
    exact spaceless_pi.mpr ⟨hbinders.1, ih hbinders.2⟩

theorem spaceless_lams (hbinders : ∀ b ∈ binders, b.2.Spaceless) (he : e.Spaceless) : (lams binders e).Spaceless := by
  induction binders with
  | nil => exact he
  | cons b binders ih =>
    rw [List.forall_mem_cons] at hbinders
    exact spaceless_lam.mpr ⟨hbinders.1, ih hbinders.2⟩

theorem pis_ne_kind (he : e ≠ kind) : pis binders e ≠ kind := by
  cases binders with
  | nil => exact he
  | cons b binders => exact nofun

theorem lams_ne_kind (he : e ≠ kind) : lams binders e ≠ kind := by
  cases binders with
  | nil => exact he
  | cons b binders => exact nofun

end Expr

open Stepwise.Expr

/-- A term and its type have words without spaces, and `kind` is no term. -/
structure Plain (e k : Expr) : Prop where
  term : e.Spaceless
  type : k.Spaceless
  ne_kind : e ≠ .kind

theorem constructed_plain :
    Constructed (fun x => ' ' ∉ x.toList) (fun x => ' ' ∉ x.toList) Plain Expr.Spaceless where
  type := ⟨by decide, by decide, nofun⟩
  domain h _ := h.term
  var hx ha := ⟨spaceless_var hx, ha, nofun⟩
  const hc hspine h _ := ⟨spaceless_const hc fun a ha => (hspine a ha).elim fun _ h => h.term, h.term, nofun⟩
  pis hbinders h _ := ⟨spaceless_pis hbinders h.term, h.type, pis_ne_kind h.ne_kind⟩
  lams hbinders h := ⟨spaceless_lams hbinders h.term, spaceless_pis hbinders h.type, lams_ne_kind h.ne_kind⟩

namespace State

variable {s t : State} {text : String} {tok : Token} {required argument : Value}

theorem Reachable.plain (h : Reachable text s) {v : Value} (hv : .value v ∈ s.stack) : Plain v.term v.type := by
  refine (h.holds constructed_plain fun x hx hspace => ?_).stack v hv
  have hblank := Source.not_blank_of_id_mem hx ' ' hspace
  revert hblank
  decide

/-! ## Capturing an argument -/

/-- The token, executed in this state, captures an argument or fails: it is `grab`, or an arrow or a dot inside a
call. -/
structure Grabs (s : State) (tok : Token) : Prop where
  reading : s.current.readingName = false
  token : tok = .grab ∨ (tok = .arrow ∨ tok = .dot) ∧ ∃ call outer, s.frames = .call call :: outer

/-- The type of a parameter, on top of the stack, and the value offered for it, below the control of the caller. -/
def offer? (s : State) : Option (Value × Value) :=
  match s.frames, s.stack with
  | .call _ :: _, .value required :: .saved _ :: .value argument :: _ =>
    if required.type.isSort then some (required, argument) else none
  | _, _ => none

/-- The token succeeds, and the innermost call has captured `argument`. -/
def Captures (s : State) (tok : Token) (argument : Value) : Prop :=
  ∃ t call outer name, s.effect tok = .ok (.next t) ∧ s.frames = .call call :: outer ∧
    t.frames = .call (call.push ⟨name, argument.term, argument.type, s.current.pc⟩) :: outer

theorem offer?_eq_some_iff : s.offer? = some (required, argument) ↔ ∃ call outer caller rest,
    s.frames = .call call :: outer ∧ s.stack = .value required :: .saved caller :: .value argument :: rest ∧
      required.type.isSort = true := by
  unfold offer?
  constructor
  · intro h
    split at h
    · rename_i call outer required' caller argument' rest hframes hstack
      split at h
      · cases h
        exact ⟨call, outer, caller, rest, hframes, hstack, ‹_›⟩
      · cases h
    · cases h
  · rintro ⟨call, outer, caller, rest, hframes, hstack, hsort⟩
    simp [hframes, hstack, hsort]

theorem Grabs.effect_eq (h : s.Grabs tok) : s.effect tok = (s.grab tok).map .next := by
  obtain ⟨hreading, rfl | ⟨rfl | rfl, call, outer, hframes⟩⟩ := h
  · simp [effect, hreading]
  · simp [effect, hreading, bindTop, hframes]
  · simp [effect, hreading, bindTop, hframes]

/-- What succeeds has captured the value that was offered. -/
theorem Grabs.captures (h : s.Grabs tok) (ht : s.effect tok = .ok (.next t)) :
    ∃ required argument, s.offer? = some (required, argument) ∧ s.Captures tok argument := by
  have hgrab := ht
  rw [h.effect_eq, map_next_eq_ok] at hgrab
  obtain ⟨u, hu, heq⟩ := hgrab
  obtain rfl := Effect.next.inj heq
  obtain ⟨required, caller, argument, rest, call, outer, hstack, hsort, hframes, _, rfl⟩ := grab_eq_ok.mp hu
  exact ⟨required, argument, offer?_eq_some_iff.mpr ⟨call, outer, caller, rest, hframes, hstack, hsort⟩,
    ⟨_, call, outer, _, ht, hframes, rfl⟩⟩

/-- What is offered is captured if its type matches. -/
theorem Grabs.captures_iff (h : s.Grabs tok) (hoffer : s.offer? = some (required, argument)) :
    s.Captures tok argument ↔ argument.type.Matches required.term := by
  obtain ⟨call, outer, caller, rest, hframes, hstack, hsort⟩ := offer?_eq_some_iff.mp hoffer
  constructor
  · rintro ⟨t, _, _, _, ht, _, _⟩
    rw [h.effect_eq, map_next_eq_ok] at ht
    obtain ⟨u, hu, _⟩ := ht
    obtain ⟨_, _, _, _, _, _, hstack', _, _, hmatch, _⟩ := grab_eq_ok.mp hu
    rw [hstack] at hstack'
    cases hstack'
    exact hmatch
  · intro hmatch
    have hgrab : s.grab tok = .ok _ :=
      grab_eq_ok.mpr ⟨required, caller, argument, rest, call, outer, hstack, hsort, hframes, hmatch, rfl⟩
    exact ⟨_, call, outer, _, h.effect_eq.trans (map_next_eq_ok.mpr ⟨_, hgrab, rfl⟩), hframes, rfl⟩

/-- **In every state of a run, an argument is captured exactly when its type and the required one have the same words.**
For types that can be read back these are the types that differ at most in the names of binders and in what is a
constant or a variable; and `kind` matches a head of that name only. -/
theorem grab_accepts_iff (h : Reachable text s) (hgrabs : s.Grabs tok) :
    (∀ t, s.effect tok = .ok (.next t) →
      ∃ required argument, s.offer? = some (required, argument) ∧ s.Captures tok argument) ∧
    ∀ required argument, s.offer? = some (required, argument) →
      (s.Captures tok argument ↔ argument.type.flat = required.term.flat) ∧
      (∀ arity, argument.type.wellApplied arity = true → required.term.wellApplied arity = true →
        (s.Captures tok argument ↔ argument.type.bare = required.term.bare)) ∧
      (argument.type = .kind →
        (s.Captures tok argument ↔ required.term = .const "kind" [] ∨ required.term = .var "kind" [])) := by
  refine ⟨fun t => hgrabs.captures, fun required argument hoffer => ?_⟩
  have hmem : .value required ∈ s.stack ∧ .value argument ∈ s.stack := by
    obtain ⟨_, _, _, _, _, hstack, _⟩ := offer?_eq_some_iff.mp hoffer
    simp [hstack]
  have hrequired := h.plain hmem.1
  have hflat : s.Captures tok argument ↔ argument.type.flat = required.term.flat :=
    (hgrabs.captures_iff hoffer).trans (matches_iff_flat_eq (h.plain hmem.2).type hrequired.term)
  refine ⟨hflat, fun arity hargument hwell => hflat.trans (flat_eq_iff hargument hwell), fun hkind => ?_⟩
  rw [hflat, hkind, eq_comm, flat_eq_kind_iff]
  exact or_iff_right hrequired.ne_kind

/-- A function is captured whose type names its variable `x`, where the required type names it `y`. -/
theorem grab_accepts_renamed_binder :
    ∃ s required argument, Reachable "type : o . ( ( o : y -> o ) -> o ) : h . [ o : x -> x ] h" s ∧ s.Grabs .grab ∧
      s.offer? = some (required, argument) ∧ argument.type ≠ required.term ∧ s.Captures .grab argument := by
  let s := ((ofText "type : o . ( ( o : y -> o ) -> o ) : h . [ o : x -> x ] h").after 45).getD default
  let o : Expr := .const "o" []
  let required : Value := ⟨.pi (some "y") o o, .type, none⟩
  let argument : Value := ⟨.lam (some "x") o (.var "x" []), .pi (some "x") o o, none⟩
  obtain ⟨hreachable, hreading, hoffer, hne⟩ :
      (ofText "type : o . ( ( o : y -> o ) -> o ) : h . [ o : x -> x ] h").after 45 = some s ∧
        s.current.readingName = false ∧ s.offer? = some (required, argument) ∧ argument.type ≠ required.term := by
    decide +kernel
  have hgrabs : s.Grabs .grab := ⟨hreading, .inl rfl⟩
  obtain ⟨_, haccepts⟩ := grab_accepts_iff ⟨45, hreachable⟩ hgrabs
  refine ⟨s, required, argument, ⟨45, hreachable⟩, hgrabs, hoffer, hne, ?_⟩
  exact ((haccepts required argument hoffer).2.1 (fun _ => 0) (by decide) (by decide)).mpr (by decide)

/-! ## Types that flat forms do not tell apart -/

/-- In the run of the program, a call captures an argument of type `got` where the type `expected` is required, and
these are different trees also without the names of binders and the difference between constants and variables. -/
def Confuses (text : String) (expected got : Expr) : Prop :=
  expected.bare ≠ got.bare ∧ ∃ s required argument, Reachable text s ∧ s.fetch = some .grab ∧ s.Grabs .grab ∧
    s.offer? = some (required, argument) ∧ required.term = expected ∧ argument.type = got ∧ s.Captures .grab argument

theorem confuses_of_after {expected got : Expr} (n : Nat) (hne : expected.bare ≠ got.bare)
    (h : ∃ s ∈ (ofText text).after n, s.fetch = some .grab ∧ s.current.readingName = false ∧
      ∃ offer ∈ s.offer?, offer.1.term = expected ∧ offer.2.type = got ∧ got.Matches expected) :
    Confuses text expected got := by
  obtain ⟨s, hs, hfetch, hreading, ⟨required, argument⟩, hoffer, rfl, rfl, hmatch⟩ := h
  have hgrabs : s.Grabs .grab := ⟨hreading, .inl rfl⟩
  exact ⟨hne, s, required, argument, ⟨n, hs⟩, hfetch, hgrabs, hoffer, rfl, rfl,
    (hgrabs.captures_iff hoffer).mpr hmatch⟩

/-- Three ways in which flat forms confuse types: a constant is named `kind`, a function type is an argument, and a
constant is declared again with fewer parameters. -/
theorem grab_accepts_other_types :
    Confuses "type : kind . ( kind -> type ) : f . type f" (.const "kind" []) .kind ∧
    Confuses "type : o . ( type -> type ) : f . ( ( o -> o ) f -> type ) : h . ( o -> o f ) : x -> x h : c ."
      (.const "f" [.pi none (.const "o" []) (.const "o" [])])
      (.pi none (.const "o" []) (.const "f" [.const "o" []])) ∧
    Confuses ("type : o . o : a . o : f . ( o -> o -> type ) : g . a f g : c . ( a f g -> type ) : h . " ++
        "c type : z . ( o -> o ) : f . ( o -> type ) : g . h")
      (.const "g" [.const "f" [.const "a" []]]) (.const "g" [.const "f" [], .const "a" []]) := by
  refine ⟨confuses_of_after 19 (by decide) ?_, confuses_of_after 66 (by decide) ?_,
    confuses_of_after 153 (by decide) ?_⟩
  · decide +kernel
  · decide +kernel
  · decide +kernel

end State

end Stepwise
