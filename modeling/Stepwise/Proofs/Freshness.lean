import Stepwise.Proofs.Execution

/-!
# Names that are used once

The names that a state holds (`State.liveNames`) are those of its variables and of its values, and the one that is
pending. Executing a token gives no name to two of them, and only reading a name adds one. So if a declaration reads no
name twice, then no name is held twice while the declaration is executed (`Fresh`).
-/

namespace Stepwise

/-- The names that a frame holds: those of the variables of a scope. -/
def Frame.names : Frame → List (Option Name)
  | scope sc => sc.telescope.map (·.1)
  | call _ => []

/-- The name that a value carries. -/
def Slot.name : Slot → Option Name
  | value v => v.name
  | saved _ => none

namespace State

open Code

variable {s t : State} {tok : Token} {ts : List Token}

/-- The pending name, the names of the values and the names of the variables. -/
def liveNames (s : State) : List (Option Name) :=
  s.current.name :: (s.stack.map Slot.name ++ s.frames.flatMap Frame.names)

theorem count_liveNames (s : State) (x : Name) : s.liveNames.count (some x) =
    [s.current.name].count (some x) + (s.stack.map Slot.name).count (some x) +
      (s.frames.flatMap Frame.names).count (some x) := by
  rw [liveNames, ← List.singleton_append, List.count_append, List.count_append, Nat.add_assoc]

theorem count_none (x : Name) : [(none : Option Name)].count (some x) = 0 := by simp

theorem count_value (v : Value) (rest : List Slot) (x : Name) : ((.value v :: rest).map Slot.name).count (some x) =
    [v.name].count (some x) + (rest.map Slot.name).count (some x) := by
  rw [List.map_cons, ← List.singleton_append, List.count_append, Slot.name]

theorem count_scope (sc : Scope) (outer : List Frame) (x : Name) :
    ((.scope sc :: outer).flatMap Frame.names).count (some x) =
      (sc.telescope.map (·.1)).count (some x) + (outer.flatMap Frame.names).count (some x) := by
  rw [List.flatMap_cons, List.count_append, Frame.names]

/-- What takes the pending name, or else the name that a value carries, takes one of the two. -/
theorem count_or_le (pending carried : Option Name) (x : Name) :
    [pending.or carried].count (some x) ≤ [pending].count (some x) + [carried].count (some x) := by
  cases pending with
  | none => simp
  | some y => simp

/-- A rule adds no name. -/
theorem Rule.count_liveNames_le {pc : Address} (h : Rule s pc tok t) (x : Name) :
    t.liveNames.count (some x) ≤ s.liveNames.count (some x) := by
  simp only [count_liveNames]
  cases h with
  | type => simp [Slot.name]
  | colon => simp
  | openPi => simp [Frame.names, Scope.telescope]
  | openLam => simp [Frame.names, Scope.telescope]
  | @closePi body _ _ _ hstack _ hframes =>
    have := count_or_le s.current.name body.name x
    simp only [hstack, hframes, count_value, count_scope, count_none]
    omega
  | @closeLam body _ _ _ hstack hframes =>
    have := count_or_le s.current.name body.name x
    simp only [hstack, hframes, count_value, count_scope, count_none]
    omega
  | @extend _ v _ _ _ _ hstack _ hframes =>
    have := count_or_le s.current.name v.name x
    have htelescope (sc : Scope) (name : Option Name) (domain : Expr) (pc : Address) :
        ((sc.push ⟨name, domain, pc⟩).telescope.map (·.1)).count (some x) =
          (sc.telescope.map (·.1)).count (some x) + [name].count (some x) := by simp
    simp only [hstack, hframes, count_value, count_scope, count_none, htelescope]
    omega
  | @declare v _ hstack _ hframes =>
    have := count_or_le s.current.name v.name x
    have htelescope (kind : ScopeKind) (name : Option Name) (domain : Expr) (pc : Address) :
        ((Scope.mk kind pc [⟨name, domain, pc⟩]).telescope.map (·.1)).count (some x) = [name].count (some x) := rfl
    simp only [hstack, hframes, count_value, count_scope, count_none, htelescope]
    omega
  | @define v _ _ outer _ _ hstack _ hframes =>
    have houter : (outer.flatMap Frame.names).count (some x) ≤ (s.frames.flatMap Frame.names).count (some x) := by
      generalize s.frames = frames at hframes
      cases hframes with
      | plain => exact Nat.le_refl _
      | scope => rw [count_scope]; omega
    simp only [hstack, count_value, count_none]
    omega
  | @grab _ parameter argument caller rest call outer _ hstack _ hframes =>
    have hsaved : ((.saved caller :: rest).map Slot.name).count (some x) = (rest.map Slot.name).count (some x) := by
      simp [Slot.name]
    have hrest : ((.saved caller :: .value argument :: rest).map Slot.name).count (some x) =
        ((.value argument :: rest).map Slot.name).count (some x) := by simp [Slot.name]
    simp only [hstack, hframes, count_value, count_none, hsaved, hrest, List.flatMap_cons, Frame.names]
    omega
  | captured => simp [Slot.name]
  | bound => simp [Slot.name]

/-- The tokens `ts`, executed from `s`, read only identifiers as names, and none that is read twice or that `s` holds;
and `s` holds no name twice. -/
structure Fresh (s : State) (ts : List Token) : Prop where
  ids : ∀ tok ∈ namesRead s.current.readingName ts, ∃ x, tok = .id x
  once : ∀ x, s.liveNames.count (some x) + (namesRead s.current.readingName ts).count (.id x) ≤ 1

/-! ## Along a run -/

theorem Fresh.of_within (hs : s.Fresh (tok :: ts)) (hfetch : s.fetch = some tok) (h : Within s t) : t.Fresh ts := by
  have hids := hs.ids
  have honce := hs.once
  cases h with
  | @name tok' pc _ hfetch' hreading =>
    obtain rfl := Option.some.inj (hfetch.symm.trans hfetch')
    simp only [hreading, namesRead, if_true, Bool.not_true, Bool.false_and] at hids honce
    obtain ⟨y, rfl⟩ := hids tok (by simp)
    refine ⟨fun tok htok => hids tok (by simp [htok]), fun x => ?_⟩
    have hx := honce x
    simp only [count_liveNames, List.count_append] at hx ⊢
    have hname : [some y].count (some x) = [Token.id y].count (.id x) := by
      by_cases hyx : y = x <;> simp [hyx]
    simp only [Token.text, hname]
    omega
  | @rule tok' pc _ _ hfetch' hreading _ hrule =>
    obtain rfl := Option.some.inj (hfetch.symm.trans hfetch')
    have hreading' : t.current.readingName = decide (tok = .colon) := by
      rcases hrule.current_cases hreading with ⟨_, _, _, h⟩ | ⟨_, _, _, rfl, _, _, h⟩
      · exact h
      · rw [h]; rfl
    simp only [hreading, namesRead, Bool.false_eq_true, if_false, List.nil_append, Bool.not_false, Bool.true_and,
      ← hreading'] at hids honce
    refine ⟨hids, fun x => ?_⟩
    have := hrule.count_liveNames_le x
    have := honce x
    omega

theorem Fresh.of_returns {name : Name} {entry n : Nat} {c : Constant} (hs : s.Fresh (.id name :: ts))
    (hcalls : s.Calls entry c) (h : s.Returns n t) : t.Fresh ts := by
  obtain ⟨_, vs, rest, _, v, _, _, _, _, hstack, _, ht⟩ := hcalls.returns_iff_eval.mp h
  have hreading : t.current.readingName = false := by rw [ht]; exact hcalls.reading
  have hids := hs.ids
  have honce := hs.once
  simp only [hcalls.reading, namesRead, Bool.false_eq_true, if_false, List.nil_append, reduceCtorEq, decide_false,
    Bool.and_false] at hids honce
  rw [← hreading] at hids honce
  refine ⟨hids, fun x => ?_⟩
  have hx := honce x
  have hfewer : t.liveNames.count (some x) ≤ s.liveNames.count (some x) := by
    simp only [ht, count_liveNames, hstack, List.map_append, List.count_append, count_value, Activation.result,
      count_none]
    omega
  omega

/-- A name of a variable is not the name of a variable of another scope. -/
theorem Fresh.not_mem (hs : s.Fresh ts) {inner outer : List Frame} (hframes : s.frames = inner ++ outer) {x : Name}
    (hx : some x ∈ inner.flatMap Frame.names) : some x ∉ outer.flatMap Frame.names := by
  intro houter
  have honce := hs.once x
  have hinner := List.count_pos_iff.mpr hx
  have houter := List.count_pos_iff.mpr houter
  simp only [count_liveNames, hframes, List.flatMap_append, List.count_append] at honce
  omega

end State

end Stepwise
