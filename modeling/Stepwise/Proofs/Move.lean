import Stepwise.Step

/-!
# Moves

A move is a step that does not fail. Everything that a move can do is said once, here:

* a token read as a name, or executed within the current level of calls (`Rule`, one constructor an instruction), is a
  move `Within`;
* an identifier that refers to a constant enters it (`Enters`), and `ret` leaves it (`Leaves`).

The successor of a state is reached by a move or is the same state with an error (`step_cases`), and every move is a
step (`Move.step_eq`).
-/

namespace Stepwise.State

variable {s t : State}

/-! ## Operations that succeed -/

/-- An operation made of two succeeds with what the second makes of the first. -/
theorem bind_eq_ok {α β : Type} {first : Except Failure α} {second : α → Except Failure β} {b : β} :
    first >>= second = .ok b ↔ ∃ a, first = .ok a ∧ second a = .ok b := by
  cases first with
  | error e => simp [bind, Except.bind]
  | ok a => simp [bind, Except.bind]

theorem advance_eq_ok : s.advance = .ok t ↔ ∃ pc, s.current.pc.next? = some pc ∧ t = { s with current.pc := pc } := by
  unfold advance
  cases s.current.pc.next? with
  | none => simp
  | some pc => simp [eq_comm]

theorem closePi_eq_ok : s.closePi = .ok t ↔ ∃ body rest scope outer, s.stack = .value body :: rest ∧
    body.type.isSort = true ∧ s.frames = .scope scope :: outer ∧ scope.kind = .pi ∧
    t = { s with
      current.name := none
      frames := outer
      stack := .value ⟨.pis scope.telescope body.term, body.type, s.current.name.or body.name⟩ :: rest } := by
  simp only [closePi, bind_eq_ok, Prod.exists, takeType_eq_ok, takeValue_eq_ok, takeScope_eq_ok, takeName, push]
  constructor
  · rintro ⟨body, _, ⟨⟨rest, hstack, rfl⟩, hsort⟩, scope, _, ⟨outer, hframes, hkind, rfl⟩, h⟩
    exact ⟨body, rest, scope, outer, hstack, hsort, hframes, hkind, (Except.ok.inj h).symm⟩
  · rintro ⟨body, rest, scope, outer, hstack, hsort, hframes, hkind, rfl⟩
    exact ⟨body, _, ⟨⟨rest, hstack, rfl⟩, hsort⟩, scope, _, ⟨outer, hframes, hkind, rfl⟩, rfl⟩

theorem closeLam_eq_ok : s.closeLam = .ok t ↔ ∃ body rest scope outer, s.stack = .value body :: rest ∧
    s.frames = .scope scope :: outer ∧ scope.kind = .lam ∧
    t = { s with
      current.name := none
      frames := outer
      stack := .value ⟨.lams scope.telescope body.term, .pis scope.telescope body.type,
        s.current.name.or body.name⟩ :: rest } := by
  simp only [closeLam, bind_eq_ok, Prod.exists, takeValue_eq_ok, takeScope_eq_ok, takeName, push]
  constructor
  · rintro ⟨body, _, ⟨rest, hstack, rfl⟩, scope, _, ⟨outer, hframes, hkind, rfl⟩, h⟩
    exact ⟨body, rest, scope, outer, hstack, hframes, hkind, (Except.ok.inj h).symm⟩
  · rintro ⟨body, rest, scope, outer, hstack, hframes, hkind, rfl⟩
    exact ⟨body, _, ⟨rest, hstack, rfl⟩, scope, _, ⟨outer, hframes, hkind, rfl⟩, rfl⟩

theorem extend_eq_ok {sc : Scope} {outer : List Frame} {during : Token} :
    s.extend sc outer during = .ok t ↔ ∃ v rest, s.stack = .value v :: rest ∧ v.type.isSort = true ∧
      t = { s with
        current.name := none
        frames := .scope (sc.push ⟨s.current.name.or v.name, v.term, s.current.pc⟩) :: outer
        stack := rest } := by
  simp only [extend, bind_eq_ok, Prod.exists, takeType_eq_ok, takeValue_eq_ok, takeName]
  constructor
  · rintro ⟨v, _, ⟨⟨rest, hstack, rfl⟩, hsort⟩, h⟩
    exact ⟨v, rest, hstack, hsort, (Except.ok.inj h).symm⟩
  · rintro ⟨v, rest, hstack, hsort, rfl⟩
    exact ⟨v, _, ⟨⟨rest, hstack, rfl⟩, hsort⟩, rfl⟩

/-- The constant that a dot at `index` declares in the state `s`, of the type `v` under `binders`. -/
def declared (s : State) (index : Nat) (binders : List (Option Name × Expr)) (v : Value) : Constant where
  name := (s.current.name.or v.name).getD anonymous
  type := .pis binders v.term
  program := ⟨s.current.program.first, index⟩
  code := Code.ofDeclaration ((s.source.tokens.take index).drop s.current.program.first)

theorem define_eq_ok {binders : List (Option Name × Expr)} {outer : List Frame} :
    s.define binders outer = .ok t ↔ ∃ index v rest, s.current.pc = .stream index ∧ s.stack = .value v :: rest ∧
      v.type.isSort = true ∧ (s.current.program.first ≤ index ∧ index ≤ s.source.tokens.length) ∧
      t = { s with
        current.name := none
        current.program := ⟨index + 1, index + 1⟩
        frames := outer
        stack := rest
        signature := s.signature ++ [s.declared index binders v] } := by
  unfold define
  constructor
  · intro h
    split at h
    · cases h
    · rename_i index hpc
      simp only [bind_eq_ok, Prod.exists, takeType_eq_ok, takeValue_eq_ok, takeName] at h
      obtain ⟨v, _, ⟨⟨rest, hstack, rfl⟩, hsort⟩, h⟩ := h
      by_cases hspan : s.current.program.first ≤ index ∧ index ≤ s.source.tokens.length
      · exact ⟨index, v, rest, hpc, hstack, hsort, hspan, (Except.ok.inj ((if_pos hspan).symm.trans h)).symm⟩
      · cases (if_neg hspan).symm.trans h
  · rintro ⟨index, v, rest, hpc, hstack, hsort, hspan, rfl⟩
    rw [hpc]
    simp only [bind_eq_ok, Prod.exists, takeType_eq_ok, takeValue_eq_ok, takeName]
    exact ⟨v, _, ⟨⟨rest, hstack, rfl⟩, hsort⟩, if_pos hspan⟩

theorem grab_eq_ok {during : Token} : s.grab during = .ok t ↔ ∃ parameter caller argument rest call outer,
    s.stack = .value parameter :: .saved caller :: .value argument :: rest ∧ parameter.type.isSort = true ∧
      s.frames = .call call :: outer ∧ argument.type.Matches parameter.term ∧
      t = { s with
        current.name := none
        frames := .call (call.push
          ⟨s.current.name.or parameter.name, argument.term, argument.type, s.current.pc⟩) :: outer
        stack := .saved caller :: rest } := by
  unfold grab
  constructor
  · intro h
    split at h
    · cases h
    · cases h
    · rename_i call outer hframes
      simp only [bind_eq_ok, Prod.exists, takeType_eq_ok, takeValue_eq_ok, takeControl_eq_ok, takeName] at h
      obtain ⟨parameter, _, ⟨⟨_, hstack, rfl⟩, hsort⟩, caller, _, ⟨_, rfl, rfl⟩, argument, _, ⟨rest, rfl, rfl⟩, h⟩ := h
      split at h
      · exact ⟨parameter, caller, argument, rest, call, outer, hstack, hsort, hframes, ‹_›, (Except.ok.inj h).symm⟩
      · cases h
  · rintro ⟨parameter, caller, argument, rest, call, outer, hstack, hsort, hframes, hmatch, rfl⟩
    rw [hframes]
    simp only [bind_eq_ok, Prod.exists, takeType_eq_ok, takeValue_eq_ok, takeControl_eq_ok, takeName]
    exact ⟨parameter, _, ⟨⟨_, hstack, rfl⟩, hsort⟩, caller, _, ⟨_, rfl, rfl⟩, argument, _, ⟨rest, rfl, rfl⟩,
      if_pos hmatch⟩

theorem leave_eq_ok : s.leave = .ok t ↔ ∃ result caller rest call outer,
    s.stack = .value result :: .saved caller :: rest ∧ result.type.isSort = true ∧ s.frames = .call call :: outer ∧
      t = { s with
        current := caller
        frames := outer
        stack := .value ⟨.const call.name call.spine, result.term, none⟩ :: rest } := by
  simp only [leave, bind_eq_ok, Prod.exists, takeType_eq_ok, takeValue_eq_ok, takeCall_eq_ok, takeControl_eq_ok, push]
  constructor
  · rintro ⟨result, _, ⟨⟨_, hstack, rfl⟩, hsort⟩, call, _, ⟨outer, hframes, rfl⟩, caller, _, ⟨rest, rfl, rfl⟩, h⟩
    exact ⟨result, caller, rest, call, outer, hstack, hsort, hframes, (Except.ok.inj h).symm⟩
  · rintro ⟨result, caller, rest, call, outer, hstack, hsort, hframes, rfl⟩
    exact ⟨result, _, ⟨⟨_, hstack, rfl⟩, hsort⟩, call, _, ⟨outer, hframes, rfl⟩, caller, _, ⟨rest, rfl, rfl⟩, rfl⟩

/-! ## What a move can do -/

/-- The frames of a declaration that its dot may finish: its binders, and the frames that are left. -/
inductive Declares : List Frame → List (Option Name × Expr) → List Frame → Prop
  | plain : Declares [] [] []
  | scope {sc : Scope} {outer : List Frame} (hkind : sc.kind = .decl) : Declares (.scope sc :: outer) sc.telescope outer

/-- What a token does that is executed, neither entering nor leaving a constant; execution goes on at `pc`. -/
inductive Rule (s : State) (pc : Address) : Token → State → Prop
  | type : Rule s pc .type { s with current.pc := pc, stack := .value ⟨.type, .kind, none⟩ :: s.stack }
  | colon : Rule s pc .colon { s with current.pc := pc, current.readingName := true }
  | openPi : Rule s pc .lparen { s with current.pc := pc, frames := .scope ⟨.pi, s.current.pc, []⟩ :: s.frames }
  | openLam : Rule s pc .lbrack { s with current.pc := pc, frames := .scope ⟨.lam, s.current.pc, []⟩ :: s.frames }
  | closePi {body : Value} {rest : List Slot} {scope : Scope} {outer : List Frame}
      (hstack : s.stack = .value body :: rest) (hsort : body.type.isSort = true)
      (hframes : s.frames = .scope scope :: outer) (hkind : scope.kind = .pi) :
      Rule s pc .rparen { s with
        current.pc := pc
        current.name := none
        frames := outer
        stack := .value ⟨.pis scope.telescope body.term, body.type, s.current.name.or body.name⟩ :: rest }
  | closeLam {body : Value} {rest : List Slot} {scope : Scope} {outer : List Frame}
      (hstack : s.stack = .value body :: rest) (hframes : s.frames = .scope scope :: outer)
      (hkind : scope.kind = .lam) :
      Rule s pc .rbrack { s with
        current.pc := pc
        current.name := none
        frames := outer
        stack := .value ⟨.lams scope.telescope body.term, .pis scope.telescope body.type,
          s.current.name.or body.name⟩ :: rest }
  | extend {t : Token} {v : Value} {rest : List Slot} {scope : Scope} {outer : List Frame}
      (htoken : t = .arrow ∨ t = .dot) (hstack : s.stack = .value v :: rest) (hsort : v.type.isSort = true)
      (hframes : s.frames = .scope scope :: outer) (hdecl : ¬(scope.kind = .decl ∧ t = .dot)) :
      Rule s pc t { s with
        current.pc := pc
        current.name := none
        frames := .scope (scope.push ⟨s.current.name.or v.name, v.term, s.current.pc⟩) :: outer
        stack := rest }
  | declare {v : Value} {rest : List Slot} (hstack : s.stack = .value v :: rest) (hsort : v.type.isSort = true)
      (hframes : s.frames = []) :
      Rule s pc .arrow { s with
        current.pc := pc
        current.name := none
        frames := [.scope ⟨.decl, s.current.pc, [⟨s.current.name.or v.name, v.term, s.current.pc⟩]⟩]
        stack := rest }
  | define {v : Value} {rest : List Slot} {binders : List (Option Name × Expr)} {outer : List Frame} {index : Nat}
      (hpc : s.current.pc = .stream index) (hstack : s.stack = .value v :: rest) (hsort : v.type.isSort = true)
      (hframes : Declares s.frames binders outer)
      (hspan : s.current.program.first ≤ index ∧ index ≤ s.source.tokens.length) :
      Rule s pc .dot { s with
        current := ⟨pc, ⟨index + 1, index + 1⟩, none, s.current.readingName⟩
        frames := outer
        stack := rest
        signature := s.signature ++ [s.declared index binders v] }
  | grab {t : Token} {parameter argument : Value} {caller : Control} {rest : List Slot} {call : Call}
      {outer : List Frame} (htoken : t = .arrow ∨ t = .dot ∨ t = .grab)
      (hstack : s.stack = .value parameter :: .saved caller :: .value argument :: rest)
      (hsort : parameter.type.isSort = true) (hframes : s.frames = .call call :: outer)
      (hmatch : argument.type.Matches parameter.term) :
      Rule s pc t { s with
        current.pc := pc
        current.name := none
        frames := .call (call.push
          ⟨s.current.name.or parameter.name, argument.term, argument.type, s.current.pc⟩) :: outer
        stack := .saved caller :: rest }
  | captured {name : Name} {a : Argument} (hlookup : s.lookup name = some (.argument a)) :
      Rule s pc (.id name) { s with current.pc := pc, stack := .value ⟨a.term, a.type, none⟩ :: s.stack }
  | bound {name : Name} {b : Binder} (hlookup : s.lookup name = some (.variable b)) :
      Rule s pc (.id name) { s with current.pc := pc, stack := .value ⟨.var name [], b.type, none⟩ :: s.stack }

/-- A move that neither enters nor leaves a constant. -/
inductive Within (s : State) : State → Prop
  | name {t : Token} {pc : Address} (herror : s.error = none) (hfetch : s.fetch = some t)
      (hreading : s.current.readingName = true) (hpc : s.current.pc.next? = some pc) (heof : t ≠ .eof) :
      Within s { s with current := ⟨pc, s.current.program, some t.text, false⟩ }
  | rule {t : Token} {pc : Address} {u : State} (herror : s.error = none) (hfetch : s.fetch = some t)
      (hreading : s.current.readingName = false) (hpc : s.current.pc.next? = some pc) (hrule : Rule s pc t u) :
      Within s u

/-- The state is about to call the constant `c` at index `entry`. -/
structure Calls (s : State) (entry : Nat) (c : Constant) : Prop where
  error : s.error = none
  reading : s.current.readingName = false
  names : ∃ name, s.fetch = some (.id name) ∧ s.lookup name = some (.constant entry c)

instance (s : State) (entry : Nat) (c : Constant) : Decidable (s.Calls entry c) :=
  decidable_of_iff (s.error = none ∧ s.current.readingName = false ∧
      ∃ tok ∈ s.fetch, s.lookup tok.text = some (.constant entry c) ∧ tok = .id tok.text) <| by
    constructor
    · rintro ⟨herror, hreading, tok, hfetch, hlookup, htok⟩
      exact ⟨herror, hreading, tok.text, htok ▸ hfetch, hlookup⟩
    · rintro ⟨herror, hreading, name, hfetch, hlookup⟩
      exact ⟨herror, hreading, .id name, hfetch, hlookup, rfl⟩

/-- A move that enters a constant. -/
def Enters (s t : State) : Prop := ∃ entry c, s.Calls entry c ∧ t = s.enter entry c

/-- A move that leaves a constant. -/
inductive Leaves (s : State) : State → Prop
  | intro {result : Value} {caller : Control} {rest : List Slot} {call : Call} {outer : List Frame} {pc : Address}
      (herror : s.error = none) (hfetch : s.fetch = some .ret) (hreading : s.current.readingName = false)
      (hstack : s.stack = .value result :: .saved caller :: rest) (hsort : result.type.isSort = true)
      (hframes : s.frames = .call call :: outer) (hpc : caller.pc.next? = some pc) :
      Leaves s { s with
        current := { caller with pc }
        frames := outer
        stack := .value ⟨.const call.name call.spine, result.term, none⟩ :: rest }

/-- A step that does not fail. -/
inductive Move (s t : State) : Prop
  | within (h : Within s t)
  | enter (h : Enters s t)
  | leave (h : Leaves s t)

/-! ## Moves and steps -/

theorem map_next_eq_ok {x : Except Failure State} {e : Effect} :
    x.map Effect.next = .ok e ↔ ∃ u, x = .ok u ∧ e = .next u := by
  cases x with
  | error e => simp [Except.map]
  | ok u => simp [Except.map, eq_comm]

theorem bindTop_eq_ok {during : Token} : s.bindTop during = .ok t ↔
    (∃ call outer, s.frames = .call call :: outer ∧ s.grab during = .ok t) ∨
    (∃ binders outer, during = .dot ∧ Declares s.frames binders outer ∧ s.define binders outer = .ok t) ∨
    (∃ sc outer, s.frames = .scope sc :: outer ∧ ¬(sc.kind = .decl ∧ during = .dot) ∧
      s.extend sc outer during = .ok t) ∨
    (during ≠ .dot ∧ s.frames = [] ∧ s.extend ⟨.decl, s.current.pc, []⟩ [] during = .ok t) := by
  unfold bindTop
  constructor
  · intro h
    split at h
    · exact .inl ⟨_, _, ‹_›, h⟩
    · rename_i sc outer hframes
      split at h
      · rename_i hdecl
        exact .inr (.inl ⟨_, outer, hdecl.2, hframes ▸ .scope hdecl.1, h⟩)
      · exact .inr (.inr (.inl ⟨sc, outer, hframes, ‹_›, h⟩))
    · rename_i hframes
      split at h
      · exact .inr (.inl ⟨[], [], ‹_›, hframes ▸ .plain, h⟩)
      · exact .inr (.inr (.inr ⟨‹_›, hframes, h⟩))
  · rintro (⟨call, outer, hframes, h⟩ | ⟨binders, outer, rfl, hframes, h⟩ | ⟨sc, outer, hframes, hdecl, h⟩ |
      ⟨hdot, hframes, h⟩)
    · rw [hframes]
      exact h
    · cases hf : s.frames with
      | nil =>
        rw [hf] at hframes
        cases hframes
        exact h
      | cons f fs =>
        rw [hf] at hframes
        cases hframes with
        | scope hkind => simpa [hkind] using h
    · rw [hframes]
      simpa [hdecl] using h
    · rw [hframes]
      simpa [hdot] using h

/-- An arrow or a dot that succeeds follows a rule. -/
theorem rule_of_bindTop {during : Token} {pc : Address} (hduring : during = .arrow ∨ during = .dot)
    (h : s.bindTop during = .ok t) : Rule s pc during { t with current.pc := pc } := by
  rcases bindTop_eq_ok.mp h with ⟨_, _, _, h⟩ | ⟨binders, outer, rfl, hframes, h⟩ | ⟨sc, outer, hframes, hdecl, h⟩ |
    ⟨hdot, hframes, h⟩
  · obtain ⟨parameter, caller, argument, rest, call, outer, hstack, hsort, hframes, hmatch, rfl⟩ := grab_eq_ok.mp h
    exact .grab (hduring.imp_right .inl) hstack hsort hframes hmatch
  · obtain ⟨index, v, rest, hpc, hstack, hsort, hspan, rfl⟩ := define_eq_ok.mp h
    exact .define hpc hstack hsort hframes hspan
  · obtain ⟨v, rest, hstack, hsort, rfl⟩ := extend_eq_ok.mp h
    exact .extend hduring hstack hsort hframes hdecl
  · obtain ⟨v, rest, hstack, hsort, rfl⟩ := extend_eq_ok.mp h
    obtain rfl := hduring.resolve_right hdot
    exact .declare hstack hsort hframes

/-- A token that is executed and moves to the next instruction follows a rule, unless it is `ret`. -/
theorem rule_of_effect {tok : Token} (pc : Address) (hreading : s.current.readingName = false)
    (h : s.effect tok = .ok (.next t)) : Rule s pc tok { t with current.pc := pc } ∨ tok = .ret ∧ s.leave = .ok t := by
  simp only [effect, hreading, Bool.false_eq_true, if_false] at h
  cases tok <;> simp only [map_next_eq_ok, Effect.next.injEq, Except.ok.injEq, exists_eq_right', reduceCtorEq] at h
  case type => subst h; exact .inl .type
  case colon => subst h; exact .inl .colon
  case lparen => subst h; exact .inl .openPi
  case lbrack => subst h; exact .inl .openLam
  case rparen =>
    obtain ⟨body, rest, scope, outer, hstack, hsort, hframes, hkind, rfl⟩ := closePi_eq_ok.mp h
    exact .inl (.closePi hstack hsort hframes hkind)
  case rbrack =>
    obtain ⟨body, rest, scope, outer, hstack, hframes, hkind, rfl⟩ := closeLam_eq_ok.mp h
    exact .inl (.closeLam hstack hframes hkind)
  case arrow => exact .inl (rule_of_bindTop (.inl rfl) h)
  case dot => exact .inl (rule_of_bindTop (.inr rfl) h)
  case grab =>
    obtain ⟨parameter, caller, argument, rest, call, outer, hstack, hsort, hframes, hmatch, rfl⟩ := grab_eq_ok.mp h
    exact .inl (.grab (.inr (.inr rfl)) hstack hsort hframes hmatch)
  case ret => exact .inr ⟨rfl, h⟩
  case id name =>
    unfold mention at h
    split at h <;> cases h
    · exact .inl (.captured ‹_›)
    · exact .inl (.bound ‹_›)

/-- A token that follows a rule succeeds, and its effect does not depend on where execution goes on. -/
theorem effect_of_rule {tok : Token} {pc : Address} (hreading : s.current.readingName = false)
    (h : Rule s pc tok t) :
    ∃ u, s.effect tok = .ok (.next u) ∧ u.current.pc = s.current.pc ∧ t = { u with current.pc := pc } := by
  simp only [effect, hreading, Bool.false_eq_true, if_false]
  cases h with
  | type => exact ⟨_, rfl, rfl, rfl⟩
  | colon => exact ⟨_, rfl, rfl, rfl⟩
  | openPi => exact ⟨_, rfl, rfl, rfl⟩
  | openLam => exact ⟨_, rfl, rfl, rfl⟩
  | closePi hstack hsort hframes hkind =>
    have h := closePi_eq_ok.mpr ⟨_, _, _, _, hstack, hsort, hframes, hkind, rfl⟩
    exact ⟨_, map_next_eq_ok.mpr ⟨_, h, rfl⟩, rfl, rfl⟩
  | closeLam hstack hframes hkind =>
    have h := closeLam_eq_ok.mpr ⟨_, _, _, _, hstack, hframes, hkind, rfl⟩
    exact ⟨_, map_next_eq_ok.mpr ⟨_, h, rfl⟩, rfl, rfl⟩
  | extend htoken hstack hsort hframes hdecl =>
    have h := bindTop_eq_ok.mpr (.inr (.inr (.inl ⟨_, _, hframes, hdecl,
      extend_eq_ok.mpr ⟨_, _, hstack, hsort, rfl⟩⟩)))
    rcases htoken with rfl | rfl <;> exact ⟨_, map_next_eq_ok.mpr ⟨_, h, rfl⟩, rfl, rfl⟩
  | declare hstack hsort hframes =>
    have h := bindTop_eq_ok.mpr (.inr (.inr (.inr ⟨(by simp : Token.arrow ≠ .dot), hframes,
      extend_eq_ok.mpr ⟨_, _, hstack, hsort, rfl⟩⟩)))
    exact ⟨_, map_next_eq_ok.mpr ⟨_, h, rfl⟩, rfl, rfl⟩
  | define hpc hstack hsort hframes hspan =>
    have h := bindTop_eq_ok.mpr (.inr (.inl ⟨_, _, rfl, hframes,
      define_eq_ok.mpr ⟨_, _, _, hpc, hstack, hsort, hspan, rfl⟩⟩))
    exact ⟨_, map_next_eq_ok.mpr ⟨_, h, rfl⟩, rfl, rfl⟩
  | grab htoken hstack hsort hframes hmatch =>
    have h (during : Token) : s.grab during = .ok _ :=
      grab_eq_ok.mpr ⟨_, _, _, _, _, _, hstack, hsort, hframes, hmatch, rfl⟩
    have hbind (during : Token) := bindTop_eq_ok.mpr (.inl ⟨_, _, hframes, h during⟩)
    rcases htoken with rfl | rfl | rfl
    · exact ⟨_, map_next_eq_ok.mpr ⟨_, hbind _, rfl⟩, rfl, rfl⟩
    · exact ⟨_, map_next_eq_ok.mpr ⟨_, hbind _, rfl⟩, rfl, rfl⟩
    · exact ⟨_, map_next_eq_ok.mpr ⟨_, h _, rfl⟩, rfl, rfl⟩
  | @captured name a hlookup =>
    have h : s.mention name = .ok (.next (s.push ⟨a.term, a.type, none⟩)) := by simp [mention, hlookup]
    exact ⟨_, h, rfl, rfl⟩
  | @bound name b hlookup =>
    have h : s.mention name = .ok (.next (s.push ⟨.var name [], b.type, none⟩)) := by simp [mention, hlookup]
    exact ⟨_, h, rfl, rfl⟩

theorem exec_eq_some {tok : Token} : s.exec tok = .ok (some t) ↔
    (∃ u, s.effect tok = .ok (.next u) ∧ u.advance = .ok t) ∨ s.effect tok = .ok (.jump t) := by
  unfold exec
  cases s.effect tok with
  | error f => simp [bind, Except.bind]
  | ok e =>
    cases e with
    | next u =>
      simp only [bind, Except.bind, Except.ok.injEq, Effect.next.injEq, exists_eq_left', reduceCtorEq, or_false]
      cases u.advance <;> simp [Functor.map, Except.map]
    | jump u => simp [bind, Except.bind]
    | halt => simp [bind, Except.bind]

/-- A token that is executed moves. -/
theorem move_of_exec {tok : Token} (herror : s.error = none) (hfetch : s.fetch = some tok)
    (h : s.exec tok = .ok (some t)) : Move s t := by
  rcases exec_eq_some.mp h with ⟨u, hu, ht⟩ | hjump
  · obtain ⟨pc, hpc, rfl⟩ := advance_eq_ok.mp ht
    cases hreading : s.current.readingName with
    | true =>
      simp only [effect, hreading, if_true, map_next_eq_ok, acceptName, Effect.next.injEq, exists_eq_right'] at hu
      split at hu
      · cases hu
      · cases hu
        exact .within (.name herror hfetch hreading hpc ‹_›)
    | false =>
      rcases rule_of_effect pc hreading hu with hrule | ⟨rfl, hleave⟩
      · obtain ⟨v, hv, hvpc, -⟩ := effect_of_rule hreading hrule
        obtain rfl := Effect.next.inj (Except.ok.inj (hu.symm.trans hv))
        exact .within (.rule herror hfetch hreading (hvpc ▸ hpc) hrule)
      · obtain ⟨result, caller, rest, call, outer, hstack, hsort, hframes, rfl⟩ := leave_eq_ok.mp hleave
        exact .leave (.intro herror hfetch hreading hstack hsort hframes hpc)
  · cases hreading : s.current.readingName with
    | true => simp [effect, hreading, map_next_eq_ok] at hjump
    | false =>
      simp only [effect, hreading, Bool.false_eq_true, if_false] at hjump
      cases tok <;> simp only [map_next_eq_ok, Except.ok.injEq, reduceCtorEq, and_false, exists_false] at hjump
      case id name =>
        unfold mention at hjump
        split at hjump <;> cases hjump
        exact .enter ⟨_, _, ⟨herror, hreading, name, hfetch, ‹_›⟩, rfl⟩

/-- The successor of a state is reached by a move, or it is the same state with an error. -/
theorem step_cases (h : s.step = .ok (some t)) : Move s t ∨ s.error = none ∧ ∃ e, t = s.fail e := by
  unfold step at h
  cases herror : s.error with
  | some e => simp [herror] at h
  | none =>
    simp only [herror, Option.isSome_none, Bool.false_eq_true, if_false] at h
    split at h
    · cases h
      exact .inr ⟨rfl, _, rfl⟩
    · split at h
      · cases h
        exact .inl (move_of_exec herror ‹_› ‹_›)
      · cases h
        exact .inr ⟨rfl, _, rfl⟩
      · cases h

theorem Within.step_eq (h : Within s t) : s.step = .ok (some t) := by
  cases h with
  | @name tok pc herror hfetch hreading hpc heof =>
    have heffect : s.effect tok =
        .ok (.next { s with current.name := some tok.text, current.readingName := false }) := by
      simp [effect, hreading, acceptName, heof, Except.map]
    have hexec := exec_eq_some.mpr (.inl ⟨_, heffect, advance_eq_ok.mpr ⟨pc, hpc, rfl⟩⟩)
    simp [step, herror, hfetch, hexec]
  | @rule tok pc _ herror hfetch hreading hpc hrule =>
    obtain ⟨u, hu, hupc, rfl⟩ := effect_of_rule hreading hrule
    have hexec := exec_eq_some.mpr (.inl ⟨u, hu, advance_eq_ok.mpr ⟨pc, hupc ▸ hpc, rfl⟩⟩)
    simp [step, herror, hfetch, hexec]

theorem Calls.step_eq {entry : Nat} {c : Constant} (h : s.Calls entry c) : s.step = .ok (some (s.enter entry c)) := by
  obtain ⟨herror, hreading, name, hfetch, hlookup⟩ := h
  have hexec : s.exec (.id name) = .ok (some (s.enter entry c)) :=
    exec_eq_some.mpr (.inr (by simp [effect, hreading, mention, hlookup]))
  simp [step, herror, hfetch, hexec]

theorem Leaves.step_eq (h : Leaves s t) : s.step = .ok (some t) := by
  cases h with
  | intro herror hfetch hreading hstack hsort hframes hpc =>
    have hleave := leave_eq_ok.mpr ⟨_, _, _, _, _, hstack, hsort, hframes, rfl⟩
    have heffect : s.effect .ret = s.leave.map .next := by simp [effect, hreading]
    have hexec := exec_eq_some.mpr (.inl ⟨_, heffect.trans (map_next_eq_ok.mpr ⟨_, hleave, rfl⟩),
      advance_eq_ok.mpr ⟨_, hpc, rfl⟩⟩)
    simp [step, herror, hfetch, hexec]

/-- Every move is a step. -/
theorem Move.step_eq (h : Move s t) : s.step = .ok (some t) := by
  cases h with
  | within h => exact h.step_eq
  | enter h =>
    obtain ⟨entry, c, hcalls, rfl⟩ := h
    exact hcalls.step_eq
  | leave h => exact h.step_eq

/-! ## What all moves share -/

theorem Within.error_eq (h : Within s t) : s.error = none ∧ t.error = none := by
  cases h with
  | name herror => exact ⟨herror, herror⟩
  | rule herror _ _ _ hrule => cases hrule <;> exact ⟨herror, herror⟩

theorem Move.error_eq (h : Move s t) : s.error = none ∧ t.error = none := by
  cases h with
  | within h => exact h.error_eq
  | enter h =>
    obtain ⟨entry, c, hcalls, rfl⟩ := h
    exact ⟨hcalls.error, hcalls.error⟩
  | leave h =>
    cases h with
    | intro herror => exact ⟨herror, herror⟩

/-- A step to a state without error is a move. -/
theorem move_of_step (h : s.step = .ok (some t)) (herror : t.error = none) : Move s t := by
  rcases step_cases h with h | ⟨_, e, rfl⟩
  · exact h
  · cases herror

end Stepwise.State
