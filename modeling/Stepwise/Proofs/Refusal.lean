import Stepwise.Proofs.Move

/-!
# How an instruction fails

`Refuses t e` lists the errors that executing the token `t` can give. Each of them names that token (`exec_refuses`),
and the text of none of them is the text that is given for a missing instruction (`Refuses.message_ne`), so that text
tells that there was no instruction (`step_eq_noInstruction_iff`).

`State.Faults` lists the faults that a step can give: the span of a declaration is out of range, or a control has no
next address. There are no others (`faults_of_step`).
-/

namespace Stepwise

inductive Refuses : Token → StepError → Prop
  | stackUnderflow (t : Token) : Refuses t (.stackUnderflow t)
  | frameUnderflow (t : Token) : Refuses t (.frameUnderflow t)
  | expectedValue (t : Token) : Refuses t (.expectedValue t)
  | expectedControl (t : Token) : Refuses t (.expectedControl t)
  | frameMismatch (expected found : FrameShape) (t : Token) : Refuses t (.frameMismatch expected found t)
  | expectedClassifier (found : Expr) (t : Token) : Refuses t (.expectedClassifier found t)
  | typeMismatch (expected got : Expr) (t : Token) : Refuses t (.typeMismatch expected got t)
  | notFound (name : Name) : Refuses (.id name) (.notFound name)
  | missingName : Refuses .eof .missingName
  | outsideStream : Refuses .dot (.outsideStream .dot)

theorem head?_toList_append {a b : String} {c : Char} (h : a.toList.head? = some c) :
    (a ++ b).toList.head? = some c := by
  rw [String.toList_append, List.head?_append, h, Option.some_or]

theorem getLast?_toList_append {a b : String} {c : Char} (h : b.toList.getLast? = some c) :
    (a ++ b).toList.getLast? = some c := by
  rw [String.toList_append, List.getLast?_append, h, Option.some_or]

/-- The text for a missing instruction begins with a letter of its own. Only the text for a name that is not found can
begin with that letter, and it ends in another one. -/
theorem Refuses.message_ne {t : Token} {e : StepError} (h : Refuses t e) (pc : Address) :
    e.message ≠ (StepError.noInstruction pc).message := by
  have hhead : (StepError.noInstruction pc).message.toList.head? = some 'p' :=
    head?_toList_append (head?_toList_append (by decide +kernel))
  have hlast : (StepError.noInstruction pc).message.toList.getLast? = some 'n' :=
    getLast?_toList_append (by decide +kernel)
  have hne : ∀ c ≠ 'p', e.message.toList.head? = some c → e.message ≠ (StepError.noInstruction pc).message := by
    intro c hc he hmessage
    rw [hmessage, hhead] at he
    exact hc (Option.some.inj he).symm
  cases h with
  | stackUnderflow => exact hne 's' (by decide) (head?_toList_append (by decide +kernel))
  | frameUnderflow => exact hne 'm' (by decide) (head?_toList_append (by decide +kernel))
  | expectedValue => exact hne 'e' (by decide) (head?_toList_append (head?_toList_append (by decide +kernel)))
  | expectedControl => exact hne 'e' (by decide) (head?_toList_append (head?_toList_append (by decide +kernel)))
  | frameMismatch =>
    refine hne 'e' (by decide) ?_
    iterate 5 refine head?_toList_append ?_
    decide +kernel
  | expectedClassifier =>
    refine hne 'e' (by decide) ?_
    iterate 3 refine head?_toList_append ?_
    decide +kernel
  | typeMismatch =>
    refine hne 't' (by decide) ?_
    iterate 5 refine head?_toList_append ?_
    decide +kernel
  | missingName => exact hne 'm' (by decide) (by decide +kernel)
  | outsideStream => exact hne '.' (by decide) (head?_toList_append (by decide +kernel))
  | notFound name =>
    intro hmessage
    have hfound : (StepError.notFound name).message.toList.getLast? = some 'd' :=
      getLast?_toList_append (by decide +kernel)
    rw [hmessage, hlast] at hfound
    cases hfound

/-- Every error of the operation is one that executing `t` can give, and every fault satisfies `P`. -/
structure FailsAs {α : Type} (t : Token) (P : Fault → Prop) (x : Except Failure α) : Prop where
  error : ∀ e, x = .error (.error e) → Refuses t e
  fault : ∀ f, x = .error (.fault f) → P f

section Operations

variable {α β : Type} {t : Token} {P : Fault → Prop}

theorem failsAs_ok (a : α) : FailsAs t P (.ok a) where
  error _ h := by cases h
  fault _ h := by cases h

theorem failsAs_fault {f : Fault} (h : P f) : FailsAs t P (.error (.fault f) : Except Failure α) where
  error _ h := by cases h
  fault _ hf := by
    cases hf
    exact h

theorem failsAs_stuck {e : StepError} (h : Refuses t e) : FailsAs t P (State.stuck e : Except Failure α) where
  error _ he := by
    cases he
    exact h
  fault _ h := by cases h

theorem FailsAs.bind {x : Except Failure α} {f : α → Except Failure β} (hx : FailsAs t P x)
    (hf : ∀ a, x = .ok a → FailsAs t P (f a)) : FailsAs t P (x >>= f) := by
  cases x with
  | error failure =>
    refine ⟨fun e he => ?_, fun g hg => ?_⟩
    · cases he
      exact hx.error e rfl
    · cases hg
      exact hx.fault g rfl
  | ok a => exact hf a rfl

theorem FailsAs.map {x : Except Failure α} (hx : FailsAs t P x) (f : α → β) : FailsAs t P (x.map f) := by
  cases x with
  | error failure =>
    refine ⟨fun e he => ?_, fun g hg => ?_⟩
    · cases he
      exact hx.error e rfl
    · cases hg
      exact hx.fault g rfl
  | ok a => exact failsAs_ok _

end Operations

namespace State

/-- The faults that a step can give. The control without a next address is the current one, or the one that `ret`
restores. -/
inductive Faults (s : State) : Fault → Prop
  | span {index : Nat} (hpc : s.current.pc = .stream index)
      (hspan : ¬(s.current.program.first ≤ index ∧ index ≤ s.source.tokens.length)) :
      Faults s (.spanOutOfRange ⟨s.current.program.first, index⟩)
  | overflow {k : Control} (hcontrol : k = s.current ∨ .saved k ∈ s.stack) (hpc : k.pc.next? = none) :
      Faults s (.addressOverflow k.pc)

variable (s : State) (t : Token) {P : Fault → Prop}

theorem takeValue_failsAs : FailsAs t P (s.takeValue t) := by
  unfold takeValue
  split
  · exact failsAs_stuck (.stackUnderflow t)
  · exact failsAs_ok _
  · exact failsAs_stuck (.expectedValue t)

theorem takeType_failsAs : FailsAs t P (s.takeType t) := by
  unfold takeType
  refine (takeValue_failsAs s t).bind fun p _ => ?_
  dsimp only
  split
  · exact failsAs_ok _
  · exact failsAs_stuck (.expectedClassifier _ t)

theorem takeControl_failsAs : FailsAs t P (s.takeControl t) := by
  unfold takeControl
  split
  · exact failsAs_stuck (.stackUnderflow t)
  · exact failsAs_ok _
  · exact failsAs_stuck (.expectedControl t)

theorem takeScope_failsAs (kind : ScopeKind) : FailsAs t P (s.takeScope kind t) := by
  unfold takeScope
  split
  · exact failsAs_stuck (.frameUnderflow t)
  · split
    · exact failsAs_ok _
    · exact failsAs_stuck (.frameMismatch _ _ t)
  · exact failsAs_stuck (.frameMismatch _ _ t)

theorem takeCall_failsAs : FailsAs t P (s.takeCall t) := by
  unfold takeCall
  split
  · exact failsAs_stuck (.frameUnderflow t)
  · exact failsAs_ok _
  · exact failsAs_stuck (.frameMismatch _ _ t)

theorem closePi_failsAs : FailsAs .rparen P s.closePi :=
  (takeType_failsAs s _).bind fun p _ => (takeScope_failsAs p.2 _ _).bind fun _ _ => failsAs_ok _

theorem closeLam_failsAs : FailsAs .rbrack P s.closeLam :=
  (takeValue_failsAs s _).bind fun p _ => (takeScope_failsAs p.2 _ _).bind fun _ _ => failsAs_ok _

theorem extend_failsAs (sc : Scope) (outer : List Frame) : FailsAs t P (s.extend sc outer t) :=
  (takeType_failsAs s t).bind fun _ _ => failsAs_ok _

theorem define_failsAs (binders : List (Option Name × Expr)) (outer : List Frame) :
    FailsAs .dot s.Faults (s.define binders outer) := by
  unfold define
  split
  · exact failsAs_stuck .outsideStream
  · rename_i index hpc
    refine (takeType_failsAs s _).bind fun p hp => ?_
    obtain ⟨rest, -, hu⟩ := takeValue_eq_ok.mp (takeType_eq_ok.mp hp).1
    dsimp only [takeName]
    rw [hu]
    split
    · exact failsAs_ok _
    · exact failsAs_fault (.span hpc ‹_›)

theorem grab_failsAs : FailsAs t P (s.grab t) := by
  unfold grab
  split
  · exact failsAs_stuck (.frameUnderflow t)
  · exact failsAs_stuck (.frameMismatch _ _ t)
  · refine (takeType_failsAs s t).bind fun p _ => (takeControl_failsAs p.2 t).bind fun q _ =>
      (takeValue_failsAs q.2 t).bind fun r _ => ?_
    dsimp only
    split
    · exact failsAs_ok _
    · exact failsAs_stuck (.typeMismatch _ _ t)

theorem bindTop_failsAs : FailsAs t s.Faults (s.bindTop t) := by
  unfold bindTop
  split
  · exact grab_failsAs s t
  · split
    · rename_i h
      exact h.2 ▸ define_failsAs s _ _
    · exact extend_failsAs s t _ _
  · split
    · rename_i h
      exact h ▸ define_failsAs s _ _
    · exact extend_failsAs s t _ _

theorem leave_failsAs : FailsAs .ret P s.leave :=
  (takeType_failsAs s _).bind fun p _ => (takeCall_failsAs p.2 _).bind fun q _ =>
    (takeControl_failsAs q.2 _).bind fun _ _ => failsAs_ok _

theorem effect_failsAs : FailsAs t s.Faults (s.effect t) := by
  unfold effect
  split
  · refine FailsAs.map ?_ _
    unfold acceptName
    split
    · rename_i h
      exact h ▸ failsAs_stuck .missingName
    · exact failsAs_ok _
  · cases t with
    | rparen => exact (closePi_failsAs s).map _
    | rbrack => exact (closeLam_failsAs s).map _
    | arrow => exact (bindTop_failsAs s _).map _
    | dot => exact (bindTop_failsAs s _).map _
    | grab => exact (grab_failsAs s _).map _
    | ret => exact (leave_failsAs s).map _
    | id name =>
      simp only [mention]
      split
      · exact failsAs_ok _
      · exact failsAs_ok _
      · exact failsAs_ok _
      · exact failsAs_stuck (.notFound name)
    | _ => exact failsAs_ok _

variable {s t}

/-- Execution goes on behind the current instruction, or behind the one at which a control was saved. -/
theorem control_of_effect {u : State} (h : s.effect t = .ok (.next u)) :
    ∃ k, (k = s.current ∨ .saved k ∈ s.stack) ∧ u.current.pc = k.pc := by
  cases hreading : s.current.readingName with
  | true =>
    simp only [effect, hreading, if_true, map_next_eq_ok, acceptName, Effect.next.injEq, exists_eq_right'] at h
    split at h
    · cases h
    · cases h
      exact ⟨s.current, .inl rfl, rfl⟩
  | false =>
    rcases rule_of_effect s.current.pc hreading h with hrule | ⟨rfl, hleave⟩
    · obtain ⟨v, hv, hpc, -⟩ := effect_of_rule hreading hrule
      obtain rfl := Effect.next.inj (Except.ok.inj (h.symm.trans hv))
      exact ⟨s.current, .inl rfl, hpc⟩
    · obtain ⟨result, caller, rest, call, outer, hstack, _, _, rfl⟩ := leave_eq_ok.mp hleave
      exact ⟨caller, .inr (by simp [hstack]), rfl⟩

theorem exec_failsAs (s : State) (t : Token) : FailsAs t s.Faults (s.exec t) := by
  refine (effect_failsAs s t).bind fun effect heffect => ?_
  cases effect with
  | next u =>
    obtain ⟨k, hk, hpc⟩ := control_of_effect heffect
    refine FailsAs.map ?_ some
    unfold advance
    split
    · exact failsAs_ok _
    · rename_i hnone
      rw [hpc] at hnone ⊢
      exact failsAs_fault (.overflow hk hnone)
  | jump u => exact failsAs_ok _
  | halt => exact failsAs_ok _

/-- **Every error that a token gives names that token.** -/
theorem exec_refuses (s : State) (t : Token) {e : StepError} (h : s.exec t = .error (.error e)) : Refuses t e :=
  (exec_failsAs s t).error e h

/-- **Every fault of a step is one of those listed.** -/
theorem faults_of_step {f : Fault} (h : s.step = .error f) : s.Faults f := by
  unfold step at h
  split at h
  · cases h
  · split at h
    · cases h
    · rename_i tok _
      split at h
      · cases h
      · cases h
      · cases h
        exact (exec_failsAs s tok).fault f ‹_›

/-- The successor carries the text for a missing instruction exactly when there is none. -/
theorem step_eq_noInstruction_iff (s : State) (herror : s.error = none) :
    (∃ pc, s.step = .ok (some (s.fail (.noInstruction pc)))) ↔ s.fetch = none := by
  constructor
  · rintro ⟨pc, h⟩
    cases hfetch : s.fetch with
    | none => rfl
    | some tok =>
      simp only [step, herror, Option.isSome_none, Bool.false_eq_true, if_false, hfetch] at h
      split at h
      · rename_i next hexec
        rw [Except.ok.inj h] at hexec
        cases (move_of_exec herror hfetch hexec).error_eq.2
      · rename_i e hexec
        have hmessage : e.message = (StepError.noInstruction pc).message := by simpa [fail] using h
        exact absurd hmessage ((exec_refuses s tok hexec).message_ne pc)
      · cases h
  · intro hfetch
    exact ⟨s.current.pc, by simp [step, herror, hfetch]⟩

end State

end Stepwise
