import Stepwise.Proofs.Arity
import Stepwise.Proofs.Execution

/-!
# Which scopes are open

Whether a token is read as a name, and which scopes are open when it is executed, is a matter of the tokens before it:
`Code.openAfter` computes the open scopes, each as its kind and the number of its variables (`Scope.tally`). What the
constants are that identifiers call, and what they capture, makes no difference. So two executions of the same tokens
have the same scopes open:

* the run of a declaration (`State.Executes.tallied`);
* the run of its code in a call (`Activation.Eval.openAfter_eq`), which has captured an argument for each variable that
  the declaration has in the scope of its parameters (`Code.parameterScope`).
-/

namespace Stepwise

/-- The kind of a scope and the number of its variables. -/
def Scope.tally (sc : Scope) : ScopeKind × Nat := (sc.kind, sc.binders.length)

/-- The frames are scopes, and these are their tallies. -/
inductive Tallied : List Frame → List (ScopeKind × Nat) → Prop
  | nil : Tallied [] []
  | cons {outer : List Frame} {tallies : List (ScopeKind × Nat)} (sc : Scope) (houter : Tallied outer tallies) :
      Tallied (.scope sc :: outer) (sc.tally :: tallies)

/-- The scopes that are open after a token is executed, innermost first. With none open, a token that binds opens the
scope of the declaration. -/
def Token.scopesAfter (t : Token) (scopes : List (ScopeKind × Nat)) : List (ScopeKind × Nat) :=
  match t with
  | .lparen => (.pi, 0) :: scopes
  | .lbrack => (.lam, 0) :: scopes
  | .rparen | .rbrack => scopes.tail
  | .arrow | .dot | .grab =>
    match scopes with
    | [] => [(.decl, 1)]
    | (kind, count) :: outer => (kind, count + 1) :: outer
  | _ => scopes

namespace Code

/-- The scopes that are open after the tokens, if the first one is read as a name (`reading`) or is executed. -/
def openAfter : Bool → List (ScopeKind × Nat) → List Token → List (ScopeKind × Nat)
  | _, scopes, [] => scopes
  | reading, scopes, t :: ts =>
    openAfter (!reading && decide (t = .colon)) (if reading then scopes else t.scopesAfter scopes) ts

/-- An arrow and the `grab` in its place bind alike. -/
theorem openAfter_grabParameters : ∀ (reading : Bool) (scopes : List (ScopeKind × Nat)) (depth : Nat)
    (ts : List Token), openAfter reading scopes (grabParameters depth ts) = openAfter reading scopes ts
  | _, _, _, [] => rfl
  | reading, scopes, depth, t :: ts => by
    rcases grabParameters_cons_cases depth t ts with ⟨rfl, _, hgrab⟩ | hkeep
    · rw [hgrab]
      exact openAfter_grabParameters _ _ _ ts
    · rw [hkeep]
      exact openAfter_grabParameters _ _ _ ts

/-- The scope of the first `count` parameters of a declaration: the one that its parenthesis opens (`wrapped`), or that
of the declaration, which the first of them opens. -/
def parameterScope (wrapped : Bool) (count : Nat) : List (ScopeKind × Nat) :=
  if wrapped then [(.pi, count)] else if count = 0 then [] else [(.decl, count)]

/-- In the scope of the parameters every token that binds adds one. -/
theorem scopesAfter_parameterScope {t : Token} (h : t.binds = true) (wrapped : Bool) (count : Nat) :
    t.scopesAfter (parameterScope wrapped count) = parameterScope wrapped (count + 1) := by
  have hbinds : t = .arrow ∨ t = .dot ∨ t = .grab := by cases t <;> simp_all [Token.binds]
  cases wrapped with
  | true => rcases hbinds with rfl | rfl | rfl <;> rfl
  | false => cases count <;> rcases hbinds with rfl | rfl | rfl <;> simp [parameterScope, Token.scopesAfter]

end Code

open Code

/-! ## The run of a declaration -/

namespace State

variable {s t u : State} {tallies : List (ScopeKind × Nat)} {tok : Token} {ts : List Token}

theorem Rule.tallied {pc : Address} (h : Rule s pc tok t) (hsignature : t.signature = s.signature)
    (hs : Tallied s.frames tallies) : Tallied t.frames (tok.scopesAfter tallies) := by
  cases h with
  | type | colon | captured | bound => exact hs
  | openPi => exact hs.cons ⟨.pi, s.current.pc, []⟩
  | openLam => exact hs.cons ⟨.lam, s.current.pc, []⟩
  | closePi _ _ hframes | closeLam _ hframes =>
    rw [hframes] at hs
    cases hs with | cons _ houter => exact houter
  | @extend _ v _ scope _ htoken _ _ hframes =>
    rw [hframes] at hs
    cases hs with | cons _ houter =>
    have hpush := houter.cons (scope.push ⟨s.current.name.or v.name, v.term, s.current.pc⟩)
    rcases htoken with rfl | rfl <;> simpa [Scope.tally, Scope.push, Token.scopesAfter] using hpush
  | @declare v _ _ _ hframes =>
    rw [hframes] at hs
    cases hs
    exact Tallied.nil.cons ⟨.decl, s.current.pc, [⟨s.current.name.or v.name, v.term, s.current.pc⟩]⟩
  | define => simp at hsignature
  | grab _ _ _ hframes =>
    rw [hframes] at hs
    cases hs

/-- **The scopes that a declaration has open are determined by the tokens that it has executed.** -/
theorem Executes.tallied (h : Executes ts s u) : ∀ {tallies : List (ScopeKind × Nat)}, u.signature = s.signature →
    Tallied s.frames tallies → Tallied u.frames (openAfter s.current.readingName tallies ts) := by
  induction h with
  | nil s =>
    intro tallies _ hs
    exact hs
  | @within tok ts s t u hfetch hfirst hrest ih =>
    intro tallies hsignature hs
    have hmiddle := (Move.within hfirst).grows.signature_eq hrest.grows hsignature
    have hreading := (Executes.within hfetch hfirst (.nil t)).reading_eq
    have ht : Tallied t.frames (if s.current.readingName then tallies else tok.scopesAfter tallies) := by
      cases hfirst with
      | name _ _ hname =>
        rw [hname]
        exact hs
      | rule _ htok hexecuted _ hrule =>
        obtain rfl := Option.some.inj (hfetch.symm.trans htok)
        rw [hexecuted]
        exact hrule.tallied hmiddle hs
    have hu := ih (hsignature.trans hmiddle.symm) ht
    rw [hreading] at hu
    exact hu
  | @call name ts s t u entry n c hfetch hcalls hreturns _ ih =>
    intro tallies hsignature hs
    obtain ⟨_, _, _, _, _, pc, _, _, _, _, _, rfl⟩ := hcalls.returns_iff_eval.mp hreturns
    have hu := ih hsignature hs
    rw [openAfter]
    simpa [hcalls.reading, Token.scopesAfter] using hu

end State

/-! ## The run of its code -/

namespace Activation

variable {σ : Signature} {a b : Activation} {t : Token} {vs : List Value}

/-- Below the scopes that the code has open, count the arguments as if they were variables of the declaration. -/
def tallies (a : Activation) (wrapped : Bool) (count : Nat) : List (ScopeKind × Nat) :=
  a.scopes.map Scope.tally ++ parameterScope wrapped count

theorem Rule.tallies_eq {pc : Address} (h : Rule σ a pc t vs b) (wrapped : Bool) (count : Nat) :
    t.scopesAfter (a.tallies wrapped count) = b.tallies wrapped (count + vs.length) := by
  unfold tallies
  cases h with
  | type | colon | openPi | openLam | captured | bound => rfl
  | closePi _ _ hscopes | closeLam _ hscopes =>
    rw [hscopes]
    rfl
  | extend htoken _ _ hscopes =>
    rw [hscopes]
    rcases htoken with rfl | rfl <;> simp [Scope.tally, Scope.push, Token.scopesAfter]
  | grab htoken _ _ hscopes =>
    rw [hscopes]
    exact scopesAfter_parameterScope (by rcases htoken with rfl | rfl | rfl <;> rfl) wrapped count

/-- **The scopes that an activation has open, and the number of its arguments, are determined by the tokens that it has
executed.** -/
theorem Eval.openAfter_eq {n : Nat} (h : Eval σ n a vs b) : ∃ ts, a.remaining σ = ts ++ b.remaining σ ∧
    readsAfter a.current.readingName ts = b.current.readingName ∧ ∀ wrapped count,
      openAfter a.current.readingName (a.tallies wrapped count) ts = b.tallies wrapped (count + vs.length) := by
  induction h with
  | nil a => exact ⟨[], rfl, rfl, fun _ _ => rfl⟩
  | @step n a b d vs ws hfirst _ ih =>
    obtain ⟨ts, hremaining, hreading, hopen⟩ := ih
    cases hfirst with
    | @name t pc hfetch hname hpc =>
      obtain ⟨rest, hrest⟩ := remaining_of_fetch hfetch
      rw [remaining_of_next? (a := a) hpc, hrest, List.tail_cons] at hremaining
      refine ⟨t :: ts, by rw [hrest, hremaining]; rfl, ?_, fun wrapped count => ?_⟩
      · rw [readsAfter, hname]
        exact hreading
      · rw [openAfter, hname, List.nil_append]
        exact hopen wrapped count
    | @rule t pc _ _ hfetch hexecuted hpc hrule =>
      obtain ⟨rest, hrest⟩ := remaining_of_fetch hfetch
      obtain ⟨_, hpc', hcolon, _⟩ := hrule.outline hexecuted
      rw [remaining_of_next? (a := a) (hpc'.symm ▸ hpc), hrest, List.tail_cons] at hremaining
      rw [hcolon] at hreading hopen
      refine ⟨t :: ts, by rw [hrest, hremaining]; rfl, ?_, fun wrapped count => ?_⟩
      · rw [readsAfter, hexecuted]
        exact hreading
      · rw [openAfter, hexecuted, List.length_append, ← Nat.add_assoc, ← hopen, ← hrule.tallies_eq]
        rfl
  | @call m n a b d entry c vs ws rest w pc hcalls _ _ _ hpc _ _ ih =>
    obtain ⟨ts, hremaining, hreading, hopen⟩ := ih
    obtain ⟨name, hfetch, _⟩ := hcalls.names
    obtain ⟨more, hmore⟩ := remaining_of_fetch hfetch
    rw [remaining_of_next? (a := a) hpc, hmore, List.tail_cons] at hremaining
    refine ⟨.id name :: ts, by rw [hmore, hremaining]; rfl, ?_, fun wrapped count => ?_⟩
    · rw [← hreading, readsAfter]
      simp [hcalls.reading]
    · rw [← hopen, openAfter]
      simp [hcalls.reading, Token.scopesAfter, tallies]

end Activation

end Stepwise
