import Stepwise.Code
import Stepwise.Proofs.Activation

/-!
# How many arguments a call captures

An activation executes what remains of its code (`Activation.remaining`) token by token, up to the first `ret` that is
not read as a name. Each arrow, dot or `grab` outside all scopes captures one argument, so the number of arguments is a
matter of the code alone (`Eval.length_eq`): a constant captures equally many from every caller, whatever it finds
there.
-/

namespace Stepwise

/-- Arrows, dots and `grab` bind: a variable inside a scope, an argument outside all scopes. -/
def Token.binds : Token → Bool
  | .arrow | .dot | .grab => true
  | _ => false

/-- The number of arguments that the tokens up to the first executed `ret` capture, if `depth` scopes are open and the
first token is read as a name (`reading`) or is executed. -/
def Code.arityFrom : Bool → Nat → List Token → Nat
  | _, _, [] => 0
  | true, depth, _ :: ts => arityFrom false depth ts
  | false, depth, t :: ts =>
    if t = .ret then 0
    else (if t.binds ∧ depth = 0 then 1 else 0) + arityFrom (decide (t = .colon)) (t.depthAfter depth) ts

namespace Activation

variable {σ : Signature} {a b : Activation} {t : Token} {vs : List Value}

/-! ## The code that remains -/

/-- The instructions from the next one to the end of the code. -/
def remaining (σ : Signature) (a : Activation) : List Token :=
  match a.current.pc with
  | .stream _ => []
  | .code entry offset => (σ[entry]?).elim [] fun c => c.code.drop offset

theorem fetch_eq_head? (σ : Signature) (a : Activation) : a.fetch σ = (a.remaining σ).head? := by
  unfold fetch remaining
  cases a.current.pc with
  | stream index => rfl
  | code entry offset =>
    simp only
    cases σ[entry]? with
    | none => rfl
    | some c => simp

theorem remaining_of_fetch (h : a.fetch σ = some t) : ∃ ts, a.remaining σ = t :: ts :=
  List.head?_eq_some_iff.mp (fetch_eq_head? σ a ▸ h)

theorem remaining_of_next? (h : a.current.pc.next? = some b.current.pc) : b.remaining σ = (a.remaining σ).tail := by
  unfold Address.next? at h
  split at h
  case isFalse => cases h
  cases hpc : a.current.pc with
  | stream index =>
    simp only [hpc, Option.some.injEq] at h
    simp [remaining, hpc, ← h]
  | code entry offset =>
    simp only [hpc, Option.some.injEq] at h
    simp only [remaining, hpc, ← h]
    cases σ[entry]? with
    | none => rfl
    | some c => simp

theorem remaining_start {entry : Nat} {c : Constant} (h : σ[entry]? = some c) :
    (start entry c).remaining σ = c.code := by
  simp [remaining, start, h]

/-! ## One instruction -/

/-- The bookkeeping of an instruction: how many values it captures, where execution goes on, whether a name follows, and
how many scopes are open then. -/
theorem Rule.outline {pc : Address} (h : Rule σ a pc t vs b) (hreading : a.current.readingName = false) :
    vs.length = (if t.binds ∧ a.scopes.length = 0 then 1 else 0) ∧ b.current.pc = pc ∧
      b.current.readingName = decide (t = .colon) ∧ b.scopes.length = t.depthAfter a.scopes.length ∧ t ≠ .ret := by
  cases h with
  | extend htoken _ _ hscopes =>
    rcases htoken with rfl | rfl <;>
      simp [Token.binds, Token.depthAfter, Token.isOpening, Token.isClosing, hscopes, hreading]
  | grab htoken _ _ hscopes =>
    rcases htoken with rfl | rfl | rfl <;>
      simp [Token.binds, Token.depthAfter, Token.isOpening, Token.isClosing, hscopes, hreading]
  | _ => simp_all [Token.binds, Token.depthAfter, Token.isOpening, Token.isClosing]

/-- An activation without a next instruction stays where it is. -/
theorem Eval.fetch_isSome {n : Nat} (h : Eval σ n a vs b) (hb : (b.fetch σ).isSome = true) :
    (a.fetch σ).isSome = true := by
  cases h with
  | nil => exact hb
  | step hfirst =>
    cases hfirst with
    | name hfetch => rw [hfetch]; rfl
    | rule hfetch => rw [hfetch]; rfl
  | call hcalls =>
    obtain ⟨_, hfetch, _⟩ := hcalls.names
    rw [hfetch]; rfl

/-! ## Whole runs -/

/-- **The number of arguments captured by an activation that returns is determined by its code.** -/
theorem Eval.length_eq {n : Nat} {v : Value} (h : Eval σ n a vs b) (hreturning : b.Returning σ v) :
    vs.length = Code.arityFrom a.current.readingName a.scopes.length (a.remaining σ) := by
  induction h with
  | nil a =>
    obtain ⟨ts, hts⟩ := remaining_of_fetch hreturning.fetch
    simp [hts, hreturning.reading, Code.arityFrom]
  | @step n a b d vs ws hfirst _ ih =>
    cases hfirst with
    | @name t pc hfetch hreading hpc =>
      obtain ⟨ts, hts⟩ := remaining_of_fetch hfetch
      rw [List.nil_append, ih hreturning, hreading, hts, Code.arityFrom,
        remaining_of_next? (a := a) hpc, hts, List.tail_cons]
    | @rule t pc _ _ hfetch hreading hpc hrule =>
      obtain ⟨ts, hts⟩ := remaining_of_fetch hfetch
      obtain ⟨hlength, hpc', hreading', hscopes, hret⟩ := hrule.outline hreading
      rw [List.length_append, ih hreturning, hlength, hreading, hts, Code.arityFrom, if_neg hret, hreading', hscopes,
        remaining_of_next? (a := a) (hpc'.symm ▸ hpc), hts, List.tail_cons]
  | @call m n a b d entry c vs ws rest w pc hcalls _ _ _ hpc _ _ ih =>
    obtain ⟨name, hfetch, _⟩ := hcalls.names
    obtain ⟨ts, hts⟩ := remaining_of_fetch hfetch
    rw [ih hreturning, hts, hcalls.reading, Code.arityFrom, remaining_of_next? (a := a) hpc, hts]
    simp [Token.binds, Token.depthAfter, Token.isOpening, Token.isClosing]

/-- Two calls of a constant that return capture equally many arguments, also when the signature grew between them. -/
theorem Eval.length_eq_length {τ : Signature} {entry m n : Nat} {c : Constant} {ws : List Value} {d : Activation}
    {v w : Value} (hσ : σ[entry]? = some c) (hτ : τ[entry]? = some c) (h : Eval σ m (start entry c) vs b)
    (hreturning : b.Returning σ v) (h' : Eval τ n (start entry c) ws d) (hreturning' : d.Returning τ w) :
    vs.length = ws.length := by
  rw [h.length_eq hreturning, h'.length_eq hreturning', remaining_start hσ, remaining_start hτ]

end Activation

end Stepwise
