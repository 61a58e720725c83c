import Mathlib.Data.List.Basic
import Stepwise.Proofs.Contents
import Stepwise.Proofs.Instantiation
import Stepwise.Proofs.OpenScopes
import Stepwise.Proofs.Record

/-!
# The arity of a constant

Each constant takes a fixed number of arguments (`Code.arity`), whatever its declaration and the names in it look like.
The code of a call that returns is executed to its last instruction, with the same scopes open as in the declaration
(`bindsExactly_of_eval`). So the declaration, which was executed when the constant was declared, had bound as many
parameters as the call captures (`exists_params_of_executes`), and the type of the constant begins with a function type
for each of them (`fixed_arity`).
-/

namespace Stepwise

namespace Expr

/-- The number of function types that an expression begins with, each the codomain of the one before. -/
def leadingPis : Expr → Nat
  | pi _ _ b => b.leadingPis + 1
  | _ => 0

/-- Wrapping an expression in function types adds as many as there are binders. -/
theorem leadingPis_pis (binders : List (Option Name × Expr)) (body : Expr) :
    (pis binders body).leadingPis = binders.length + body.leadingPis := by
  induction binders with
  | nil => rw [pis_nil, List.length_nil, Nat.zero_add]
  | cons b binders ih =>
    rw [pis_cons, leadingPis, ih, List.length_cons]
    omega

end Expr

namespace Code

/-- The number of arguments that a call captures that runs the code. -/
def arity (code : List Token) : Nat := arityFrom false 0 code

/-- Executed in the scope of the parameters, the tokens bind `k` of them and leave no other scope open. -/
structure BindsExactly (ts : List Token) (k : Nat) : Prop where
  reading : readsAfter false ts = false
  scopes : ∀ wrapped, openAfter false (parameterScope wrapped 0) ts = parameterScope wrapped k

end Code

theorem Scope.length_telescope (sc : Scope) : sc.telescope.length = sc.tally.2 := by simp [telescope, tally]

/-- The scope that the parenthesis of a declaration opens has all its parameters. -/
theorem Tallied.eq_of_parameterScope {sc : Scope} {outer : List Frame} {k : Nat}
    (h : Tallied (.scope sc :: outer) (Code.parameterScope true k)) : outer = [] ∧ sc.telescope.length = k := by
  generalize hscope : Code.parameterScope true k = tallies at h
  cases h with | cons _ houter =>
  obtain ⟨htally, hnone⟩ := List.cons.inj hscope
  subst hnone
  cases houter
  exact ⟨rfl, by rw [sc.length_telescope, ← htally]⟩

namespace State

open Activation Code

variable {s₀ u w : State} {σ : Signature} {a b : Activation} {c : Constant} {declaration : List Token}
  {binders : List (Option Name × Expr)} {outer : List Frame} {vs : List Value} {v : Value} {entry n k : Nat}

/-! ## The whole code -/

/-- **A call that returns has executed all that the code keeps of the declaration**, and has captured an argument for
each parameter there. -/
theorem bindsExactly_of_eval (hcode : c.code = ofDeclaration declaration) (hret : .ret ∉ declaration)
    (hentry : σ[entry]? = some c) (heval : Eval σ n (.start entry c) vs b) (hreturning : b.Returning σ v) :
    BindsExactly (body declaration) vs.length := by
  obtain ⟨ts, hremaining, hreading, hopen⟩ := heval.openAfter_eq
  obtain ⟨rest, hrest⟩ := remaining_of_fetch hreturning.fetch
  -- The only `ret` of the code is its last instruction.
  have hnot : .ret ∉ grabParameters 0 (body declaration) := fun hmem =>
    hret (mem_of_mem_body (mem_of_mem_grabParameters (by simp) hmem))
  rw [remaining_start hentry, hcode, ofDeclaration, hrest] at hremaining
  obtain ⟨rfl, _, _⟩ := (List.append_cons_inj_of_notMem hnot List.not_mem_nil).mp hremaining
  refine ⟨by rw [← readsAfter_grabParameters false 0]; exact hreading.trans hreturning.reading, fun wrapped => ?_⟩
  have hparameters := hopen wrapped 0
  rw [openAfter_grabParameters, Nat.zero_add, tallies, tallies, hreturning.scopes] at hparameters
  exact hparameters

/-! ## The parameters of the declaration -/

/-- The dot of a declaration takes the binders from the scope of its parameters. -/
theorem Declares.length_eq (h : Declares u.frames binders outer) (hu : Tallied u.frames (parameterScope false k)) :
    binders.length = k := by
  generalize u.frames = frames at h hu
  generalize hscope : parameterScope false k = tallies at hu
  cases h with
  | plain =>
    cases hu
    simpa [parameterScope, eq_comm] using hscope
  | scope =>
    cases hu
    by_cases hk : k = 0
    · simp [parameterScope, hk] at hscope
    · simp only [parameterScope, hk, if_false, Bool.false_eq_true, List.cons.injEq] at hscope
      rw [Scope.length_telescope, ← hscope.1]

/-- Where the body ends, the scope of the parameters is open and no other. -/
theorem Executes.tallied_body {wrapped : Bool} {ts rest : List Token} (hts : BindsExactly ts k)
    (h : Executes ts u₀ u) (hend : Executes rest u w) (hsignature : w.signature = u₀.signature)
    (hreading : u₀.current.readingName = false) (htallied : Tallied u₀.frames (parameterScope wrapped 0)) :
    u.current.readingName = false ∧ Tallied u.frames (parameterScope wrapped k) := by
  have hu := h.tallied (h.grows.signature_eq hend.grows hsignature) htallied
  rw [hreading, hts.scopes] at hu
  exact ⟨by rw [h.reading_eq, hreading, hts.reading], hu⟩

/-- A declaration that has bound `k` parameters when its body ends declares a constant with as many. -/
theorem exists_params_of_executes (hopens : s₀.Opens) (hexecutes : Executes declaration s₀ w)
    (hsignature : w.signature = s₀.signature) (hdeclaring : w.Declaring c)
    (hbody : BindsExactly (body declaration) k) :
    ∃ params codomain, params.length = k ∧ c.type = .pis params codomain := by
  obtain ⟨index, binders, outer, x, rest, _, hdeclares, hx, rfl⟩ := hdeclaring.ends
  rcases body_cases declaration with ⟨name, hname, hdeclaration⟩ | ⟨inner, last, hinner, hlast, hdeclaration⟩
  · rw [hdeclaration] at hexecutes
    obtain ⟨u, hfirst, hend⟩ := hexecutes.split
    have hclosed : Tallied s₀.frames (parameterScope false 0) := by
      rw [hopens.frames]
      exact .nil
    obtain ⟨hreading, hu⟩ := hfirst.tallied_body hbody hend hsignature hopens.reading hclosed
    rw [(hend.of_nameAtEnd hname hreading).1] at hdeclares
    exact ⟨binders, x.term, hdeclares.length_eq hu, rfl⟩
  · rw [hdeclaration] at hexecutes
    obtain ⟨u₀, pc, _, _, hinside, hu₀⟩ := hexecutes.of_lparen hopens.reading
    have hopened : Tallied u₀.frames (parameterScope true 0) := by
      rw [hu₀, hopens.frames]
      exact Tallied.nil.cons ⟨.pi, s₀.current.pc, []⟩
    obtain ⟨u, hfirst, hend⟩ := hinside.split
    obtain ⟨hreading, hu⟩ := hfirst.tallied_body hbody hend (by rw [hu₀]; exact hsignature)
      (by rw [hu₀]; exact hopens.reading) hopened
    -- The parenthesis closes the scope of the parameters.
    obtain ⟨v, hnamed, hclosing⟩ := hend.split
    obtain ⟨hframes, _, hread⟩ := hnamed.of_nameAtEnd hinner hreading
    obtain ⟨v', y, below, sc, outer', hfinal, hread', _, hsc, hframes', hstack'⟩ := hclosing.of_rparen hread
    obtain ⟨hframes'', hstack'', _⟩ := hfinal.of_nameAtEnd hlast hread'
    rw [← hframes, hsc] at hu
    obtain ⟨rfl, hlength⟩ := hu.eq_of_parameterScope
    rw [hframes'', hframes'] at hdeclares
    cases hdeclares
    rw [hstack'', hstack'] at hx
    obtain ⟨rfl, _⟩ : _ = x ∧ _ := by simpa using hx
    exact ⟨sc.telescope, y.term, hlength, rfl⟩

/-! ## All calls -/

/-- **Every constant has a fixed arity.** A call of a constant that a program declares captures as many arguments as its
code says, in whatever state it is made, if it returns; and then the type of the constant begins with at least as many
function types. -/
theorem fixed_arity {text : String} {s t : State} (h : Reachable text s) (hc : c ∈ s.signature)
    (hcalls : u.Calls entry c) (hreturns : u.Returns n t) :
    (∃ (vs : List Value) (rest : List Slot) (classifier : Expr), vs.length = arity c.code ∧
      u.stack = vs.map .value ++ rest ∧
      t.stack = .value ⟨.const c.name (vs.map (·.term)), classifier, none⟩ :: rest) ∧
    arity c.code ≤ c.type.leadingPis := by
  obtain ⟨m, vs, rest, b, v, pc, _, heval, hreturning, hstack, _, rfl⟩ := hcalls.returns_iff_eval.mp hreturns
  have hlength : vs.length = arity c.code := by
    rw [heval.length_eq hreturning, remaining_start hcalls.getElem?_eq]
    rfl
  refine ⟨⟨vs, rest, v.term, hlength, hstack, rfl⟩, ?_⟩
  obtain ⟨_, s₀, w, hrun⟩ := h.exists_declared hc
  have hret : .ret ∉ s.declaration c := fun hmem =>
    Source.not_mem_of_unspelled (.inr rfl) (h.mem_of_mem_declaration hmem)
  have hbody := bindsExactly_of_eval (h.wellPlaced.codes c hc).1 hret hcalls.getElem?_eq heval hreturning
  obtain ⟨params, codomain, hparams, htype⟩ :=
    exists_params_of_executes hrun.opens hrun.executes hrun.signature hrun.declaring hbody
  rw [← hlength, ← hparams, htype, Expr.leadingPis_pis]
  exact Nat.le_add_right _ _

/-- The first parameter of `f` is named by an arrow, which its code has replaced. A call captures two arguments. -/
theorem fixed_arity_with_arrow_for_name : ∃ (s u t : State) (c : Constant),
    Reachable "type : o . ( type : -> -> o : x -> type ) : f . o : k . k o f" s ∧ c ∈ s.signature ∧ c.name = "f" ∧
    u.Calls 1 c ∧ u.Returns 13 t ∧
    (∃ (vs : List Value) (rest : List Slot) (classifier : Expr), vs.length = 2 ∧ u.stack = vs.map .value ++ rest ∧
      t.stack = .value ⟨.const "f" (vs.map (·.term)), classifier, none⟩ :: rest) ∧
    2 ≤ c.type.leadingPis := by
  let run := (ofText "type : o . ( type : -> -> o : x -> type ) : f . o : k . k o f").after
  let s := (run 20).getD default
  let u := (run 34).getD default
  let t := (run 47).getD default
  let c := u.signature.getD 1 default
  obtain ⟨hs, hc, hname, hcalls, hreturns, harity⟩ : run 20 = some s ∧ c ∈ s.signature ∧ c.name = "f" ∧
      u.Calls 1 c ∧ u.Returns 13 t ∧ arity c.code = 2 := by decide +kernel
  have hfixed := fixed_arity ⟨20, hs⟩ hc hcalls hreturns
  rw [harity, hname] at hfixed
  exact ⟨s, u, t, c, ⟨20, hs⟩, hc, hname, hcalls, hreturns, hfixed⟩

end State

end Stepwise
