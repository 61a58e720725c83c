import Stepwise.Expr.Basic

/-!
# Replacing variables by terms

`Expr.replace` replaces, all at once, every variable without a spine that has a term assigned. Nothing is renamed: a
binder keeps its name, and variables below it are replaced all the same. Replacing commutes with wrapping in binders
(`replace_pis`, `replace_lams`).
-/

namespace Stepwise

/-- Terms for names, as the arguments of a call give them. A position without a name gives its term to no variable. -/
abbrev Assignment := List (Option Name × Expr)

/-- The term for a name, the last one if there are several. -/
def Assignment.term? (ρ : Assignment) (name : Name) : Option Expr :=
  (ρ.reverse.find? (·.1 = some name)).map (·.2)

namespace Expr

mutual

/-- The expression with every variable that has no spine replaced by its term. -/
def replace (ρ : Assignment) : Expr → Expr
  | type => type
  | kind => kind
  | pi name domain body => pi name (replace ρ domain) (replace ρ body)
  | lam name domain body => lam name (replace ρ domain) (replace ρ body)
  | const name spine => const name (replaceSpine ρ spine)
  | var name [] => (ρ.term? name).getD (var name [])
  | var name (e :: es) => var name (replaceSpine ρ (e :: es))

/-- The same in every element of a spine. -/
def replaceSpine (ρ : Assignment) : List Expr → List Expr
  | [] => []
  | e :: es => replace ρ e :: replaceSpine ρ es

end

variable (ρ : Assignment)

/-- The same in the types of a telescope, whose names stay. -/
def replaceTelescope (binders : List (Option Name × Expr)) : List (Option Name × Expr) :=
  binders.map fun b => (b.1, b.2.replace ρ)

theorem replaceSpine_eq_map (es : List Expr) : replaceSpine ρ es = es.map (replace ρ) := by
  induction es with
  | nil => rfl
  | cons e es ih => rw [replaceSpine, ih, List.map_cons]

@[simp] theorem replace_const (name : Name) (spine : List Expr) :
    (const name spine).replace ρ = const name (spine.map (replace ρ)) := by
  rw [replace, replaceSpine_eq_map]

theorem replace_pis (body : Expr) : ∀ binders : List (Option Name × Expr),
    (pis binders body).replace ρ = pis (replaceTelescope ρ binders) (body.replace ρ)
  | [] => rfl
  | b :: binders => by
    rw [pis_cons, replace, replace_pis body binders]
    rfl

theorem replace_lams (body : Expr) : ∀ binders : List (Option Name × Expr),
    (lams binders body).replace ρ = lams (replaceTelescope ρ binders) (body.replace ρ)
  | [] => rfl
  | b :: binders => by
    rw [lams_cons, replace, replace_lams body binders]
    rfl

end Expr

end Stepwise
