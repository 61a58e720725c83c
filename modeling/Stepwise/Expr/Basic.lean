import Stepwise.Token

/-!
# Expressions

Terms and types share one language: `type` classifies types, `kind` classifies `type`, and nothing classifies `kind`.
A constant or a variable is applied to a spine, in the order of the parameters: its first element is the argument of the
first parameter, which is the one taken nearest the top of the stack.

Equality of expressions is decidable (`Expr.same_iff`). `Expr.pis` and `Expr.lams` wrap a body in binders, the first one
outermost.
-/

namespace Stepwise

inductive Expr where
  | type
  | kind
  | pi (name : Option Name) (domain body : Expr)
  | lam (name : Option Name) (domain body : Expr)
  | const (name : Name) (spine : List Expr)
  | var (name : Name) (spine : List Expr)
  deriving Repr, Inhabited

namespace Expr

/-! ## Structural equality -/

mutual

/-- Whether two expressions are the same tree, names included. -/
def same : Expr → Expr → Bool
  | type, type => true
  | kind, kind => true
  | pi n a b, pi n' a' b' => n == n' && same a a' && same b b'
  | lam n a b, lam n' a' b' => n == n' && same a a' && same b b'
  | const n s, const n' s' => n == n' && sameSpine s s'
  | var n s, var n' s' => n == n' && sameSpine s s'
  | _, _ => false

/-- Whether two spines are the same, element by element. -/
def sameSpine : List Expr → List Expr → Bool
  | [], [] => true
  | e :: es, f :: fs => same e f && sameSpine es fs
  | _, _ => false

end

mutual

theorem same_iff : ∀ e f : Expr, same e f = true ↔ e = f
  | type, f => by cases f <;> simp [same]
  | kind, f => by cases f <;> simp [same]
  | pi n a b, f => by cases f <;> simp [same, same_iff a, same_iff b, and_assoc]
  | lam n a b, f => by cases f <;> simp [same, same_iff a, same_iff b, and_assoc]
  | const n s, f => by cases f <;> simp [same, sameSpine_iff s]
  | var n s, f => by cases f <;> simp [same, sameSpine_iff s]

theorem sameSpine_iff : ∀ s t : List Expr, sameSpine s t = true ↔ s = t
  | [], t => by cases t <;> simp [sameSpine]
  | e :: s, t => by cases t <;> simp [sameSpine, same_iff e, sameSpine_iff s]

end

instance : DecidableEq Expr := fun e f => decidable_of_iff _ (same_iff e f)

/-! ## Classifiers and binders -/

/-- Only `type` and `kind` may classify the domain of a binder or the declared type of a constant. -/
def isSort : Expr → Bool
  | type | kind => true
  | _ => false

/-- The name that an outermost binder gives. -/
def boundName : Expr → Option Name
  | pi name _ _ | lam name _ _ => name
  | _ => none

/-- Wraps `body` in one function type per binder, first binder outermost. -/
def pis (binders : List (Option Name × Expr)) (body : Expr) : Expr :=
  binders.foldr (fun b acc => pi b.1 b.2 acc) body

/-- Wraps `body` in one function per binder, first binder outermost. -/
def lams (binders : List (Option Name × Expr)) (body : Expr) : Expr :=
  binders.foldr (fun b acc => lam b.1 b.2 acc) body

@[simp] theorem pis_nil (body : Expr) : pis [] body = body := rfl

@[simp] theorem pis_cons (b : Option Name × Expr) (bs : List (Option Name × Expr)) (body : Expr) :
    pis (b :: bs) body = pi b.1 b.2 (pis bs body) := rfl

@[simp] theorem lams_nil (body : Expr) : lams [] body = body := rfl

@[simp] theorem lams_cons (b : Option Name × Expr) (bs : List (Option Name × Expr)) (body : Expr) :
    lams (b :: bs) body = lam b.1 b.2 (lams bs body) := rfl

theorem isSort_iff {e : Expr} : e.isSort = true ↔ e = type ∨ e = kind := by
  cases e <;> simp [isSort]

end Expr

end Stepwise
