import Stepwise.Expr.Basic

/-!
# Flat forms

The flat form of an expression is a list of words that reads like the postfix source that builds it: an application is
its spine, last argument first, followed by its head. A binder is a marker, `_` in place of its name, its domain and
its body, while a variable keeps its name.

Two expressions match (`Expr.Matches`) when their flat forms, joined by single spaces, are the same text. This is
coarser than equality, since it forgets the names of binders and tells neither constants from variables nor a name
that holds a space from two names; and it is not equality up to renaming, since occurrences keep their names.
-/

namespace Stepwise.Expr

mutual

/-- The words of an expression, in the order of the source that builds it. -/
def flat : Expr → List String
  | type => ["type"]
  | kind => ["kind"]
  | pi _ a b => "pi" :: anonymous :: (flat a ++ flat b)
  | lam _ a b => "lam" :: anonymous :: (flat a ++ flat b)
  | const name spine => flatSpine spine ++ [name]
  | var name spine => flatSpine spine ++ [name]

/-- The words of a spine, last argument first. -/
def flatSpine : List Expr → List String
  | [] => []
  | e :: es => flatSpine es ++ flat e

end

/-- The flat form as one text. -/
def flatText (e : Expr) : String := " ".intercalate e.flat

/-- The comparison that decides whether an argument has the type that a parameter asks for. -/
def Matches (e f : Expr) : Prop := e.flatText = f.flatText

instance (e f : Expr) : Decidable (Matches e f) := inferInstanceAs (Decidable (e.flatText = f.flatText))

theorem flatSpine_eq (es : List Expr) : flatSpine es = (es.reverse.map flat).flatten := by
  induction es with
  | nil => rfl
  | cons e es ih => simp [flatSpine, ih]

end Stepwise.Expr
