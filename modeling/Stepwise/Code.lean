import Stepwise.Token

/-!
# Code of a declaration

`Code.ofDeclaration` turns the tokens of a declaration, up to its dot, into the code that a call of the declared
constant runs. The binders of the declaration are the parameters of the constant, so an arrow outside all brackets
becomes `grab`; the code always ends in `ret` (`getLast?_ofDeclaration`). The name at the end of the declaration is
left out, and so is a pair of parentheses around all of it (`parenthesised?`).
-/

namespace Stepwise

/-- The number of open brackets after a token, when `depth` are open before it. A closing bracket without a partner
changes nothing. -/
def Token.depthAfter (t : Token) (depth : Nat) : Nat :=
  if t.isOpening then depth + 1 else if t.isClosing then depth - 1 else depth

namespace Code

/-- Drops a colon and a name from the end. -/
def dropName (body : List Token) : List Token :=
  match body.reverse with
  | _ :: .colon :: rest => rest.reverse
  | _ => body

/-- The tokens before the bracket that closes the last of `depth` open scopes, if that bracket is a right parenthesis
and nothing follows it. -/
def closedBy? : Nat → List Token → Option (List Token)
  | _, [] => none
  | depth, t :: ts =>
    if t.isClosing ∧ t.depthAfter depth = 0 then
      if t = .rparen ∧ ts = [] then some [] else none
    else (closedBy? (t.depthAfter depth) ts).map (t :: ·)

/-- The inside of a body that is one parenthesised scope. -/
def parenthesised? : List Token → Option (List Token)
  | .lparen :: ts => closedBy? 1 ts
  | _ => none

/-- The tokens of a declaration that its code keeps: no name at the end, no parentheses around the whole. -/
def body (declaration : List Token) : List Token :=
  let nameless := dropName declaration
  match parenthesised? nameless with
  | some inside => dropName inside
  | none => nameless

/-- Replaces each arrow outside all brackets, `depth` of which are open at the start, by `grab`. -/
def grabParameters : Nat → List Token → List Token
  | _, [] => []
  | depth, t :: ts =>
    (if t = .arrow ∧ t.depthAfter depth = 0 then .grab else t) :: grabParameters (t.depthAfter depth) ts

/-- The code that a call runs, for the tokens of a declaration up to its dot. -/
def ofDeclaration (declaration : List Token) : List Token := grabParameters 0 (body declaration) ++ [.ret]

theorem length_grabParameters : ∀ (depth : Nat) (ts : List Token), (grabParameters depth ts).length = ts.length
  | _, [] => rfl
  | _, _ :: ts => by simp [grabParameters, length_grabParameters _ ts]

theorem getLast?_ofDeclaration (declaration : List Token) :
    (ofDeclaration declaration).getLast? = some .ret := by
  simp [ofDeclaration]

end Code

end Stepwise
