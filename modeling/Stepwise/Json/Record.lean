import Stepwise.Json.Skip

/-!
# Typed values and records

Readers of the values that a configuration holds. A record is given by its fields (`Field`), and is written as an
object or as an array of the fields in their order. In an object, the members may stand in any order, unknown ones are
passed over, and missing ones keep their default. An array may leave out fields at its end, except those that it has
to reach.
-/

namespace Stepwise.Json

/-- A field of a record that is read into an `α`. -/
structure Field (α : Type) where
  key : String
  /-- Whether an array has to reach it. -/
  needed : Bool := false
  read : α → Reader α

namespace Reader

variable {α : Type}

/-- Refuses a value of another type than the expected one. A value that is no container is read first, so that its own
defects are the ones reported. -/
def unexpected : Reader α :=
  peek fun c =>
    match c with
    | 'n' => (word 'n' ['u', 'l', 'l']).refuse
    | 't' => (word 't' ['r', 'u', 'e']).refuse
    | 'f' => (word 'f' ['a', 'l', 's', 'e']).refuse
    | '"' => text.refuse
    | '[' => fail .mistyped
    | '\x7b' => fail .mistyped
    | c => if c = '-' || c.isDigit then number.refuse else fail .malformed

def flag : Reader Bool :=
  token (peek fun
    | 't' => (word 't' ['r', 'u', 'e']).map fun _ => true
    | 'f' => (word 'f' ['a', 'l', 's', 'e']).map fun _ => false
    | _ => unexpected)

/-- A natural number that fits a machine word. -/
def natural : Reader Nat :=
  token (peek fun c =>
    if c = '-' || c.isDigit then
      number.check fun
        | some n => .ok n
        | none => .error .mistyped
    else unexpected)

/-- A text, or `null` for none. -/
def optionalText : Reader (Option String) :=
  token (peek fun
    | 'n' => (word 'n' ['u', 'l', 'l']).map fun _ => none
    | '"' => text.map some
    | _ => unexpected)

/-! ## Records -/

/-- The key of the next member, after a comma unless the member is the first, or `none` at the end of the object. -/
def key (first : Bool) : Reader (Option String) :=
  let name : Reader (Option String) := token (peek fun c => if c = '"' then text.map some else fail .malformed)
  token (peek fun c =>
    if c = '\x7d' then (exactly '\x7d').map fun _ => none
    else if first then name
    else (exactly ',').andThen fun _ => name)

/-- The value of a member, of which `seen` are the known keys before it. A known key is refused the second time, before
anything after it is read. -/
def member (fields : List (Field α)) (seen : List String) (a : α) (k : String) : Reader (α × List String) :=
  let colon := token (exactly ':')
  match fields.find? (·.key = k) with
  | none => colon.andThen fun _ => skip.map fun _ => (a, seen)
  | some f =>
    if k ∈ seen then fail .mistyped
    else colon.andThen fun _ => (f.read a).map fun a => (a, k :: seen)

/-- The members of an object up to its end. -/
def members (fields : List (Field α)) (first : Bool) (acc : α × List String) (s : List UInt8) :
    Except Defect (Read α s) :=
  match key first s with
  | .error d => .error d
  | .ok ⟨none, rest, h⟩ => .ok ⟨acc.1, rest, h⟩
  | .ok ⟨some k, rest, h⟩ =>
    match member fields acc.2 acc.1 k rest with
    | .error d => .error d
    | .ok r =>
      have := r.shorter
      match members fields false r.value r.rest with
      | .error d => .error d
      | .ok t => .ok (t.widen (by omega))
termination_by s.length

/-- The elements of an array up to its end. -/
def elements : List (Field α) → (first : Bool) → α → Reader α
  | [], _, a => token ((exactly ']').map fun _ => a)
  | f :: fs, first, a =>
    let element : Reader α := (f.read a).andThen (elements fs false)
    token (peek fun c =>
      if c = ']' then
        if (f :: fs).any (·.needed) then fail .mistyped else (exactly ']').map fun _ => a
      else if first then element
      else (exactly ',').andThen fun _ => token (peek fun c => if c = ']' then fail .malformed else element))

/-- A record, on top of the defaults `a`. -/
def record (fields : List (Field α)) (a : α) : Reader α :=
  token (peek fun c =>
    match c with
    | '[' => (exactly '[').andThen fun _ => elements fields true a
    | '\x7b' => (exactly '\x7b').andThen fun _ => members fields true (a, [])
    | _ => unexpected)

end Reader

/-- A value that takes up all of the bytes, blanks apart. -/
def Reader.all {α : Type} (r : Reader α) (bytes : List UInt8) : Except Defect α :=
  match r bytes with
  | .error d => .error d
  | .ok a => if a.rest.all Reader.isBlank then .ok a.value else .error .malformed

end Stepwise.Json
