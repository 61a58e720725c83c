import Stepwise.Json.Number
import Stepwise.Json.Text

/-!
# Passing over a value

`Reader.skip` reads past one value of any kind without looking into it. It keeps the containers that are open, innermost
first, and what may come next, and takes one item at a time.
-/

namespace Stepwise.Json

inductive Container where
  | array
  | object
  deriving DecidableEq, Repr, Inhabited

/-- What may come next while a value is passed over. -/
inductive Expected where
  /-- A value. -/
  | value
  /-- A value, or the end of the array just opened. -/
  | firstItem
  /-- A key, or the end of the object just opened. -/
  | firstKey
  /-- A key. -/
  | key
  /-- The colon after a key. -/
  | colon
  /-- A comma, or the end of the innermost container. -/
  | comma
  deriving DecidableEq, Repr, Inhabited

namespace Container

/-- The byte that ends a container. -/
def close : Container → Char
  | array => ']'
  | object => '\x7d'

/-- What a comma in a container is followed by. -/
def afterComma : Container → Expected
  | array => .value
  | object => .key

end Container

namespace Reader

/-- One item of a value being passed over. -/
inductive Item where
  /-- A value that is no container. -/
  | scalar
  | opened (container : Container)
  | closed
  /-- A key, a colon or a comma, and what comes after it. -/
  | separator (next : Expected)
  deriving DecidableEq, Repr, Inhabited

/-- A value, or the bracket that opens one. -/
def valueItem : Reader Item :=
  peek fun c =>
    match c with
    | 'n' => (word 'n' ['u', 'l', 'l']).map fun _ => .scalar
    | 't' => (word 't' ['r', 'u', 'e']).map fun _ => .scalar
    | 'f' => (word 'f' ['a', 'l', 's', 'e']).map fun _ => .scalar
    | '"' => skippedText.map fun _ => .scalar
    | '[' => (exactly '[').map fun _ => .opened .array
    | '\x7b' => (exactly '\x7b').map fun _ => .opened .object
    | c => if c = '-' || c.isDigit then skippedNumber.map fun _ => .scalar else fail .malformed

/-- A key. -/
def keyItem : Reader Item :=
  peek fun c => if c = '"' then skippedText.map fun _ => .separator .colon else fail .malformed

/-- The next item, where `innermost` is the container around it. -/
def item (innermost : Option Container) : Expected → Reader Item
  | .value => valueItem
  | .firstItem => peek fun c => if c = ']' then (exactly ']').map fun _ => .closed else valueItem
  | .firstKey => peek fun c => if c = '\x7d' then (exactly '\x7d').map fun _ => .closed else keyItem
  | .key => keyItem
  | .colon => (exactly ':').map fun _ => .separator .value
  | .comma =>
    byte fun c =>
      match innermost with
      | some k =>
        if c = k.close then .ok .closed
        else if c = ',' then .ok (.separator k.afterComma)
        else .error .malformed
      | none => .error .malformed

/-- Passes over the rest of a value of which the containers `within` are open. -/
def skipRest (expected : Expected) (within : List Container) (s : List UInt8) : Except Defect (Read Unit s) :=
  match token (item within.head? expected) s with
  | .error d => .error d
  | .ok r =>
    have := r.shorter
    -- a value is complete, and with it the outermost one if no container is open
    let after (within : List Container) : Except Defect (Read Unit s) :=
      if within = [] then .ok ⟨(), r.rest, r.shorter⟩
      else
        match skipRest .comma within r.rest with
        | .error d => .error d
        | .ok t => .ok (t.widen (Nat.le_of_lt r.shorter))
    let proceed (next : Expected) (within : List Container) : Except Defect (Read Unit s) :=
      match skipRest next within r.rest with
      | .error d => .error d
      | .ok t => .ok (t.widen (Nat.le_of_lt r.shorter))
    match r.value with
    | .scalar => after within
    | .closed => after within.tail
    | .opened .array => proceed .firstItem (.array :: within)
    | .opened .object => proceed .firstKey (.object :: within)
    | .separator next => proceed next within
termination_by s.length

/-- Passes over one value. -/
def skip : Reader Unit := skipRest .value []

end Reader

end Stepwise.Json
