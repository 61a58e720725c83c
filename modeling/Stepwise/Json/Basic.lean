/-!
# JSON values and their text

The values that the machine writes: numbers are natural, and the members of an object have an order. `Json.render`
writes a value without blanks.
-/

namespace Stepwise

inductive Json where
  | null
  | bool (value : Bool)
  | nat (value : Nat)
  | str (value : String)
  | arr (items : List Json)
  | obj (members : List (String × Json))
  deriving Repr, Inhabited

namespace Json

/-- A text, or `null` for none. -/
def optStr : Option String → Json
  | none => null
  | some s => str s

def list {α : Type} (f : α → Json) (items : List α) : Json := arr (items.map f)

/-! ## Text -/

/-- A code point below U+0100 as four hexadecimal digits in lower case. -/
def hexEscape (c : Char) : List Char :=
  ['\\', 'u', '0', '0', Nat.digitChar (c.toNat / 16), Nat.digitChar (c.toNat % 16)]

/-- A character inside a text: quotes, backslashes and the controls below U+0020 are escaped, the rest stands for
itself. -/
def escape (c : Char) : List Char :=
  if c = '"' then ['\\', '"']
  else if c = '\\' then ['\\', '\\']
  else if c = '\x08' then ['\\', 'b']
  else if c = '\t' then ['\\', 't']
  else if c = '\n' then ['\\', 'n']
  else if c = '\x0c' then ['\\', 'f']
  else if c = '\r' then ['\\', 'r']
  else if c.toNat < 0x20 then hexEscape c
  else [c]

def quote (s : String) : String := String.ofList ('"' :: s.toList.flatMap escape ++ ['"'])

mutual

/-- The text of a value, without blanks. -/
def render : Json → String
  | null => "null"
  | bool true => "true"
  | bool false => "false"
  | nat n => toString n
  | str s => quote s
  | arr items => "[" ++ ",".intercalate (renderItems items) ++ "]"
  | obj members => "\x7b" ++ ",".intercalate (renderMembers members) ++ "\x7d"

def renderItems : List Json → List String
  | [] => []
  | v :: vs => render v :: renderItems vs

def renderMembers : List (String × Json) → List String
  | [] => []
  | (key, v) :: rest => (quote key ++ ":" ++ render v) :: renderMembers rest

end

theorem renderItems_eq_map (vs : List Json) : renderItems vs = vs.map render := by
  induction vs with
  | nil => rfl
  | cons v vs ih => simp [renderItems, ih]

theorem renderMembers_eq_map (ms : List (String × Json)) :
    renderMembers ms = ms.map fun m => quote m.1 ++ ":" ++ render m.2 := by
  induction ms with
  | nil => rfl
  | cons m ms ih => simp [renderMembers, ih]

example : render (.obj [("a\n", .arr [.nat 1, .null]), ("b", .str "\x01é")])
    = "\x7b\"a\\n\":[1,null],\"b\":\"\\u0001é\"\x7d" := by decide +kernel

end Json

end Stepwise
