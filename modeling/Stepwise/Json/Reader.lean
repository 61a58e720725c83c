/-!
# Reading JSON from bytes

A reader takes a value from the front of a list of bytes and gives back what follows, with the proof that this is
shorter: every reader uses up at least one byte, so a loop of readers ends. Bytes are read strictly from left to
right, and the first defect is the one reported.
-/

namespace Stepwise.Json

/-- Why bytes cannot be read. -/
inductive Defect where
  /-- They end too early. -/
  | ended
  /-- They are no JSON text. -/
  | malformed
  /-- They hold a value of another type, a member twice, or too few elements. -/
  | mistyped
  deriving DecidableEq, Repr, Inhabited

/-- A value read from the front of `s`. -/
structure Read (α : Type) (s : List UInt8) where
  value : α
  rest : List UInt8
  shorter : rest.length < s.length

def Reader (α : Type) : Type := (s : List UInt8) → Except Defect (Read α s)

/-- The same value, read from a longer list of bytes. -/
def Read.widen {α : Type} {s t : List UInt8} (r : Read α s) (h : s.length ≤ t.length) : Read α t :=
  ⟨r.value, r.rest, Nat.lt_of_lt_of_le r.shorter h⟩

namespace Reader

variable {α β : Type}

def fail (d : Defect) : Reader α := fun _ => .error d

def map (f : α → β) (r : Reader α) : Reader β := fun s =>
  match r s with
  | .error d => .error d
  | .ok a => .ok ⟨f a.value, a.rest, a.shorter⟩

/-- One reader, and then one that depends on its value. -/
def andThen (r : Reader α) (f : α → Reader β) : Reader β := fun s =>
  match r s with
  | .error d => .error d
  | .ok a =>
    match f a.value a.rest with
    | .error d => .error d
    | .ok b => .ok (b.widen (Nat.le_of_lt a.shorter))

/-- Puts the value through a test. -/
def check (r : Reader α) (f : α → Except Defect β) : Reader β := fun s =>
  match r s with
  | .error d => .error d
  | .ok a =>
    match f a.value with
    | .error d => .error d
    | .ok b => .ok ⟨b, a.rest, a.shorter⟩

/-- One reader, and then another if the byte that follows starts what it reads. -/
def optionally (r : Reader α) (starts : Char → Bool) (more : α → Reader α) : Reader α := fun s =>
  match r s with
  | .error d => .error d
  | .ok a =>
    if (a.rest.head?.map fun b => starts (Char.ofUInt8 b)) = some true then
      match more a.value a.rest with
      | .error d => .error d
      | .ok b => .ok (b.widen (Nat.le_of_lt a.shorter))
    else .ok a

/-- Reads a value only to refuse it. -/
def refuse (r : Reader α) : Reader β := fun s =>
  match r s with
  | .error d => .error d
  | .ok _ => .error .mistyped

/-- Takes every defect for malformed text. -/
def strict (r : Reader α) : Reader α := fun s =>
  match r s with
  | .error _ => .error .malformed
  | .ok a => .ok a

/-- The next byte, read as the character of that code: the value that `f` gives it, or a defect. -/
def byte (f : Char → Except Defect α) : Reader α
  | [] => .error .ended
  | b :: s =>
    match f (Char.ofUInt8 b) with
    | .error d => .error d
    | .ok a => .ok ⟨a, s, Nat.lt_succ_self _⟩

/-- The byte of an ASCII character. -/
def exactly (c : Char) : Reader Unit := byte fun d => if d = c then .ok () else .error .malformed

/-- A word of ASCII characters, given by its first one and the others. -/
def word : Char → List Char → Reader Unit
  | c, [] => exactly c
  | c, d :: cs => (exactly c).andThen fun _ => word d cs

/-- The blanks of JSON: space, line feed, tab and carriage return. -/
def isBlank (b : UInt8) : Bool := b = 0x20 || b = 0x0A || b = 0x09 || b = 0x0D

theorem length_dropWhile_le {γ : Type} (p : γ → Bool) (s : List γ) : (s.dropWhile p).length ≤ s.length :=
  (List.dropWhile_suffix p).length_le

/-- Reads after skipping blanks. -/
def token (r : Reader α) : Reader α := fun s =>
  match r (s.dropWhile isBlank) with
  | .error d => .error d
  | .ok a => .ok (a.widen (length_dropWhile_le isBlank s))

/-- Chooses a reader by the next byte, and leaves that byte for it to read. -/
def peek (choose : Char → Reader α) : Reader α
  | [] => .error .ended
  | b :: s => choose (Char.ofUInt8 b) (b :: s)

end Reader

end Stepwise.Json
