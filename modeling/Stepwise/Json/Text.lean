import Stepwise.Json.Reader

/-!
# Quoted texts

A text runs from a quote to the next quote that is not escaped. `Reader.text` decodes it: the bytes have to be UTF-8,
and escaped surrogates have to come in pairs. `Reader.skippedText` only finds its end, and is content with any bytes
and any four hexadecimal digits.
-/

namespace Stepwise.Json.Reader

/-- The value of a hexadecimal digit. -/
def hexDigit? (b : UInt8) : Option Nat :=
  let c := Char.ofUInt8 b
  if c.isDigit then some (c.toNat - '0'.toNat)
  else if 'a' ≤ c ∧ c ≤ 'f' then some (c.toNat - 'a'.toNat + 10)
  else if 'A' ≤ c ∧ c ≤ 'F' then some (c.toNat - 'A'.toNat + 10)
  else none

/-- Four hexadecimal digits; all four are taken before any is judged. -/
def hex4 : Reader Nat
  | a :: b :: c :: d :: s =>
    match hexDigit? a, hexDigit? b, hexDigit? c, hexDigit? d with
    | some a, some b, some c, some d =>
      .ok ⟨((a * 16 + b) * 16 + c) * 16 + d, s, by simp only [List.length_cons]; omega⟩
    | _, _, _, _ => .error .malformed
  | _ => .error .ended

/-- Whether a 16-bit unit is the first half of a pair. -/
def isLeading (n : Nat) : Bool := 0xD800 ≤ n && n ≤ 0xDBFF

/-- Whether a 16-bit unit is the second half of a pair. -/
def isTrailing (n : Nat) : Bool := 0xDC00 ≤ n && n ≤ 0xDFFF

def utf8 (codePoint : Nat) : List UInt8 := String.utf8EncodeChar (Char.ofNat codePoint)

/-- The second half of a pair, as an escape of its own. -/
def trailing : Reader Nat :=
  (word '\\' ['u']).andThen fun _ => hex4.check fun n => if isTrailing n then .ok n else .error .malformed

/-- What follows a backslash and a `u`: the code of a character, or the first of two escapes that form a pair. -/
def pairedUnit : Reader (List UInt8) := fun s =>
  match hex4 s with
  | .error d => .error d
  | .ok n =>
    if isTrailing n.value then .error .malformed
    else if isLeading n.value then
      match trailing n.rest with
      | .error d => .error d
      | .ok m =>
        .ok ⟨utf8 (0x10000 + (n.value - 0xD800) * 0x400 + (m.value - 0xDC00)), m.rest,
          Nat.lt_trans m.shorter n.shorter⟩
    else .ok ⟨utf8 n.value, n.rest, n.shorter⟩

/-- What follows a backslash, where `codeUnit` reads what follows a `u`. -/
def escape (codeUnit : Reader (List UInt8)) : Reader (List UInt8) :=
  peek fun c =>
    if c = 'u' then (exactly 'u').andThen fun _ => codeUnit
    else
      byte fun
        | '"' => .ok [0x22]
        | '\\' => .ok [0x5C]
        | '/' => .ok [0x2F]
        | 'b' => .ok [0x08]
        | 'f' => .ok [0x0C]
        | 'n' => .ok [0x0A]
        | 'r' => .ok [0x0D]
        | 't' => .ok [0x09]
        | _ => .error .malformed

/-- The bytes up to the closing quote, which is used up too, with escapes resolved. -/
def contents (codeUnit : Reader (List UInt8)) (s : List UInt8) : Except Defect (Read (List UInt8) s) :=
  match s with
  | [] => .error .ended
  | b :: t =>
    if b = 0x22 then .ok ⟨[], t, Nat.lt_succ_self _⟩
    else if b = 0x5C then
      match escape codeUnit t with
      | .error d => .error d
      | .ok e =>
        match contents codeUnit e.rest with
        | .error d => .error d
        | .ok r => .ok ⟨e.value ++ r.value, r.rest, Nat.lt_trans r.shorter (Nat.lt_succ_of_lt e.shorter)⟩
    else if b < 0x20 then .error .malformed
    else
      match contents codeUnit t with
      | .error d => .error d
      | .ok r => .ok ⟨b :: r.value, r.rest, Nat.lt_succ_of_lt r.shorter⟩
termination_by s.length
decreasing_by
  · exact Nat.lt_succ_of_lt e.shorter
  · exact Nat.lt_succ_self _

/-- A quoted text. -/
def text : Reader String :=
  (exactly '"').andThen fun _ => check (contents pairedUnit) fun bytes =>
    match String.fromUTF8? bytes.toByteArray with
    | some s => .ok s
    | none => .error .malformed

/-- A quoted text, only to be passed over. -/
def skippedText : Reader Unit :=
  (exactly '"').andThen fun _ => map (fun _ => ()) (contents (hex4.map fun _ => []))

end Stepwise.Json.Reader
