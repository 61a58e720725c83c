import Stepwise.Address
import Stepwise.Json.Reader

/-!
# Numerals

A numeral is a number as it is written. It stands for a natural number if it has neither sign nor fraction nor
exponent and fits a machine word (`Numeral.natural?`). Every other numeral stands for a binary floating-point number
of double precision, and is refused if it is too large for one (`Numeral.inRange`): what counts is the product of its
first digits, as many as fit a machine word, with a power of ten, both rounded to 53 bits.
-/

namespace Stepwise.Json

structure Numeral where
  negative : Bool
  /-- The digits before the point, most significant first. -/
  whole : List Nat
  /-- The digits after the point; none without a point. -/
  fraction : List Nat := []
  exponent : Option Int := none
  deriving DecidableEq, Repr, Inhabited

/-- The number with the given decimal digits after those of `n`. -/
def appendDigits (n : Nat) (digits : List Nat) : Nat := digits.foldl (fun n d => 10 * n + d) n

/-- Rounds to 53 significant bits, a tie to the even neighbour. -/
def round53 (n : Nat) : Nat :=
  if n < Nat.pow 2 53 then n
  else
    let unit := Nat.pow 2 (n.log2 - 52)
    let q := n / unit
    let r := n % unit
    (if unit < 2 * r ∨ (unit = 2 * r ∧ q % 2 = 1) then q + 1 else q) * unit

/-- The least number that rounds beyond all floating-point numbers: the largest is `2 ^ 1024 - 2 ^ 971`. -/
def doubleLimit : Nat := Nat.pow 2 1024 - Nat.pow 2 970

namespace Numeral

/-- Appends digits for as long as the number fits a machine word; also the number of digits left over. -/
def absorb (n : Nat) : List Nat → Nat × Nat
  | [] => (n, 0)
  | d :: ds => if 10 * n + d ≤ maxWord then absorb (10 * n + d) ds else (n, ds.length + 1)

/-- The leading digits as a machine word, and the power of ten that goes with them. -/
def parts (x : Numeral) : Nat × Int :=
  let (n, left) := absorb 0 x.whole
  let (n', left') := absorb n x.fraction
  (n', left - (x.fraction.length - left' : Nat) + x.exponent.getD 0)

/-- Whether a floating-point number can hold it. -/
def inRange (x : Numeral) : Bool :=
  let (n, e) := x.parts
  n = 0 || e < 0 || (e ≤ 308 && round53 n * round53 (Nat.pow 10 e.toNat) < doubleLimit)

/-- The natural number that it stands for. -/
def natural? (x : Numeral) : Option Nat :=
  let n := appendDigits 0 x.whole
  if x.negative = false ∧ x.fraction = [] ∧ x.exponent = none ∧ n ≤ maxWord then some n else none

end Numeral

namespace Reader

def isDigit (b : UInt8) : Bool := 0x30 ≤ b && b ≤ 0x39

/-- One digit or more. -/
def digits : Reader (List Nat)
  | [] => .error .ended
  | b :: s =>
    if isDigit b then
      .ok ⟨(b :: s.takeWhile isDigit).map fun b => b.toNat - 0x30, s.dropWhile isDigit,
        Nat.lt_succ_of_le (length_dropWhile_le isDigit s)⟩
    else .error .malformed

/-- The digits before the point: no zero stands before another digit. -/
def whole : Reader (List Nat) :=
  digits.check fun ds => if ds.head? = some 0 ∧ ds ≠ [0] then .error .malformed else .ok ds

/-- A point and the digits after it. -/
def fraction : Reader (List Nat) := (exactly '.').andThen fun _ => digits

/-- The exponent after its mark. -/
def signedDigits : Reader Int :=
  peek fun
    | '-' => (exactly '-').andThen fun _ => digits.map fun ds => -(appendDigits 0 ds : Int)
    | '+' => (exactly '+').andThen fun _ => digits.map fun ds => (appendDigits 0 ds : Int)
    | _ => digits.map fun ds => (appendDigits 0 ds : Int)

def exponent : Reader Int :=
  (byte fun _ => .ok ()).andThen fun _ => signedDigits

def isExponentMark (c : Char) : Bool := c = 'e' || c = 'E'

def unsigned (negative : Bool) : Reader Numeral :=
  let integer : Reader Numeral := whole.map fun ds => { negative, whole := ds }
  let decimal := integer.optionally (· = '.') fun x => fraction.map fun ds => { x with fraction := ds }
  decimal.optionally isExponentMark fun x => exponent.map fun e => { x with exponent := some e }

def numeral : Reader Numeral :=
  peek fun
    | '-' => (exactly '-').andThen fun _ => unsigned true
    | _ => unsigned false

/-- A number, and the natural number that it is, if it is one. -/
def number : Reader (Option Nat) :=
  numeral.check fun x => if x.inRange then .ok x.natural? else .error .malformed

/-- A number, only to be passed over: its size does not matter, and one that breaks off is malformed. -/
def skippedNumber : Reader Unit := (numeral.map fun _ => ()).strict

end Reader

end Stepwise.Json
