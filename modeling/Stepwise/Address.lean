/-!
# Addresses and spans

An address says where the next instruction comes from: an index into the token stream, or an offset into the code of a
constant. Its counters are machine words, so the address after the last word does not exist
(`Address.next?_eq_none_iff`).
-/

namespace Stepwise

/-- The largest machine word, of 64 bits. -/
def maxWord : Nat := 0xFFFFFFFFFFFFFFFF

/-- Where an instruction comes from. -/
inductive Address where
  /-- An index into the token stream. -/
  | stream (index : Nat)
  /-- An offset into the code of the constant at index `entry` of the signature. -/
  | code (entry offset : Nat)
  deriving DecidableEq, Repr, Inhabited

namespace Address

/-- The counter that moves from one instruction to the next. -/
def counter : Address → Nat
  | stream index => index
  | code _ offset => offset

/-- The address of the following instruction, unless its counter would leave the machine words. -/
def next? (a : Address) : Option Address :=
  if a.counter < maxWord then
    match a with
    | stream index => some (stream (index + 1))
    | code entry offset => some (code entry (offset + 1))
  else none

/-- The index of an address into the token stream. -/
def streamIndex? : Address → Option Nat
  | stream index => some index
  | code _ _ => none

/-- Whether the address lies in the code of a constant. -/
def inCode : Address → Bool
  | stream _ => false
  | code _ _ => true

def text : Address → String
  | stream index => toString index
  | code entry offset => "sig[" ++ toString entry ++ "]:" ++ toString offset

theorem next?_eq_none_iff (a : Address) : a.next? = none ↔ maxWord ≤ a.counter := by
  unfold next?
  split
  · cases a <;> simp_all
  · simp_all

end Address

/-- The indices of the token stream from `first` to `last`, both included. -/
structure Span where
  first : Nat
  last : Nat
  deriving DecidableEq, Repr, Inhabited

namespace Span

instance : Membership Nat Span := ⟨fun r index => r.first ≤ index ∧ index ≤ r.last⟩

instance (index : Nat) (r : Span) : Decidable (index ∈ r) :=
  inferInstanceAs (Decidable (r.first ≤ index ∧ index ≤ r.last))

theorem mem_def {index : Nat} {r : Span} : index ∈ r ↔ r.first ≤ index ∧ index ≤ r.last := Iff.rfl

end Span

end Stepwise
