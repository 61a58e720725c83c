import Stepwise.Address
import Stepwise.Expr.Basic

/-!
# Signatures

A signature lists the constants declared so far, oldest first. A name refers to the newest constant that has it
(`Signature.newest?`), which is at the index returned (`getElem?_of_newest?`).
-/

namespace Stepwise

/-- A declared constant. -/
structure Constant where
  name : Name
  type : Expr
  /-- The span of the declaration in the token stream, its dot included. -/
  program : Span
  /-- What a call of the constant runs. -/
  code : List Token
  deriving DecidableEq, Repr, Inhabited

/-- The constants declared so far, oldest first. -/
abbrev Signature := List Constant

namespace Signature

/-- The newest constant with a name, with its index. -/
def newest? (name : Name) : Signature → Option (Nat × Constant)
  | [] => none
  | c :: cs =>
    match newest? name cs with
    | some (index, newer) => some (index + 1, newer)
    | none => if c.name = name then some (0, c) else none

theorem getElem?_of_newest? {name : Name} : ∀ {cs : Signature} {index : Nat} {c : Constant},
    newest? name cs = some (index, c) → cs[index]? = some c ∧ c.name = name
  | [], _, _, h => by simp [newest?] at h
  | d :: cs, index, c, h => by
    simp only [newest?] at h
    split at h
    · rename_i i newer hnewer
      simp only [Option.some.injEq, Prod.mk.injEq] at h
      obtain ⟨rfl, rfl⟩ := h
      simpa using getElem?_of_newest? hnewer
    · split at h
      · simp only [Option.some.injEq, Prod.mk.injEq] at h
        obtain ⟨rfl, rfl⟩ := h
        simpa using ‹d.name = name›
      · cases h

theorem newest?_eq_none_iff {name : Name} : ∀ {cs : Signature}, newest? name cs = none ↔ ∀ c ∈ cs, c.name ≠ name
  | [] => by simp [newest?]
  | d :: cs => by
    simp only [newest?]
    split
    · rename_i i newer hnewer
      have hmem := getElem?_of_newest? hnewer
      have : newer ∈ cs := List.mem_of_getElem? hmem.1
      simp only [reduceCtorEq, List.mem_cons, forall_eq_or_imp, false_iff, not_and]
      exact fun _ hall => hall newer this hmem.2
    · rename_i hnone
      have ih := newest?_eq_none_iff.mp hnone
      simpa using fun _ => ih

end Signature

end Stepwise
