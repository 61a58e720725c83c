import Mathlib.Data.List.Infix
import Stepwise.Proofs.Declaration

/-!
# Balanced brackets

`Code.parenthesised?` scans a list of tokens with a counter and stops where the counter first returns to zero. What it
finds can be said without a counter: an opening bracket adds one, a closing bracket takes one away (`Token.weight`), and
a list is balanced if no beginning of it has taken away more than it has added, and all of it comes to zero
(`Code.Balanced`).

* The scan below `depth + 1` open brackets and the condition with `depth` open brackets (`Code.BalancedFrom`) take the
  same step at each token (`balancedFrom_cons`), so they agree on the whole list (`closedBy?_eq_some_iff`).
* A scan that refuses to close a bracket when none is open (`Code.strictlyClosedBy?`) never has to refuse
  (`strictlyClosedBy?_succ`).

So **a body is recognised exactly if it is a balanced list between parentheses**
(`recognises_balanced_scopes`).
-/

namespace Stepwise

/-! ## Counting brackets -/

/-- What a token adds to the number of open brackets. -/
def Token.weight (t : Token) : Int := if t.isOpening then 1 else if t.isClosing then -1 else 0

theorem Token.weight_of_isClosing {t : Token} (h : t.isClosing = true) : t.weight = -1 := by
  simp [weight, h, Code.isOpening_eq_false_of_isClosing h]

namespace Code

variable {t : Token} {ts body inside : List Token} {depth : Nat}

/-- The opening brackets less the closing ones. -/
def surplus : List Token → Int
  | [] => 0
  | t :: ts => t.weight + surplus ts

@[simp] theorem surplus_nil : surplus [] = 0 := rfl

@[simp] theorem surplus_cons (t : Token) (ts : List Token) : surplus (t :: ts) = t.weight + surplus ts := rfl

/-- Behind `depth` open brackets, the list closes all of them and all its own, and none that is not open. -/
structure BalancedFrom (depth : Nat) (ts : List Token) : Prop where
  partnered : ∀ front, front <+: ts → 0 ≤ depth + surplus front
  closed : depth + surplus ts = 0

/-- No beginning of the list closes more brackets than it opens, and the whole list closes all that it opens. Round and
square brackets count alike. -/
structure Balanced (ts : List Token) : Prop where
  partnered : ∀ front, front <+: ts → 0 ≤ surplus front
  closed : surplus ts = 0

instance (ts : List Token) : Decidable (Balanced ts) :=
  decidable_of_iff ((∀ front ∈ ts.inits, 0 ≤ surplus front) ∧ surplus ts = 0)
    ⟨fun h => ⟨fun front hfront => h.1 front ((List.mem_inits front ts).mpr hfront), h.2⟩,
      fun h => ⟨fun front hfront => h.partnered front ((List.mem_inits front ts).mp hfront), h.closed⟩⟩

theorem balancedFrom_zero : BalancedFrom 0 ts ↔ Balanced ts := by
  constructor
  · intro h
    exact ⟨fun front hfront => by simpa using h.partnered front hfront, by simpa using h.closed⟩
  · intro h
    exact ⟨fun front hfront => by simpa using h.partnered front hfront, by simpa using h.closed⟩

/-- The counter of the scan is exact as long as it has a bracket to close. -/
theorem cast_depthAfter (h : t.isClosing = true → 0 < depth) : (t.depthAfter depth : Int) = depth + t.weight := by
  unfold Token.depthAfter Token.weight
  split
  · rfl
  · split
    · have := h ‹_›
      omega
    · simp

theorem balancedFrom_nil : BalancedFrom depth [] ↔ depth = 0 := by
  constructor
  · intro h
    simpa using h.closed
  · rintro rfl
    exact ⟨fun front hfront => by simp [List.prefix_nil.mp hfront], rfl⟩

/-- **One token.** It closes no bracket that is not open, and the rest is balanced with the brackets open behind it. -/
theorem balancedFrom_cons :
    BalancedFrom depth (t :: ts) ↔ (t.isClosing = true → 0 < depth) ∧ BalancedFrom (t.depthAfter depth) ts := by
  constructor
  · intro h
    have hguard : t.isClosing = true → 0 < depth := by
      intro hclosing
      have hfirst := h.partnered [t] (by simp)
      rw [surplus_cons, surplus_nil, Token.weight_of_isClosing hclosing] at hfirst
      omega
    refine ⟨hguard, fun front hfront => ?_, ?_⟩
    · have hpartnered := h.partnered (t :: front) (List.cons_prefix_cons.mpr ⟨rfl, hfront⟩)
      rw [surplus_cons] at hpartnered
      rw [cast_depthAfter hguard]
      omega
    · have hclosed := h.closed
      rw [surplus_cons] at hclosed
      rw [cast_depthAfter hguard]
      omega
  · rintro ⟨hguard, hrest⟩
    refine ⟨fun front hfront => ?_, ?_⟩
    · rcases List.prefix_cons_iff.mp hfront with rfl | ⟨front', rfl, hfront'⟩
      · simp
      · have hpartnered := hrest.partnered front' hfront'
        rw [cast_depthAfter hguard] at hpartnered
        rw [surplus_cons]
        omega
    · have hclosed := hrest.closed
      rw [cast_depthAfter hguard] at hclosed
      rw [surplus_cons]
      omega

/-! ## The scan -/

/-- **The scan finds the tokens before the last one exactly if they are balanced and the last one is the parenthesis
that closes the bracket around them.** -/
theorem closedBy?_eq_some_iff : ∀ {depth : Nat} {ts inside : List Token},
    closedBy? (depth + 1) ts = some inside ↔ ts = inside ++ [.rparen] ∧ BalancedFrom depth inside
  | depth, [], inside => by simp [closedBy?]
  | depth, t :: ts, inside => by
    rw [closedBy?_succ_cons]
    by_cases hstops : t.isClosing = true ∧ depth = 0
    · obtain ⟨hclosing, rfl⟩ := hstops
      rw [if_pos ⟨hclosing, rfl⟩]
      cases inside with
      | nil => simp [balancedFrom_nil]
      | cons u inside =>
        -- A balanced list does not begin with a closing bracket.
        have hnot : ¬(t :: ts = u :: inside ++ [.rparen] ∧ BalancedFrom 0 (u :: inside)) := by
          rintro ⟨hts, hbalanced⟩
          obtain rfl : t = u := (List.cons.inj hts).1
          exact absurd ((balancedFrom_cons.mp hbalanced).1 hclosing) (Nat.lt_irrefl 0)
        simp only [hnot, iff_false]
        split <;> simp
    · have hguard : t.isClosing = true → 0 < depth :=
        fun hclosing => Nat.pos_of_ne_zero fun hzero => hstops ⟨hclosing, hzero⟩
      rw [if_neg hstops, Option.map_eq_some_iff]
      simp only [closedBy?_eq_some_iff]
      constructor
      · rintro ⟨rest, ⟨rfl, hrest⟩, rfl⟩
        exact ⟨rfl, balancedFrom_cons.mpr ⟨hguard, hrest⟩⟩
      · rintro ⟨hts, hbalanced⟩
        cases inside with
        | nil =>
          -- The only token is a parenthesis, which would leave a bracket open.
          obtain rfl : t = .rparen := (List.cons.inj hts).1
          exact absurd (hguard rfl) (by simp [balancedFrom_nil.mp hbalanced])
        | cons u rest =>
          obtain ⟨rfl, rfl⟩ := List.cons.inj hts
          exact ⟨rest, ⟨rfl, (balancedFrom_cons.mp hbalanced).2⟩, rfl⟩

/-! ## Counting without a floor -/

/-- The number of open brackets after a token; `none` if the token closes a bracket and none is open. -/
def strictDepthAfter? (t : Token) (depth : Nat) : Option Nat :=
  if t.isClosing = true ∧ depth = 0 then none else some (t.depthAfter depth)

/-- The scan `closedBy?` with a counter that is never kept at zero: the outer `none` says that a closing bracket came
when none was open. -/
def strictlyClosedBy? : Nat → List Token → Option (Option (List Token))
  | _, [] => some none
  | depth, t :: ts =>
    match strictDepthAfter? t depth with
    | none => none
    | some after =>
      if t.isClosing = true ∧ after = 0 then some (if t = .rparen ∧ ts = [] then some [] else none)
      else (strictlyClosedBy? after ts).map fun inside => inside.map (t :: ·)

/-- The recognition of a parenthesised body, from its first token on, with that counter. -/
def strictlyParenthesised? (body : List Token) : Option (Option (List Token)) :=
  if body.head? = some .lparen then (strictlyClosedBy? 0 body).map fun inside => inside.map List.tail else some none

/-- While a bracket is open, the counter is not kept at zero: the scan stops before. -/
theorem strictlyClosedBy?_succ : ∀ (depth : Nat) (ts : List Token),
    strictlyClosedBy? (depth + 1) ts = some (closedBy? (depth + 1) ts)
  | _, [] => rfl
  | depth, t :: ts => by
    have hcount : strictDepthAfter? t (depth + 1) = some (t.depthAfter (depth + 1)) := by simp [strictDepthAfter?]
    simp only [strictlyClosedBy?, hcount, closedBy?_succ_cons, stops_iff]
    split
    · rfl
    · rename_i hgoesOn
      rw [depthAfter_succ fun hclosing => Nat.pos_of_ne_zero fun hzero => hgoesOn ⟨hclosing, hzero⟩,
        strictlyClosedBy?_succ]
      rfl

theorem strictlyParenthesised?_eq (body : List Token) : strictlyParenthesised? body = some (parenthesised? body) := by
  unfold strictlyParenthesised? parenthesised?
  split
  · rename_i hfirst
    obtain ⟨ts, rfl⟩ := List.head?_eq_some_iff.mp hfirst
    have hopens : strictDepthAfter? .lparen 0 = some 1 := rfl
    simp only [strictlyClosedBy?, hopens, strictlyClosedBy?_succ 0 ts, Token.isClosing]
    cases closedBy? 1 ts <;> simp
  · rename_i hfirst
    split
    · simp at hfirst
    · rfl

/-! ## Parenthesised bodies -/

theorem parenthesised?_eq_some_iff :
    parenthesised? body = some inside ↔ body = .lparen :: (inside ++ [.rparen]) ∧ Balanced inside := by
  rw [← balancedFrom_zero]
  constructor
  · intro h
    unfold parenthesised? at h
    split at h
    · obtain ⟨rfl, hbalanced⟩ := closedBy?_eq_some_iff.mp h
      exact ⟨rfl, hbalanced⟩
    · cases h
  · rintro ⟨rfl, hbalanced⟩
    exact closedBy?_eq_some_iff.mpr ⟨rfl, hbalanced⟩

/-- **A body is recognised as a parenthesised scope exactly if it is a balanced list between parentheses**, and then
that list is its inside; the counter of the scan is never kept at zero by a closing bracket without a partner. -/
theorem recognises_balanced_scopes (body : List Token) :
    (∀ inside, parenthesised? body = some inside ↔ body = .lparen :: (inside ++ [.rparen]) ∧ Balanced inside) ∧
    (parenthesised? body = none ↔ ¬∃ inside, body = .lparen :: (inside ++ [.rparen]) ∧ Balanced inside) ∧
    strictlyParenthesised? body = some (parenthesised? body) := by
  refine ⟨fun inside => parenthesised?_eq_some_iff, ?_, strictlyParenthesised?_eq body⟩
  simp only [← parenthesised?_eq_some_iff, ← Option.isSome_iff_exists, Option.not_isSome_iff_eq_none]

/-- The kinds of brackets are not told apart. -/
example : parenthesised? [.lparen, .lbrack, .rparen, .rparen] = some [.lbrack, .rparen] := by decide

/-- Two scopes one after the other are not one scope. -/
example : parenthesised? [.lparen, .type, .rparen, .lparen, .type, .rparen] = none := by decide

end Code

end Stepwise
