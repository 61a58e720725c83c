import Stepwise.Code

/-!
# The tokens of a declaration

Executed from its start, a list of tokens takes some of them as names: each one that follows a colon which is not itself
a name (`Code.namesRead`). `Code.readsAfter` tells whether the list ends before the name that its last colon asks for.

The code of a declaration keeps a part of it: `dropName_cases` and `eq_of_parenthesised?` say which. A declaration may
be complete while the part kept of it is not (`Code.CutsName`): then the name that its last colon asks for was dropped.
-/

namespace Stepwise

namespace Code

/-! ## Tokens read as names -/

/-- Whether the token after the list is read as a name, if the first one of the list is (`reading`) or is not. -/
def readsAfter : Bool → List Token → Bool
  | reading, [] => reading
  | reading, t :: ts => readsAfter (!reading && decide (t = .colon)) ts

/-- The tokens of the list that are read as names, if the first one is (`reading`) or is not. -/
def namesRead : Bool → List Token → List Token
  | _, [] => []
  | reading, t :: ts => (if reading then [t] else []) ++ namesRead (!reading && decide (t = .colon)) ts

/-- What the code keeps of the declaration ends before the name that its last colon asks for, though the whole
declaration does not. -/
def CutsName (declaration : List Token) : Prop :=
  readsAfter false declaration = false ∧ readsAfter false (body declaration) = true

instance (declaration : List Token) : Decidable (CutsName declaration) :=
  inferInstanceAs (Decidable (_ ∧ _))

theorem readsAfter_append : ∀ (reading : Bool) (xs ys : List Token),
    readsAfter reading (xs ++ ys) = readsAfter (readsAfter reading xs) ys
  | _, [], _ => rfl
  | _, _ :: xs, ys => readsAfter_append _ xs ys

theorem readsAfter_concat (reading : Bool) (ts : List Token) (t : Token) :
    readsAfter reading (ts ++ [t]) = (!readsAfter reading ts && decide (t = .colon)) := by
  rw [readsAfter_append]
  rfl

theorem namesRead_append : ∀ (reading : Bool) (ts us : List Token),
    namesRead reading (ts ++ us) = namesRead reading ts ++ namesRead (readsAfter reading ts) us
  | _, [], _ => rfl
  | reading, t :: ts, us => by
    rw [List.cons_append, namesRead, namesRead_append, namesRead, List.append_assoc]
    rfl

/-- One more bracket around a list is counted throughout, unless it is closed. -/
theorem depthAfter_succ {t : Token} {depth : Nat} (h : t.isClosing = true → 0 < depth) :
    t.depthAfter (depth + 1) = t.depthAfter depth + 1 := by
  unfold Token.depthAfter
  split
  · rfl
  · split
    · have := h ‹_›
      omega
    · rfl

theorem isOpening_eq_false_of_isClosing {t : Token} (h : t.isClosing = true) : t.isOpening = false := by
  cases t <;> simp_all [Token.isOpening, Token.isClosing]

/-- At the bracket that closes the last open one the scan stops, and at no other token. -/
theorem stops_iff {t : Token} {depth : Nat} : (t.isClosing = true ∧ t.depthAfter (depth + 1) = 0) ↔ t.isClosing = true ∧ depth = 0 := by
  refine and_congr_right fun hclosing => ?_
  simp [Token.depthAfter, hclosing, isOpening_eq_false_of_isClosing hclosing]

theorem closedBy?_succ_cons (depth : Nat) (t : Token) (ts : List Token) :
    closedBy? (depth + 1) (t :: ts) =
      if t.isClosing = true ∧ depth = 0 then (if t = .rparen ∧ ts = [] then some [] else none)
      else (closedBy? (t.depthAfter depth + 1) ts).map (t :: ·) := by
  rw [closedBy?]
  simp only [stops_iff]
  split
  · rfl
  · rename_i hgoesOn
    rw [depthAfter_succ fun hclosing => Nat.pos_of_ne_zero fun hzero => hgoesOn ⟨hclosing, hzero⟩]

/-- Replacing the arrows outside all brackets moves no name. -/
theorem readsAfter_grabParameters : ∀ (reading : Bool) (depth : Nat) (ts : List Token),
    readsAfter reading (grabParameters depth ts) = readsAfter reading ts
  | _, _, [] => rfl
  | reading, depth, t :: ts => by
    simp only [grabParameters, readsAfter]
    split
    · rename_i harrow
      rw [harrow.1]
      exact readsAfter_grabParameters _ _ ts
    · exact readsAfter_grabParameters _ _ ts

theorem grabParameters_cons_cases (depth : Nat) (t : Token) (ts : List Token) :
    (t = .arrow ∧ depth = 0 ∧ grabParameters depth (t :: ts) = .grab :: grabParameters (t.depthAfter depth) ts) ∨
      grabParameters depth (t :: ts) = t :: grabParameters (t.depthAfter depth) ts := by
  by_cases h : t = .arrow ∧ t.depthAfter depth = 0
  · exact .inl ⟨h.1, by simpa [h.1, Token.depthAfter, Token.isOpening, Token.isClosing] using h.2,
      by rw [grabParameters, if_pos h]⟩
  · exact .inr (by rw [grabParameters, if_neg h])

/-! ## What the code keeps -/

/-- A colon and a name at the end are dropped, and nothing else is. -/
theorem dropName_cases (ts : List Token) :
    (∃ x, ts = dropName ts ++ [.colon, x]) ∨ dropName ts = ts := by
  unfold dropName
  split
  · rename_i x rest hrev
    refine .inl ⟨x, ?_⟩
    rw [← List.reverse_reverse ts, hrev]
    simp
  · exact .inr rfl

theorem eq_of_closedBy? : ∀ {depth : Nat} {ts inside : List Token}, closedBy? depth ts = some inside →
    ts = inside ++ [.rparen]
  | _, [], _, h => by simp [closedBy?] at h
  | depth, t :: ts, inside, h => by
    simp only [closedBy?] at h
    split at h
    · split at h
      · rename_i hlast
        cases h
        simp [hlast.1, hlast.2]
      · cases h
    · obtain ⟨rest, hrest, rfl⟩ := Option.map_eq_some_iff.mp h
      rw [eq_of_closedBy? hrest]
      rfl

/-- A parenthesised body is its inside between parentheses. -/
theorem eq_of_parenthesised? {ts inside : List Token} (h : parenthesised? ts = some inside) :
    ts = .lparen :: (inside ++ [.rparen]) := by
  unfold parenthesised? at h
  split at h
  · rw [eq_of_closedBy? h]
  · cases h

/-- What may stand at the end of a body: a colon and a name, or nothing. -/
def NameAtEnd (ts : List Token) : Prop := ts = [] ∨ ∃ x, ts = [.colon, x]

theorem exists_nameAtEnd (ts : List Token) : ∃ name, NameAtEnd name ∧ ts = dropName ts ++ name := by
  rcases dropName_cases ts with ⟨x, hx⟩ | hsame
  · exact ⟨_, .inr ⟨x, rfl⟩, hx⟩
  · exact ⟨[], .inl rfl, by simp [hsame]⟩

/-- A declaration is its body, or its body between parentheses, with a name at the end; there may be a name at the end
inside the parentheses too. -/
theorem body_cases (ts : List Token) :
    (∃ name, NameAtEnd name ∧ ts = body ts ++ name) ∨
      ∃ inner outer, NameAtEnd inner ∧ NameAtEnd outer ∧ ts = .lparen :: (body ts ++ (inner ++ .rparen :: outer)) := by
  obtain ⟨outer, houter, hts⟩ := exists_nameAtEnd ts
  unfold body
  simp only
  split
  · rename_i inside hinside
    obtain ⟨inner, hinner, hbody⟩ := exists_nameAtEnd inside
    refine .inr ⟨inner, outer, hinner, houter, ?_⟩
    rw [eq_of_parenthesised? hinside] at hts
    rw [← List.append_assoc, ← hbody, hts]
    simp
  · exact .inl ⟨outer, houter, hts⟩

theorem length_body_le (ts : List Token) : (body ts).length ≤ ts.length := by
  rcases body_cases ts with ⟨name, _, hts⟩ | ⟨inner, outer, _, _, hts⟩
  · have hlength := congrArg List.length hts
    rw [List.length_append] at hlength
    omega
  · have hlength := congrArg List.length hts
    rw [List.length_cons, List.length_append] at hlength
    omega

end Code

end Stepwise
