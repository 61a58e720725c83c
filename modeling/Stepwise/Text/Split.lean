import Stepwise.Text.Blank

/-!
# Splitting text

* `splitWhere p` cuts at every character that satisfies `p`; the pieces, joined by the characters cut out, are the text.
* `words` are the maximal runs of characters that are not blank: none is empty and none holds a blank (`mem_words`).
  Words with blanks between them are read back (`words_intercalate`).
-/

namespace Stepwise.Text

/-- The pieces between the characters that satisfy `p`, empty ones included. -/
def splitWhere (p : Char → Bool) : List Char → List (List Char)
  | [] => [[]]
  | c :: cs =>
    if p c then [] :: splitWhere p cs
    else
      match splitWhere p cs with
      | [] => [[c]]
      | piece :: pieces => (c :: piece) :: pieces

theorem splitWhere_ne_nil (p : Char → Bool) : ∀ cs : List Char, splitWhere p cs ≠ []
  | [] => by simp [splitWhere]
  | c :: cs => by
    unfold splitWhere
    split
    · simp
    · split <;> simp

/-- What stands before a character that is cut out and what stands behind it are split apart. -/
theorem splitWhere_append {p : Char → Bool} {c : Char} (hc : p c = true) (bs : List Char) : ∀ as : List Char,
    splitWhere p (as ++ c :: bs) = splitWhere p as ++ splitWhere p bs
  | [] => by simp [splitWhere, hc]
  | a :: as => by
    have ih := splitWhere_append hc bs as
    simp only [List.cons_append, splitWhere, ih]
    split
    · rfl
    · cases h : splitWhere p as with
      | nil => exact absurd h (splitWhere_ne_nil p as)
      | cons piece pieces => rfl

/-- No piece holds a character that was cut out. -/
theorem not_of_mem_splitWhere (p : Char → Bool) :
    ∀ cs : List Char, ∀ piece ∈ splitWhere p cs, ∀ c ∈ piece, p c = false
  | [] => by simp [splitWhere]
  | c :: cs => by
    have ih := not_of_mem_splitWhere p cs
    unfold splitWhere
    by_cases hc : p c = true
    · simpa [hc] using ih
    · cases h : splitWhere p cs with
      | nil => exact absurd h (splitWhere_ne_nil p cs)
      | cons piece pieces =>
        rw [h] at ih
        simp only [Bool.not_eq_true] at hc
        simp only [hc]
        intro q hq d hd
        rcases List.mem_cons.mp hq with rfl | hq
        · rcases List.mem_cons.mp hd with rfl | hd
          · exact hc
          · exact ih piece List.mem_cons_self d hd
        · exact ih q (List.mem_cons_of_mem _ hq) d hd

/-- The pieces have no other characters than the text. -/
theorem mem_of_mem_splitWhere (p : Char → Bool) :
    ∀ cs : List Char, ∀ piece ∈ splitWhere p cs, ∀ c ∈ piece, c ∈ cs
  | [] => by simp [splitWhere]
  | c :: cs => by
    have ih := mem_of_mem_splitWhere p cs
    unfold splitWhere
    intro q hq d hd
    split at hq
    · rcases List.mem_cons.mp hq with rfl | hq
      · cases hd
      · exact List.mem_cons_of_mem _ (ih q hq d hd)
    · cases h : splitWhere p cs with
      | nil => exact absurd h (splitWhere_ne_nil p cs)
      | cons piece pieces =>
        rw [h] at ih hq
        rcases List.mem_cons.mp hq with rfl | hq
        · rcases List.mem_cons.mp hd with rfl | hd
          · exact List.mem_cons_self
          · exact List.mem_cons_of_mem _ (ih piece List.mem_cons_self d hd)
        · exact List.mem_cons_of_mem _ (ih q (List.mem_cons_of_mem _ hq) d hd)

/-- A text with nothing to cut out is one piece. -/
theorem splitWhere_eq_singleton {p : Char → Bool} : ∀ {cs : List Char}, (∀ c ∈ cs, p c = false) →
    splitWhere p cs = [cs]
  | [], _ => rfl
  | c :: cs, h => by
    rw [List.forall_mem_cons] at h
    simp [splitWhere, h.1, splitWhere_eq_singleton h.2]

/-- The maximal runs of characters that are not blank. -/
def words (cs : List Char) : List (List Char) := (splitWhere isBlank cs).filter (· ≠ [])

theorem mem_words {cs w : List Char} (h : w ∈ words cs) : w ≠ [] ∧ ∀ c ∈ w, isBlank c = false := by
  obtain ⟨hw, hne⟩ := List.mem_filter.mp h
  exact ⟨by simpa using hne, not_of_mem_splitWhere isBlank cs w hw⟩

theorem mem_of_mem_words {cs w : List Char} (h : w ∈ words cs) : ∀ c ∈ w, c ∈ cs :=
  mem_of_mem_splitWhere isBlank cs w (List.mem_filter.mp h).1

/-- A blank belongs to no word and separates those around it. -/
theorem words_append {c : Char} (hc : isBlank c = true) (before after : List Char) :
    words (before ++ c :: after) = words before ++ words after := by
  rw [words, splitWhere_append hc, List.filter_append]
  rfl

theorem words_eq_singleton {w : List Char} (hne : w ≠ []) (h : ∀ c ∈ w, isBlank c = false) : words w = [w] := by
  rw [words, splitWhere_eq_singleton h]
  simp [hne]

/-- Words with blanks between them are read back. -/
theorem words_intercalate {c : Char} (hc : isBlank c = true) : ∀ {ws : List (List Char)},
    (∀ w ∈ ws, w ≠ [] ∧ ∀ c ∈ w, isBlank c = false) → words ([c].intercalate ws) = ws
  | [], _ => rfl
  | [w], h => by
    obtain ⟨hne, hsolid⟩ := h w List.mem_cons_self
    rw [List.intercalate_singleton, words_eq_singleton hne hsolid]
  | w :: v :: ws, h => by
    obtain ⟨hne, hsolid⟩ := h w List.mem_cons_self
    have ih : words ([c].intercalate (v :: ws)) = v :: ws :=
      words_intercalate hc fun u hu => h u (List.mem_cons_of_mem _ hu)
    rw [List.intercalate_cons_cons, List.append_assoc, List.singleton_append, words_append hc, ih,
      words_eq_singleton hne hsolid, List.singleton_append]

/-- The lines of a text, without their line feeds. -/
def lines (cs : List Char) : List (List Char) := splitWhere (· = '\n') cs

end Stepwise.Text
