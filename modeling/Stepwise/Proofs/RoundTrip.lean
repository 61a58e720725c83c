import Mathlib.Data.List.TakeWhile
import Stepwise.Display
import Stepwise.Proofs.Contents

/-!
# Printed sources are read back

A source that was read from a text is regular (`Source.Regular`): its stream is made of its lines, none of them is
empty, the last token is `eof`, and every token can be written (`Token.Writable`). Conversely a regular source, printed
line by line, is read back (`Source.Regular.ofText_print`): a printed line has no line feed and no comment, and its
words are the texts of its tokens (`Source.groups_code`). So what was read from a text, printed and read again, is the
same source (`Source.print_reads_back`).
-/

namespace Stepwise

/-! ## Tokens that can be written -/

namespace Token

/-- The texts that are read as keywords. -/
def spellings : List String := "→" :: keywords.map text

/-- The token can be written in a source. `grab` and `ret` have no spelling; an identifier is not empty, holds neither a
blank nor the sign that begins a comment, and is not spelled like a keyword. -/
def Writable : Token → Prop
  | grab | ret => False
  | id name => name ≠ "" ∧ (∀ c ∈ name.toList, Text.isBlank c = false ∧ c ≠ '#') ∧ name ∉ spellings
  | _ => True

instance : DecidablePred Writable
  | grab | ret => isFalse not_false
  | id name =>
    have : Decidable (∀ c ∈ name.toList, Text.isBlank c = false ∧ c ≠ '#') := List.decidableBAll _ _
    inferInstanceAs (Decidable (_ ∧ _))
  | type | arrow | colon | lparen | rparen | lbrack | rbrack | dot | eof => isTrue trivial

theorem ofAtom_eq_id_iff {name : Name} : ofAtom name = id name ↔ name ∉ spellings := by
  constructor
  · have hspellings : ∀ spelling ∈ spellings, ofAtom spelling ≠ id spelling := by decide
    exact fun h hmem => hspellings name hmem h
  · intro h
    unfold ofAtom
    split
    case h_11 => rfl
    all_goals exact absurd (by decide) h

theorem Writable.mem_keywords_or_id {t : Token} (h : t.Writable) : t ∈ keywords ∨ ∃ name, t = id name := by
  cases t <;> simp_all [keywords, Writable]

/-- A token that can be written is read back. -/
theorem Writable.ofAtom_text {t : Token} (h : t.Writable) : ofAtom t.text = t := by
  rcases h.mem_keywords_or_id with hkeyword | ⟨name, rfl⟩
  · exact Token.ofAtom_text t hkeyword
  · exact ofAtom_eq_id_iff.mpr h.2.2

/-- Its text is one word of a line, and no comment begins in it. -/
theorem Writable.text_solid {t : Token} (h : t.Writable) :
    t.text.toList ≠ [] ∧ ∀ c ∈ t.text.toList, Text.isBlank c = false ∧ c ≠ '#' := by
  have hkeywords : ∀ t ∈ keywords, t.text.toList ≠ [] ∧
      t.text.toList.all (fun c => !Text.isBlank c && c ≠ '#') = true := by decide
  rcases h.mem_keywords_or_id with hkeyword | ⟨name, rfl⟩
  · obtain ⟨hne, hall⟩ := hkeywords t hkeyword
    exact ⟨hne, fun c hc => by simpa using List.all_eq_true.mp hall c hc⟩
  · exact ⟨fun hnil => h.1 (String.toList_inj.mp hnil), h.2.1⟩

end Token

namespace Source

variable {text : String} {tok : Token} {line : List Token} {p : Source}

/-! ## What is read -/

/-- A source as it is read from a text. -/
structure Regular (p : Source) : Prop where
  tokens : p.lines.flatten = p.tokens
  lines : ∀ line ∈ p.lines, line ≠ []
  last : p.tokens.getLast? = some .eof
  writable : ∀ t ∈ p.tokens, t.Writable

theorem writable_of_mem (h : tok ∈ (ofText text).tokens) : tok.Writable := by
  cases tok with
  | grab => exact not_mem_of_unspelled (.inl rfl) h
  | ret => exact not_mem_of_unspelled (.inr rfl) h
  | id name =>
    obtain ⟨line, word, hword, hatom⟩ := exists_word_of_mem h (by simp)
    obtain rfl := Token.eq_of_ofAtom_eq_id hatom
    obtain ⟨hne, hsolid⟩ := Text.mem_words hword
    refine ⟨fun hempty => hne (String.ofList_eq_empty_iff.mp hempty), ?_, Token.ofAtom_eq_id_iff.mp hatom⟩
    intro c hc
    rw [String.toList_ofList] at hc
    -- The words of a line stand before its comment.
    have hbefore := List.mem_takeWhile_imp (Text.mem_of_mem_words hword c hc)
    exact ⟨hsolid c hc, by simpa using hbefore⟩
  | _ => trivial

theorem regular_ofText (text : String) : (ofText text).Regular where
  tokens := rfl
  lines := ne_nil_of_mem_lines_ofText text
  last := getLast?_ofText text
  writable _ := writable_of_mem

/-! ## What is printed -/

/-- The text of a source: the tokens of each line, on a line of their own. -/
def print (p : Source) : String := "\n".intercalate (p.lines.map Spelling.ascii.code)

theorem toList_code (line : List Token) :
    (Spelling.ascii.code line).toList = [' '].intercalate (line.map fun t => t.text.toList) := by
  rw [Spelling.code, String.toList_intercalate, List.map_map]
  rfl

/-- The characters of a printed line are spaces and those of its tokens. -/
theorem mem_code {c : Char} : ∀ {line : List Token}, c ∈ (Spelling.ascii.code line).toList →
    c = ' ' ∨ ∃ t ∈ line, c ∈ t.text.toList
  | [], h => by cases h
  | [t], h => .inr ⟨t, List.mem_cons_self, by simpa [toList_code] using h⟩
  | t :: u :: line, h => by
    have hcons : (Spelling.ascii.code (t :: u :: line)).toList =
        t.text.toList ++ ' ' :: (Spelling.ascii.code (u :: line)).toList := by
      simp [toList_code, List.intercalate_cons_cons]
    rw [hcons, List.mem_append, List.mem_cons] at h
    rcases h with h | h | h
    · exact .inr ⟨t, List.mem_cons_self, h⟩
    · exact .inl h
    · exact (mem_code h).imp_right fun ⟨v, hv, hc⟩ => ⟨v, List.mem_cons_of_mem _ hv, hc⟩

/-- The words of a printed line are the texts of its tokens. -/
theorem tokensOf_code (hwritable : ∀ t ∈ line, t.Writable) : tokensOf (Spelling.ascii.code line).toList = line := by
  have hwords : ∀ w ∈ line.map fun t => t.text.toList, w ≠ [] ∧ ∀ c ∈ w, Text.isBlank c = false := by
    intro w hw
    obtain ⟨t, ht, rfl⟩ := List.mem_map.mp hw
    obtain ⟨hne, hsolid⟩ := (hwritable t ht).text_solid
    exact ⟨hne, fun c hc => (hsolid c hc).1⟩
  rw [tokensOf, toList_code, Text.words_intercalate (by decide) hwords, List.map_map]
  refine (List.map_congr_left fun t ht => ?_).trans (List.map_id line)
  simpa using (hwritable t ht).ofAtom_text

/-- **A printed line is read as its tokens.** It has neither a line feed nor a comment. -/
theorem groups_code (hne : line ≠ []) (hwritable : ∀ t ∈ line, t.Writable) :
    groups (Spelling.ascii.code line) = [line] := by
  have hchars : ∀ c ∈ (Spelling.ascii.code line).toList, c ≠ '\n' ∧ c ≠ '#' := by
    intro c hc
    rcases mem_code hc with rfl | ⟨t, ht, hc⟩
    · decide
    · obtain ⟨hblank, hcomment⟩ := (hwritable t ht).text_solid.2 c hc
      exact ⟨fun h => absurd hblank (by rw [h]; decide), hcomment⟩
  have hlines : Text.lines (Spelling.ascii.code line).toList = [(Spelling.ascii.code line).toList] :=
    Text.splitWhere_eq_singleton fun c hc => by simpa using (hchars c hc).1
  have huncomment : uncomment (Spelling.ascii.code line).toList = (Spelling.ascii.code line).toList :=
    List.takeWhile_eq_self_iff.mpr fun c hc => by simpa using (hchars c hc).2
  rw [groups, hlines, List.map_singleton, huncomment, tokensOf_code hwritable]
  simp [hne]

theorem groups_intercalate_code : ∀ {lines : List (List Token)}, (∀ line ∈ lines, line ≠ []) →
    (∀ t ∈ lines.flatten, t.Writable) → groups ("\n".intercalate (lines.map Spelling.ascii.code)) = lines
  | [], _, _ => rfl
  | [line], hne, hwritable => by
    simpa using groups_code (hne line List.mem_cons_self) (by simpa using hwritable)
  | line :: next :: lines, hne, hwritable => by
    rw [List.forall_mem_cons] at hne
    rw [List.flatten_cons, List.forall_mem_append] at hwritable
    rw [List.map_cons, List.map_cons, String.intercalate_cons_cons, groups_append, ← List.map_cons,
      groups_code hne.1 hwritable.1, groups_intercalate_code hne.2 hwritable.2, List.singleton_append]

theorem groups_append_lineFeed (text : String) : groups (text ++ "\n") = groups text := by
  have hempty : groups "" = [] := by decide
  simpa [hempty] using groups_append text ""

theorem ofText_eq_of_groups (h : p.Regular) (hgroups : groups text = p.lines) : ofText text = p := by
  have hterminate : terminate p.lines = p.lines := if_pos (by rw [h.tokens, h.last])
  rw [ofText, hgroups, hterminate, ofLines, h.tokens]

theorem Regular.groups_print (h : p.Regular) : groups p.print = p.lines :=
  groups_intercalate_code h.lines (h.tokens ▸ h.writable)

/-- **A regular source is read back from its text.** -/
theorem Regular.ofText_print (h : p.Regular) : ofText p.print = p := ofText_eq_of_groups h h.groups_print

/-- **Reading undoes printing.** What is read from any text is regular. A regular source is read back from its printed
text, whether or not a line feed ends the last line. So what was read from a text, printed and read again, is the same
source. -/
theorem print_reads_back : (∀ text : String, (ofText text).Regular) ∧
    (∀ p : Source, p.Regular → ofText p.print = p ∧ ofText (p.print ++ "\n") = p) ∧
    ∀ text : String, ofText (ofText text).print = ofText text := by
  refine ⟨regular_ofText, fun p h => ⟨h.ofText_print, ?_⟩, fun text => (regular_ofText text).ofText_print⟩
  exact ofText_eq_of_groups h ((groups_append_lineFeed p.print).trans h.groups_print)

/-- A text with a comment, an empty line and the second spelling of the arrow; `grab` is an identifier in it, and an
`eof` stands inside a line as well. -/
theorem print_reads_back_from_comments :
    let p := ofLines [[.id "grab", .eof, .arrow], [.colon, .id "→→"], [.eof]]
    ofText "\tgrab EOF → # .\n\n : →→" = p ∧ p.Regular ∧ p.print = "grab EOF ->\n: →→\nEOF" ∧
      ofText p.print = p ∧ ofText (p.print ++ "\n") = p := by
  intro p
  have hregular : p.Regular := ⟨rfl, by decide, by decide, by decide +kernel⟩
  exact ⟨by decide +kernel, hregular, by decide +kernel, print_reads_back.2.1 p hregular⟩

end Source

end Stepwise
