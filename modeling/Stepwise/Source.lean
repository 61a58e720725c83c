import Stepwise.Text.Split
import Stepwise.Token

/-!
# Sources

A source is a program as the machine sees it: the flat stream of tokens that it runs, and the same tokens grouped by
line for display. `Source.ofText` reads one from text. It always ends in `eof` (`getLast?_ofText`), its stream is the
concatenation of its lines (`tokens_ofText`), and no line is empty (`ne_nil_of_mem_lines_ofText`).
-/

namespace Stepwise

structure Source where
  /-- The stream that the machine runs. -/
  tokens : List Token
  /-- The tokens of each line that has any. -/
  lines : List (List Token)
  deriving DecidableEq, Repr, Inhabited

namespace Source

/-- What stands on a line before its comment. -/
def uncomment (line : List Char) : List Char := line.takeWhile (· ≠ '#')

/-- The tokens of blank-separated atoms. -/
def tokensOf (cs : List Char) : List Token := (Text.words cs).map fun w => Token.ofAtom (String.ofList w)

/-- The tokens of each line of a text, without comments and without lines that hold none. -/
def groups (text : String) : List (List Token) :=
  ((Text.lines text.toList).map fun line => tokensOf (uncomment line)).filter (· ≠ [])

/-- Adds a line with a lone `eof` unless the last token is one, so that the machine always halts on a token. -/
def terminate (lines : List (List Token)) : List (List Token) :=
  if lines.flatten.getLast? = some .eof then lines else lines ++ [[.eof]]

def ofLines (lines : List (List Token)) : Source := ⟨lines.flatten, lines⟩

/-- Reads a text: lines end at a line feed, a comment runs from a number sign to the end of its line, and atoms are
separated by blanks. -/
def ofText (text : String) : Source := ofLines (terminate (groups text))

theorem getLast?_flatten_terminate (lines : List (List Token)) :
    (terminate lines).flatten.getLast? = some .eof := by
  unfold terminate
  split
  · assumption
  · simp

theorem tokens_ofText (text : String) : (ofText text).tokens = (ofText text).lines.flatten := rfl

theorem getLast?_ofText (text : String) : (ofText text).tokens.getLast? = some .eof :=
  getLast?_flatten_terminate _

theorem ne_nil_of_mem_lines_ofText (text : String) : ∀ line ∈ (ofText text).lines, line ≠ [] := by
  have hgroups : ∀ line ∈ groups text, line ≠ [] := fun line h => by simpa using (List.mem_filter.mp h).2
  intro line h
  simp only [ofText, ofLines, terminate] at h
  split at h
  · exact hgroups line h
  · rcases List.mem_append.mp h with h | h
    · exact hgroups line h
    · simp [List.mem_singleton.mp h]

theorem groups_append (text more : String) :
    groups (text ++ "\n" ++ more) = groups text ++ groups more := by
  unfold groups Text.lines
  rw [String.toList_append, String.toList_append, show "\n".toList = ['\n'] from rfl, List.append_assoc,
    List.singleton_append, Text.splitWhere_append (by decide), List.map_append, List.filter_append]

/-- The tokens of a text before its end are the first tokens of the text with more lines added. -/
theorem dropLast_tokens_prefix (text more : String) :
    (ofText text).tokens.dropLast <+: (ofText (text ++ "\n" ++ more)).tokens := by
  have hgroups (lines : List (List Token)) : lines.flatten <+: (terminate lines).flatten := by
    unfold terminate
    split
    · exact List.prefix_rfl
    · simp
  have hlast (lines : List (List Token)) : (terminate lines).flatten.dropLast <+: lines.flatten := by
    unfold terminate
    split
    · exact List.dropLast_prefix _
    · simp
  refine (hlast _).trans (List.IsPrefix.trans ?_ (hgroups _))
  rw [groups_append, List.flatten_append]
  exact List.prefix_append _ _

end Source

end Stepwise
