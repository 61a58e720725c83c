import Stepwise.Proofs.Contents
import Stepwise.Proofs.Discipline

/-!
# Terms read like the source that builds them

Between calls the stack holds terms only, and their flat forms, bottom first, make one list of words (`State.words`).
A `type` or an identifier in the token stream adds its own text to that list and changes no other word: a variable is
pushed by its name, and the call of a constant takes the top values off the stack and puts them, the top one first,
into the spine of one term, whose flat form turns the spine around again (`stackWords_values`). So the words on the
stack after a block of such tokens are those before it, followed by the block (`terms_read_like_source`).
-/

namespace Stepwise

/-- The words of the term in a slot. A saved control has none. -/
def Slot.words : Slot → List String
  | value v => v.term.flat
  | saved _ => []

/-- Whether the token puts one term on the stack: `type`, or an identifier. -/
def Token.isOperand : Token → Bool
  | type | id _ => true
  | _ => false

/-- The words of the terms on a stack, bottom first. -/
def stackWords (stack : List Slot) : List String := stack.reverse.flatMap Slot.words

theorem stackWords_append (above below : List Slot) :
    stackWords (above ++ below) = stackWords below ++ stackWords above := by
  simp [stackWords]

theorem stackWords_value (v : Value) (below : List Slot) :
    stackWords (.value v :: below) = stackWords below ++ v.term.flat := by
  simp [stackWords, Slot.words]

/-- **The order of the stack and the order of a spine cancel out.** -/
theorem stackWords_values (vs : List Value) : stackWords (vs.map .value) = Expr.flatSpine (vs.map (·.term)) := by
  induction vs with
  | nil => rfl
  | cons v vs ih => rw [List.map_cons, stackWords_value, ih, List.map_cons, Expr.flatSpine]

namespace State

variable {s t : State} {text : String} {tok : Token} {ts : List Token} {pc : Address} {entry n : Nat} {c : Constant}

/-- The words of the terms on the stack, bottom first. -/
def words (s : State) : List String := stackWords s.stack

/-! ## One token -/

/-- No call is open, and the next token is not taken as a name. -/
structure Outside (s : State) : Prop where
  reading : s.current.readingName = false
  frames : ∀ call, .call call ∉ s.frames

/-- An operand that is no constant is pushed as the term that it spells. -/
theorem Rule.of_operand (h : Rule s pc tok t) (htok : tok.isOperand = true) (hs : s.Outside) :
    t.Outside ∧ t.words = s.words ++ [tok.text] := by
  cases h with
  | type => exact ⟨⟨hs.reading, hs.frames⟩, stackWords_value _ _⟩
  | bound => exact ⟨⟨hs.reading, hs.frames⟩, stackWords_value _ _⟩
  | captured hlookup =>
    obtain ⟨call, hcall, _⟩ := mem_of_lookup_argument hlookup
    exact absurd hcall (hs.frames call)
  | extend htoken => rcases htoken with rfl | rfl <;> cases htok
  | grab htoken => rcases htoken with rfl | rfl | rfl <;> cases htok
  | _ => cases htok

/-- A call that returns adds the name of its constant to the words of the stack. -/
theorem Calls.words_of_returns {name : Name} (hcalls : s.Calls entry c) (hfetch : s.fetch = some (.id name))
    (hreturns : s.Returns n t) (hs : s.Outside) : t.Outside ∧ t.words = s.words ++ [name] := by
  obtain rfl : c.name = name := by
    obtain ⟨name', hfetch', hlookup⟩ := hcalls.names
    obtain rfl : name = name' := by simpa [hfetch] using hfetch'
    exact (getElem?_of_lookup hlookup).2
  obtain ⟨_, vs, rest, _, v, pc, _, _, _, hstack, _, rfl⟩ := hcalls.returns_iff_eval.mp hreturns
  refine ⟨⟨hs.reading, hs.frames⟩, ?_⟩
  calc stackWords (.value (Activation.result c vs v) :: rest)
      = stackWords rest ++ (Expr.flatSpine (vs.map (·.term)) ++ [c.name]) := stackWords_value _ _
    _ = stackWords (vs.map .value ++ rest) ++ [c.name] := by
        rw [stackWords_append, stackWords_values, List.append_assoc]
    _ = s.words ++ [c.name] := by rw [words, hstack]

/-! ## A block of tokens -/

/-- **Executing operands outside all calls adds their texts to the words of the stack.** -/
theorem Executes.words_eq (h : Executes ts s t) (hts : ∀ tok ∈ ts, tok.isOperand = true) (hs : s.Outside) :
    t.words = s.words ++ ts.map Token.text := by
  induction h with
  | nil s => simp
  | within hfetch hfirst _ ih =>
    rw [List.forall_mem_cons] at hts
    cases hfirst with
    | name _ _ hreading => exact absurd hreading (by simp [hs.reading])
    | rule _ hfetch' _ _ hrule =>
      obtain rfl := Option.some.inj (hfetch.symm.trans hfetch')
      obtain ⟨hnext, hwords⟩ := hrule.of_operand hts.1 hs
      rw [ih hts.2 hnext, hwords, List.map_cons, List.append_assoc, List.singleton_append]
  | call hfetch hcalls hreturns _ ih =>
    rw [List.forall_mem_cons] at hts
    obtain ⟨hnext, hwords⟩ := hcalls.words_of_returns hfetch hreturns hs
    rw [ih hts.2 hnext, hwords, List.map_cons, List.append_assoc, List.singleton_append]
    rfl

/-- **Terms read like the source that builds them.** A reachable state with no call in progress, and not taking a name,
stands at an index of the token stream. Let a block of operands begin there, and let the run come to the token behind
the block without error. Then the words on the stack are those of before, followed by the texts of the block. -/
theorem terms_read_like_source (h : Reachable text s) (hdepth : s.callDepth = 0)
    (hreading : s.current.readingName = false) :
    ∃ index, s.current.pc = .stream index ∧ ∀ (block : List Token) (n : Nat) (t : State),
      block <+: s.source.tokens.drop index → (∀ tok ∈ block, tok.isOperand = true) → s.after n = some t →
      t.error = none → t.current.pc = .stream (index + block.length) →
        t.words = s.words ++ block.map Token.text := by
  have hstream := h.disciplined.inStream_iff.mpr hdepth
  obtain ⟨index, hpc⟩ : ∃ index, s.current.pc = .stream index := by
    cases hpc : s.current.pc with
    | stream index => exact ⟨index, rfl⟩
    | code entry offset => simp [hpc, Address.entry?] at hstream
  refine ⟨index, hpc, fun block n t hblock hoperands hafter herror hend => ?_⟩
  have hlevel : Levelled false s.stack := by
    obtain ⟨m, hm⟩ := h
    simpa [hpc, Address.inCode] using levelled_of_after hm rfl
  have hexecutes := (executes_of_after hlevel hpc hend hafter herror).2
  rw [List.drop_take, Nat.add_sub_cancel_left, ← List.prefix_iff_eq_take.mp hblock] at hexecutes
  exact hexecutes.words_eq hoperands ⟨hreading, h.disciplined.call_not_mem hdepth⟩

/-- In an open scope with the variables `x` and `y`, and above an `o`, the block `x s y b` calls `s` with one argument
and `b` with two. -/
theorem terms_read_like_source_over_calls :
    ∃ s t, Reachable "type : o . ( o -> o ) : s . ( o -> o -> o ) : b . ( o : x -> o : y -> o x s y b" s ∧
      s.callDepth = 0 ∧ s.words = ["o"] ∧ s.after 24 = some t ∧ t.error = none ∧ t.stack.length = 2 ∧
      t.words = ["o"] ++ ["x", "s", "y", "b"] := by
  let run := (ofText "type : o . ( o -> o ) : s . ( o -> o -> o ) : b . ( o : x -> o : y -> o x s y b").after
  let s := (run 48).getD default
  let t := (run 72).getD default
  let block : List Token := [.id "x", .id "s", .id "y", .id "b"]
  obtain ⟨hreachable, hdepth, hreading, hpc, hwords, hblock, hafter, herror, hend, hlength⟩ :
      run 48 = some s ∧ s.callDepth = 0 ∧ s.current.readingName = false ∧ s.current.pc = .stream 32 ∧
        s.words = ["o"] ∧ block <+: s.source.tokens.drop 32 ∧ s.after 24 = some t ∧ t.error = none ∧
        t.current.pc = .stream (32 + block.length) ∧ t.stack.length = 2 := by decide +kernel
  obtain ⟨index, hindex, hread⟩ := terms_read_like_source ⟨48, hreachable⟩ hdepth hreading
  obtain rfl : index = 32 := by simpa [hpc] using hindex.symm
  refine ⟨s, t, ⟨48, hreachable⟩, hdepth, hwords, hafter, herror, hlength, ?_⟩
  rw [hread block 24 t hblock (by decide) hafter herror hend, hwords]
  rfl

end State

end Stepwise
