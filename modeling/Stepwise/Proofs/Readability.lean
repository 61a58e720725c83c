import Stepwise.Expr.Flat

/-!
# Reading flat forms back

A flat form mixes two notations: a binder stands before its parts, and a head stands behind its spine. Neither tells how
many words belong to it, so different expressions can have the same flat form, and not only by the names of binders and
by the difference between constants and variables (`bare` forgets these two and nothing else).

`wellApplied` is what it takes to read a flat form back: no head is a word that flat forms use for something else, each
head is applied to the same number of arguments wherever it stands, and no argument is a function or a function type.
Reading then proceeds in two passes over a stack (`readWords`, `joinPieces`), so **expressions with the same flat form
are the same but for what `bare` forgets** (`flat_eq_iff`).

Flat forms are compared as texts. As long as no word holds a space, these are equal when the words are
(`matches_iff_flat_eq`), and then the comparison decides the same of such expressions (`matches_iff_bare_eq`).
-/

namespace Stepwise.Expr

variable {e f : Expr} {arity : Name → Nat}

/-! ## Words and texts -/

/-- No word of the flat form holds a space. -/
def Spaceless (e : Expr) : Prop := ∀ w ∈ e.flat, ' ' ∉ w.toList

instance (e : Expr) : Decidable e.Spaceless := inferInstanceAs (Decidable (∀ w ∈ e.flat, ' ' ∉ w.toList))

theorem flat_ne_nil (e : Expr) : e.flat ≠ [] := by
  cases e <;> simp [flat]

theorem splitOn_flatText (h : e.Spaceless) : e.flatText.toList.splitOn ' ' = e.flat.map String.toList := by
  rw [flatText, String.toList_intercalate, show " ".toList = [' '] from rfl]
  refine List.splitOn_intercalate ' ' (fun cs hcs => ?_) (by simpa using flat_ne_nil e)
  obtain ⟨w, hw, rfl⟩ := List.mem_map.mp hcs
  exact h w hw

theorem matches_iff_flat_eq (he : e.Spaceless) (hf : f.Spaceless) : e.Matches f ↔ e.flat = f.flat := by
  constructor
  · intro h
    have hwords : e.flat.map String.toList = f.flat.map String.toList := by
      rw [← splitOn_flatText he, ← splitOn_flatText hf, show e.flatText = f.flatText from h]
    exact (List.map_inj_right fun _ _ => String.toList_inj.mp).mp hwords
  · intro h
    rw [Matches, flatText, flatText, h]

/-! ## What flat forms forget -/

mutual

/-- The expression without the names of its binders, and with constants in place of variables. -/
def bare : Expr → Expr
  | type => type
  | kind => kind
  | pi _ a b => pi none (bare a) (bare b)
  | lam _ a b => lam none (bare a) (bare b)
  | const name spine => const name (bareSpine spine)
  | var name spine => const name (bareSpine spine)

def bareSpine : List Expr → List Expr
  | [] => []
  | e :: es => bare e :: bareSpine es

end

theorem bareSpine_eq_map (es : List Expr) : bareSpine es = es.map bare := by
  induction es with
  | nil => rfl
  | cons e es ih => rw [bareSpine, ih, List.map_cons]

mutual

theorem flat_bare : ∀ e : Expr, e.bare.flat = e.flat
  | type => rfl
  | kind => rfl
  | pi _ a b => by rw [bare, flat, flat, flat_bare a, flat_bare b]
  | lam _ a b => by rw [bare, flat, flat, flat_bare a, flat_bare b]
  | const name es => by rw [bare, flat, flat, flatSpine_bareSpine es]
  | var name es => by rw [bare, flat, flat, flatSpine_bareSpine es]

theorem flatSpine_bareSpine : ∀ es : List Expr, flatSpine (bareSpine es) = flatSpine es
  | [] => rfl
  | e :: es => by rw [bareSpine, flatSpine, flatSpine, flat_bare e, flatSpine_bareSpine es]

end

/-! ## Expressions that can be read back -/

def isBinder : Expr → Bool
  | pi _ _ _ | lam _ _ _ => true
  | _ => false

/-- The words that flat forms use for something other than a head. -/
def markers : List String := ["type", "kind", "pi", "lam"]

mutual

/-- No head is a marker, each is applied to as many arguments as `arity` says, and no argument is a function or a
function type. -/
def wellApplied (arity : Name → Nat) : Expr → Bool
  | type => true
  | kind => true
  | pi _ a b => wellApplied arity a && wellApplied arity b
  | lam _ a b => wellApplied arity a && wellApplied arity b
  | const name spine => name ∉ markers && spine.length = arity name && wellAppliedSpine arity spine
  | var name spine => name ∉ markers && spine.length = arity name && wellAppliedSpine arity spine

def wellAppliedSpine (arity : Name → Nat) : List Expr → Bool
  | [] => true
  | e :: es => !e.isBinder && wellApplied arity e && wellAppliedSpine arity es

end

/-! ## Reading back -/

/-- What a reader of words keeps on its stack: an expression without binders, or the word of a binder whose parts are
above it. -/
inductive Piece where
  | binder (word : String)
  | whole (e : Expr)

def Piece.expr? : Piece → Option Expr
  | binder _ => none
  | whole e => some e

/-- What a word that is no binder stands for, above the pieces read so far: a head takes its spine from them. -/
def readHead (arity : Name → Nat) (word : String) (pieces : List Piece) : List Piece :=
  if word = "type" then .whole type :: pieces
  else if word = "kind" then .whole kind :: pieces
  else .whole (const word ((pieces.take (arity word)).filterMap Piece.expr?)) :: pieces.drop (arity word)

/-- The first pass puts the words together to pieces, the last one on top. After the word of a binder, the word that
stands in place of its name is skipped. -/
def readWords (arity : Name → Nat) : Bool → List String → List Piece → List Piece
  | _, [], pieces => pieces
  | true, _ :: words, pieces => readWords arity false words pieces
  | false, word :: words, pieces =>
    if word = "pi" ∨ word = "lam" then readWords arity true words (.binder word :: pieces)
    else readWords arity false words (readHead arity word pieces)

/-- The second pass goes through the pieces from the top and puts the parts of each binder together. -/
def joinPieces : List Piece → List Expr → List Expr
  | [], es => es
  | .whole e :: pieces, es => joinPieces pieces (e :: es)
  | .binder word :: pieces, a :: b :: es =>
    joinPieces pieces ((if word = "pi" then pi none a b else lam none a b) :: es)
  | .binder _ :: pieces, es => joinPieces pieces es

/-- The pieces of an expression, the last one on top. -/
def pieces : Expr → List Piece
  | pi _ a b => pieces b ++ pieces a ++ [.binder "pi"]
  | lam _ a b => pieces b ++ pieces a ++ [.binder "lam"]
  | e => [.whole e.bare]

theorem pieces_of_not_binder (h : e.isBinder = false) : e.pieces = [.whole e.bare] := by
  cases e <;> first | rfl | cases h

/-- The second pass puts the pieces of an expression together again. -/
theorem joinPieces_pieces : ∀ (e : Expr) (rest : List Piece) (es : List Expr),
    joinPieces (e.pieces ++ rest) es = joinPieces rest (e.bare :: es)
  | type, _, _ => rfl
  | kind, _, _ => rfl
  | const _ _, _, _ => rfl
  | var _ _, _, _ => rfl
  | pi _ a b, rest, es => by
    rw [pieces, List.append_assoc, List.append_assoc, joinPieces_pieces b, joinPieces_pieces a]
    rfl
  | lam _ a b, rest, es => by
    rw [pieces, List.append_assoc, List.append_assoc, joinPieces_pieces b, joinPieces_pieces a]
    rfl

/-- A head that is no marker takes its spine from the top of the stack. -/
theorem readWords_head {name : Name} (spine : List Expr) (words : List String) (rest : List Piece)
    (hname : name ∉ markers) (hlength : spine.length = arity name) :
    readWords arity false (name :: words) (spine.map Piece.whole ++ rest) =
      readWords arity false words (.whole (const name spine) :: rest) := by
  simp only [markers, List.mem_cons, List.not_mem_nil, or_false, not_or] at hname
  obtain ⟨htype, hkind, hpi, hlam⟩ := hname
  have hexprs : (spine.map Piece.whole).filterMap Piece.expr? = spine := by
    rw [List.filterMap_map]
    exact List.filterMap_some
  rw [readWords, if_neg (by simp [hpi, hlam]), readHead, if_neg htype, if_neg hkind]
  rw [← hlength, List.take_left' (by simp), List.drop_left' (by simp), hexprs]

mutual

/-- The first pass makes of a flat form the pieces of its expression, whatever stands before and behind it. -/
theorem readWords_flat : ∀ (e : Expr) (words : List String) (rest : List Piece), wellApplied arity e = true →
    readWords arity false (e.flat ++ words) rest = readWords arity false words (e.pieces ++ rest)
  | type, _, _, _ => rfl
  | kind, _, _, _ => rfl
  | pi n a b, words, rest, h => by
    rw [wellApplied, Bool.and_eq_true] at h
    have hmarker : readWords arity false ((pi n a b).flat ++ words) rest =
        readWords arity false (a.flat ++ (b.flat ++ words)) (.binder "pi" :: rest) := by
      simp [flat, readWords]
    rw [hmarker, readWords_flat a _ _ h.1, readWords_flat b _ _ h.2, pieces]
    simp
  | lam n a b, words, rest, h => by
    rw [wellApplied, Bool.and_eq_true] at h
    have hmarker : readWords arity false ((lam n a b).flat ++ words) rest =
        readWords arity false (a.flat ++ (b.flat ++ words)) (.binder "lam" :: rest) := by
      simp [flat, readWords]
    rw [hmarker, readWords_flat a _ _ h.1, readWords_flat b _ _ h.2, pieces]
    simp
  | const name es, words, rest, h => by
    simp only [wellApplied, Bool.and_eq_true, decide_eq_true_eq] at h
    rw [flat, List.append_assoc, readWords_flatSpine es _ _ h.2, List.singleton_append,
      readWords_head _ _ _ h.1.1 (by simpa using h.1.2), ← bareSpine_eq_map]
    rfl
  | var name es, words, rest, h => by
    simp only [wellApplied, Bool.and_eq_true, decide_eq_true_eq] at h
    rw [flat, List.append_assoc, readWords_flatSpine es _ _ h.2, List.singleton_append,
      readWords_head _ _ _ h.1.1 (by simpa using h.1.2), ← bareSpine_eq_map]
    rfl

theorem readWords_flatSpine : ∀ (es : List Expr) (words : List String) (rest : List Piece),
    wellAppliedSpine arity es = true →
      readWords arity false (flatSpine es ++ words) rest =
        readWords arity false words ((es.map bare).map Piece.whole ++ rest)
  | [], _, _, _ => rfl
  | e :: es, words, rest, h => by
    simp only [wellAppliedSpine, Bool.and_eq_true, Bool.not_eq_true'] at h
    rw [flatSpine, List.append_assoc, readWords_flatSpine es _ _ h.2, readWords_flat e _ _ h.1.2,
      pieces_of_not_binder h.1.1]
    rfl

end

theorem joinPieces_readWords (h : wellApplied arity e = true) :
    joinPieces (readWords arity false e.flat []) [] = [e.bare] := by
  have hpieces := readWords_flat e [] [] h
  have hjoin := joinPieces_pieces e [] []
  simp only [List.append_nil] at hpieces hjoin
  rw [hpieces]
  exact hjoin

/-- **Expressions that can be read back have the same flat form exactly when they are the same but for the names of
binders and the difference between constants and variables.** -/
theorem flat_eq_iff (he : wellApplied arity e = true) (hf : wellApplied arity f = true) :
    e.flat = f.flat ↔ e.bare = f.bare := by
  constructor
  · intro h
    have hread := joinPieces_readWords he
    rw [h, joinPieces_readWords hf] at hread
    exact (List.cons.inj hread).1.symm
  · intro h
    rw [← flat_bare e, h, flat_bare f]

/-! ## What the comparison of texts decides -/

mutual

/-- The names of the constants and variables of an expression. -/
def heads : Expr → List Name
  | type => []
  | kind => []
  | pi _ a b => heads a ++ heads b
  | lam _ a b => heads a ++ heads b
  | const name spine => name :: headsSpine spine
  | var name spine => name :: headsSpine spine

def headsSpine : List Expr → List Name
  | [] => []
  | e :: es => heads e ++ headsSpine es

end

mutual

/-- Every word of a flat form is a head, a marker, or stands in place of the name of a binder. -/
theorem mem_flat_cases : ∀ (e : Expr) {w : String}, w ∈ e.flat → w ∈ e.heads ∨ w ∈ anonymous :: markers
  | type, w, h => .inr (by simp_all [flat, markers])
  | kind, w, h => .inr (by simp_all [flat, markers])
  | pi _ a b, w, h => by
    rw [flat, List.mem_cons, List.mem_cons, List.mem_append] at h
    rcases h with rfl | rfl | h | h
    · exact .inr (by decide)
    · exact .inr (by decide)
    · exact (mem_flat_cases a h).imp_left (List.mem_append_left _)
    · exact (mem_flat_cases b h).imp_left (List.mem_append_right _)
  | lam _ a b, w, h => by
    rw [flat, List.mem_cons, List.mem_cons, List.mem_append] at h
    rcases h with rfl | rfl | h | h
    · exact .inr (by decide)
    · exact .inr (by decide)
    · exact (mem_flat_cases a h).imp_left (List.mem_append_left _)
    · exact (mem_flat_cases b h).imp_left (List.mem_append_right _)
  | const name es, w, h => by
    rw [flat, List.mem_append, List.mem_singleton] at h
    rcases h with h | rfl
    · exact (mem_flatSpine_cases es h).imp_left (List.mem_cons_of_mem _)
    · exact .inl List.mem_cons_self
  | var name es, w, h => by
    rw [flat, List.mem_append, List.mem_singleton] at h
    rcases h with h | rfl
    · exact (mem_flatSpine_cases es h).imp_left (List.mem_cons_of_mem _)
    · exact .inl List.mem_cons_self

theorem mem_flatSpine_cases : ∀ (es : List Expr) {w : String}, w ∈ flatSpine es →
    w ∈ headsSpine es ∨ w ∈ anonymous :: markers
  | [], _, h => by cases h
  | e :: es, w, h => by
    rw [flatSpine, List.mem_append] at h
    rcases h with h | h
    · exact (mem_flatSpine_cases es h).imp_left (List.mem_append_right _)
    · exact (mem_flat_cases e h).imp_left (List.mem_append_left _)

end

theorem spaceless_of_heads (h : ∀ name ∈ e.heads, ' ' ∉ name.toList) : e.Spaceless := by
  have hmarkers : ∀ w ∈ anonymous :: markers, ' ' ∉ w.toList := by decide
  intro w hw
  rcases mem_flat_cases e hw with hhead | hmarker
  · exact h w hhead
  · exact hmarkers w hmarker

/-- **What the comparison decides.** Whatever arities are assigned to names: two expressions match exactly when they are
the same tree but for the names of binders and the difference between constants and variables, as long as no head holds
a space or is a marker, each head is applied to as many arguments as its arity says, and no function or function type
stands inside a spine. -/
theorem matches_iff_bare_eq (arity : Name → Nat) (e f : Expr) (he : ∀ name ∈ e.heads, ' ' ∉ name.toList)
    (hf : ∀ name ∈ f.heads, ' ' ∉ name.toList) (hwe : e.wellApplied arity = true) (hwf : f.wellApplied arity = true) :
    e.Matches f ↔ e.bare = f.bare :=
  (matches_iff_flat_eq (spaceless_of_heads he) (spaceless_of_heads hf)).trans (flat_eq_iff hwe hwf)

/-- The words `x s y b` under two binders. With other names for the binders, and with constants for variables, the
comparison finds the same tree; with `s` applied to what `b` is applied to, it finds another one. -/
theorem matches_iff_bare_eq_at_nested_spine :
    let arity : Name → Nat := fun name => if name = "b" then 2 else if name = "s" then 1 else 0
    let o : Expr := const "o" []
    let e := pi (some "x") o (lam none o (const "b" [var "y" [], const "s" [var "x" []]]))
    let f := pi (some "z") o (lam (some "z") o (var "b" [const "y" [], const "s" [var "x" []]]))
    let g := pi (some "x") o (lam none o (const "s" [const "b" [var "y" [], var "x" []]]))
    e.wellApplied arity = true ∧ f.wellApplied arity = true ∧ g.wellApplied arity = true ∧ e ≠ f ∧
      e.Matches f ∧ ¬e.Matches g := by
  intro arity o e f g
  have hf := matches_iff_bare_eq arity e f (by decide) (by decide) (by decide) (by decide)
  have hg := matches_iff_bare_eq arity e g (by decide) (by decide) (by decide) (by decide)
  exact ⟨by decide, by decide, by decide, by decide, hf.mpr (by decide), fun h => absurd (hg.mp h) (by decide)⟩

/-! ## The flat form of `kind` -/

/-- The flat form of `kind` is shared with a head of that name only. -/
theorem flat_eq_kind_iff : e.flat = kind.flat ↔ e = kind ∨ e = const "kind" [] ∨ e = var "kind" [] := by
  constructor
  · intro h
    have hspine (es : List Expr) (name : Name) (hflat : flatSpine es ++ [name] = ["kind"]) :
        es = [] ∧ name = "kind" := by
      obtain ⟨hes, hname⟩ := List.append_inj' (show flatSpine es ++ [name] = [] ++ ["kind"] from hflat) rfl
      refine ⟨?_, (List.cons.inj hname).1⟩
      cases es with
      | nil => rfl
      | cons a es => exact absurd (List.append_eq_nil_iff.mp hes).2 (flat_ne_nil a)
    cases e with
    | kind => exact .inl rfl
    | const name es =>
      obtain ⟨rfl, rfl⟩ := hspine es name h
      exact .inr (.inl rfl)
    | var name es =>
      obtain ⟨rfl, rfl⟩ := hspine es name h
      exact .inr (.inr rfl)
    | type => simp [flat] at h
    | pi n a b => simp [flat] at h
    | lam n a b => simp [flat] at h
  · rintro (rfl | rfl | rfl) <;> rfl

end Stepwise.Expr
