import Stepwise.Proofs.OpenScopes

/-!
# Which arrows are parameters

The code of a declaration has `grab` for each arrow outside all brackets, and it counts brackets to find them. The
machine counts scopes instead, and takes any token behind a colon for a name, an arrow or a bracket as well. `Faithful`
says that the two agree on a declaration: the arrows that are executed in the scope of its parameters (`BindsAt`) are
those that the code replaces (`GrabsAt`). It can be decided from the tokens. A declaration that takes no arrow, bracket
or colon for a name is faithful (`PlainNames.faithful`): as many brackets are open in it as there are scopes above that
of the parameters (`Levels`).
-/

namespace Stepwise.Code

variable {wrapped : Bool} {depth : Nat} {scopes : List (ScopeKind × Nat)} {t : Token} {ts rest declaration : List Token}

/-! ## The scope of the parameters -/

/-- The code leaves out parentheses around the whole declaration. -/
def isWrapped (declaration : List Token) : Bool := (parenthesised? (dropName declaration)).isSome

/-- What the code leaves out in front. -/
def opening (declaration : List Token) : List Token := if isWrapped declaration then [.lparen] else []

/-- Whether the innermost frame is the scope of the parameters of a declaration: no frame is open, or it is the scope of
the declaration, or it is the one that the parentheses around the whole have opened. -/
def inParameterScope (wrapped : Bool) : List FrameShape → Bool
  | [] => true
  | .scope .decl :: _ => true
  | [.scope .pi] => wrapped
  | _ => false

/-- What scopes with these tallies are. -/
def shapes (scopes : List (ScopeKind × Nat)) : List FrameShape := scopes.map fun tally => .scope tally.1

/-- The token at the index is an arrow that is executed in the scope of the parameters. -/
def BindsAt (declaration : List Token) (i : Nat) : Prop :=
  declaration[i]? = some .arrow ∧ readsAfter false (declaration.take i) = false ∧
    inParameterScope (isWrapped declaration) (shapes (openAfter false [] (declaration.take i))) = true

instance (declaration : List Token) (i : Nat) : Decidable (BindsAt declaration i) :=
  inferInstanceAs (Decidable (_ ∧ _))

/-- The code has `grab` in the place of the token at the index. -/
def GrabsAt (declaration code : List Token) (i : Nat) : Prop :=
  (opening declaration).length ≤ i ∧ code[i - (opening declaration).length]? = some .grab

instance (declaration code : List Token) (i : Nat) : Decidable (GrabsAt declaration code i) :=
  inferInstanceAs (Decidable (_ ∧ _))

/-- The code has `grab` exactly for the arrows that are executed in the scope of the parameters. -/
def Faithful (declaration : List Token) : Prop :=
  ∀ i < declaration.length, BindsAt declaration i ↔ GrabsAt declaration (ofDeclaration declaration) i

instance (declaration : List Token) : Decidable (Faithful declaration) :=
  inferInstanceAs (Decidable (∀ i < declaration.length, _))

/-! ## What the code keeps, by index -/

theorem openAfter_opening (declaration ts : List Token) :
    openAfter false [] (opening declaration ++ ts) =
      openAfter false (parameterScope (isWrapped declaration) 0) ts := by
  unfold opening
  cases isWrapped declaration <;> rfl

theorem readsAfter_opening (declaration ts : List Token) :
    readsAfter false (opening declaration ++ ts) = readsAfter false ts := by
  unfold opening
  cases isWrapped declaration <;> rfl

/-- An arrow among the tokens stands behind a colon among them, so it can only be a name. -/
def ArrowsNamed (ts : List Token) : Prop := ∀ i, ts[i]? = some .arrow → ∃ j, i = j + 1 ∧ ts[j]? = some .colon

theorem ArrowsNamed.append (h : ArrowsNamed ts) (hrest : ArrowsNamed rest) : ArrowsNamed (ts ++ rest) := by
  intro i hi
  rcases Nat.lt_or_ge i ts.length with hlt | hge
  · rw [List.getElem?_append_left hlt] at hi
    obtain ⟨j, rfl, hj⟩ := h i hi
    exact ⟨j, rfl, by rwa [List.getElem?_append_left (by omega)]⟩
  · obtain ⟨k, rfl⟩ := Nat.exists_eq_add_of_le hge
    rw [List.getElem?_append_right hge, Nat.add_sub_cancel_left] at hi
    obtain ⟨j, rfl, hj⟩ := hrest k hi
    exact ⟨ts.length + j, rfl, by rwa [List.getElem?_append_right (by omega), Nat.add_sub_cancel_left]⟩

theorem NameAtEnd.arrowsNamed {name : List Token} (h : NameAtEnd name) : ArrowsNamed name := by
  intro i hi
  rcases h with rfl | ⟨x, rfl⟩
  · simp at hi
  · match i with
    | 0 => simp at hi
    | 1 => exact ⟨0, rfl, rfl⟩
    | i + 2 => simp at hi

theorem closedBy?_of_parenthesised? {inside : List Token} (h : parenthesised? declaration = some inside) :
    closedBy? 1 (inside ++ [.rparen]) = some inside := by
  unfold parenthesised? at h
  split at h
  · rw [← eq_of_closedBy? h]
    exact h
  · cases h

/-- The tokens around the body. Behind it an arrow can only be a name, and the parentheses around the whole are not
closed before. -/
theorem exists_ending (declaration : List Token) : ∃ ending,
    declaration = opening declaration ++ body declaration ++ ending ∧ ArrowsNamed ending ∧
      (isWrapped declaration = true → ∃ rest inside, rest ≠ [] ∧
        closedBy? 1 (body declaration ++ rest) = some inside) := by
  obtain ⟨outer, houter, hdeclaration⟩ := exists_nameAtEnd declaration
  unfold opening isWrapped
  cases hinside : parenthesised? (dropName declaration) with
  | none =>
    have hbody : body declaration = dropName declaration := by simp [body, hinside]
    exact ⟨outer, by rw [hbody]; exact hdeclaration, houter.arrowsNamed, by simp⟩
  | some inside =>
    have hbody : body declaration = dropName inside := by simp [body, hinside]
    obtain ⟨inner, hinner, hnamed⟩ := exists_nameAtEnd inside
    have hrparen : ArrowsNamed [.rparen] := fun i hi => by cases i <;> simp at hi
    refine ⟨inner ++ ([.rparen] ++ outer), ?_, hinner.arrowsNamed.append (hrparen.append houter.arrowsNamed),
      fun _ => ⟨inner ++ [.rparen], inside, by simp, ?_⟩⟩
    · rw [eq_of_parenthesised? hinside, hnamed, ← hbody] at hdeclaration
      simpa using hdeclaration
    · rw [hbody, ← List.append_assoc, ← hnamed]
      exact closedBy?_of_parenthesised? hinside

theorem length_body_add_le (declaration : List Token) :
    (opening declaration).length + (body declaration).length ≤ declaration.length := by
  obtain ⟨ending, hdeclaration, _⟩ := exists_ending declaration
  have hlength := congrArg List.length hdeclaration
  rw [List.length_append, List.length_append] at hlength
  omega

theorem ne_arrow_of_lt {i : Nat} (hi : i < (opening declaration).length) : declaration[i]? ≠ some .arrow := by
  obtain ⟨ending, hdeclaration, _⟩ := exists_ending declaration
  rw [hdeclaration, List.append_assoc, List.getElem?_append_left hi]
  intro harrow
  have hmem := List.mem_of_getElem? harrow
  unfold opening at hmem
  split at hmem <;> simp at hmem

theorem getElem?_body {i : Nat} (hi : i < (body declaration).length) :
    declaration[(opening declaration).length + i]? = (body declaration)[i]? := by
  obtain ⟨ending, hdeclaration, _⟩ := exists_ending declaration
  have hat : (opening declaration ++ body declaration ++ ending)[(opening declaration).length + i]? =
      (body declaration)[i]? := by
    rw [List.append_assoc, List.getElem?_append_right (Nat.le_add_right _ _), Nat.add_sub_cancel_left,
      List.getElem?_append_left hi]
  rwa [← hdeclaration] at hat

theorem take_body {i : Nat} (hi : i ≤ (body declaration).length) :
    declaration.take ((opening declaration).length + i) = opening declaration ++ (body declaration).take i := by
  obtain ⟨ending, hdeclaration, _⟩ := exists_ending declaration
  have htake : (opening declaration ++ body declaration ++ ending).take ((opening declaration).length + i) =
      opening declaration ++ (body declaration).take i := by
    rw [List.append_assoc, List.take_length_add_append, List.take_append_of_le_length hi]
  rwa [← hdeclaration] at htake

/-- Behind the body, an arrow follows a colon. -/
theorem colon_of_arrow {i : Nat} (hi : (opening declaration).length + (body declaration).length ≤ i)
    (harrow : declaration[i]? = some .arrow) : ∃ j, i = j + 1 ∧ declaration[j]? = some .colon := by
  obtain ⟨ending, hdeclaration, hending, _⟩ := exists_ending declaration
  have hat (k : Nat) : declaration[(opening declaration).length + (body declaration).length + k]? = ending[k]? := by
    have happend : (opening declaration ++ body declaration ++
        ending)[(opening declaration).length + (body declaration).length + k]? = ending[k]? := by
      rw [List.getElem?_append_right (by simp), List.length_append, Nat.add_sub_cancel_left]
    rwa [← hdeclaration] at happend
  obtain ⟨k, rfl⟩ := Nat.exists_eq_add_of_le hi
  obtain ⟨l, rfl, hl⟩ := hending k (by rw [← hat, harrow])
  exact ⟨(opening declaration).length + (body declaration).length + l, rfl, by rw [hat, hl]⟩

/-- The number of open brackets after the tokens. -/
def depthFrom (depth : Nat) (ts : List Token) : Nat := ts.foldl (fun depth t => t.depthAfter depth) depth

theorem getElem?_grabParameters : ∀ (depth : Nat) (ts : List Token) (i : Nat),
    (grabParameters depth ts)[i]? =
      (ts[i]?).map fun t => if t = .arrow ∧ depthFrom depth (ts.take i) = 0 then .grab else t
  | _, [], _ => by simp [grabParameters]
  | depth, t :: ts, 0 => by
    by_cases ht : t = .arrow
    · simp [grabParameters, depthFrom, ht, Token.depthAfter, Token.isOpening, Token.isClosing]
    · simp [grabParameters, ht]
  | depth, t :: ts, i + 1 => getElem?_grabParameters (t.depthAfter depth) ts i

theorem take_grabParameters : ∀ (depth : Nat) (ts : List Token) (i : Nat),
    (grabParameters depth ts).take i = grabParameters depth (ts.take i)
  | _, [], _ => by simp [grabParameters]
  | _, _ :: _, 0 => rfl
  | depth, t :: ts, i + 1 => by
    simp only [grabParameters, List.take_succ_cons, take_grabParameters]

theorem getElem?_ofDeclaration {i : Nat} (hi : i < (body declaration).length) :
    (ofDeclaration declaration)[i]? = ((body declaration)[i]?).map fun t =>
      if t = .arrow ∧ depthFrom 0 ((body declaration).take i) = 0 then .grab else t := by
  rw [ofDeclaration, List.getElem?_append_left (by rwa [length_grabParameters]), getElem?_grabParameters]

/-- Behind the body the code has only its `ret`. -/
theorem lt_length_of_grab {i : Nat} (h : (ofDeclaration declaration)[i]? = some .grab) :
    i < (body declaration).length := by
  rcases Nat.lt_or_ge i (body declaration).length with hlt | hge
  · exact hlt
  · rw [ofDeclaration, List.getElem?_append_right (by rwa [length_grabParameters]), List.getElem?_singleton] at h
    split at h <;> cases h

/-- The code has `grab` for the arrows of the body that are outside all brackets. -/
theorem grabsAt_iff (hgrab : .grab ∉ declaration) (i : Nat) :
    GrabsAt declaration (ofDeclaration declaration) ((opening declaration).length + i) ↔
      (body declaration)[i]? = some .arrow ∧ depthFrom 0 ((body declaration).take i) = 0 := by
  unfold GrabsAt
  rw [Nat.add_sub_cancel_left]
  constructor
  · rintro ⟨_, hgrabbed⟩
    have hi := lt_length_of_grab hgrabbed
    rw [getElem?_ofDeclaration hi] at hgrabbed
    obtain ⟨tok, htok, hif⟩ := Option.map_eq_some_iff.mp hgrabbed
    split at hif
    · rename_i hboth
      exact ⟨hboth.1 ▸ htok, hboth.2⟩
    · exact absurd (hif ▸ List.mem_of_getElem? ((getElem?_body hi).trans htok)) hgrab
  · rintro ⟨harrow, hdepth⟩
    obtain ⟨hi, _⟩ := List.getElem?_eq_some_iff.mp harrow
    exact ⟨Nat.le_add_right _ _, by simp [getElem?_ofDeclaration hi, harrow, hdepth]⟩

/-! ## Brackets and scopes -/

/-- `depth` scopes are open above the scope of the parameters. -/
def Levels (wrapped : Bool) (depth : Nat) (scopes : List (ScopeKind × Nat)) : Prop :=
  ∃ inner count, scopes = inner ++ parameterScope wrapped count ∧ inner.length = depth ∧
    ∀ tally ∈ inner, tally.1 ≠ .decl

theorem levels_zero (wrapped : Bool) (count : Nat) : Levels wrapped 0 (parameterScope wrapped count) :=
  ⟨[], count, rfl, rfl, by simp⟩

theorem Levels.inParameterScope_iff (h : Levels wrapped depth scopes) :
    inParameterScope wrapped (shapes scopes) = true ↔ depth = 0 := by
  obtain ⟨inner, count, rfl, rfl, hinner⟩ := h
  cases inner with
  | nil =>
    cases wrapped with
    | true => simp [parameterScope, shapes, inParameterScope]
    | false => cases count <;> simp [parameterScope, shapes, inParameterScope]
  | cons tally inner =>
    obtain ⟨kind, n⟩ := tally
    have hkind := hinner (kind, n) List.mem_cons_self
    cases kind with
    | decl => simp at hkind
    | lam => simp [shapes, inParameterScope]
    | pi =>
      cases wrapped with
      | true => cases inner <;> simp [shapes, inParameterScope, parameterScope]
      | false =>
        simp only [shapes, List.cons_append, List.map_cons, List.length_cons, Nat.add_one_ne_zero, iff_false]
        cases List.map (fun tally => FrameShape.scope tally.1) (inner ++ parameterScope false count) <;>
          simp [inParameterScope]

/-- A token that is executed keeps the levels, if it does not close the parentheses around the whole. -/
theorem Levels.of_token (h : Levels wrapped depth scopes)
    (hclosing : wrapped = true → t.isClosing = true → 0 < depth) :
    Levels wrapped (t.depthAfter depth) (t.scopesAfter scopes) := by
  have hsame : Levels wrapped depth scopes := h
  obtain ⟨inner, count, rfl, rfl, hinner⟩ := h
  have hopened (kind : ScopeKind) (hkind : kind ≠ .decl) :
      Levels wrapped (inner.length + 1) ((kind, 0) :: (inner ++ parameterScope wrapped count)) :=
    ⟨(kind, 0) :: inner, count, rfl, rfl, by simpa [hkind] using hinner⟩
  have hclosed (hguard : wrapped = true → 0 < inner.length) :
      Levels wrapped (inner.length - 1) (inner ++ parameterScope wrapped count).tail := by
    cases inner with
    | nil =>
      cases wrapped with
      | true => exact absurd (hguard rfl) (Nat.lt_irrefl 0)
      | false => cases count <;> exact levels_zero false 0
    | cons tally inner => exact ⟨inner, count, rfl, rfl, fun x hx => hinner x (List.mem_cons_of_mem _ hx)⟩
  have hbound (hbinds : t.binds = true) (hdepth : t.depthAfter inner.length = inner.length) :
      Levels wrapped (t.depthAfter inner.length) (t.scopesAfter (inner ++ parameterScope wrapped count)) := by
    rw [hdepth]
    cases inner with
    | nil =>
      rw [List.nil_append, scopesAfter_parameterScope hbinds]
      exact levels_zero wrapped (count + 1)
    | cons tally inner =>
      refine ⟨(tally.1, tally.2 + 1) :: inner, count, ?_, rfl, by simpa using hinner⟩
      cases t <;> simp_all [Token.binds, Token.scopesAfter]
  cases t with
  | lparen => exact hopened .pi (by simp)
  | lbrack => exact hopened .lam (by simp)
  | rparen => exact hclosed fun hwrapped => hclosing hwrapped rfl
  | rbrack => exact hclosed fun hwrapped => hclosing hwrapped rfl
  | arrow => exact hbound rfl rfl
  | dot => exact hbound rfl rfl
  | grab => exact hbound rfl rfl
  | type | colon | id | ret | eof => exact hsame

/-- As long as something follows, no bracket closes the parentheses around the whole. -/
theorem exists_closedBy?_of_cons {inside : List Token} (h : closedBy? (depth + 1) (t :: ts) = some inside)
    (hne : ts ≠ []) : (t.isClosing = true → 0 < depth) ∧
      ∃ inside', closedBy? (t.depthAfter depth + 1) ts = some inside' := by
  rw [closedBy?_succ_cons] at h
  split at h
  · rw [if_neg (by simp [hne])] at h
    cases h
  · rename_i houtside
    obtain ⟨inside', hinside, _⟩ := Option.map_eq_some_iff.mp h
    exact ⟨fun hclosing => Nat.pos_of_ne_zero fun hzero => houtside ⟨hclosing, hzero⟩, inside', hinside⟩

/-- **While no name is a bracket, the open brackets count the scopes above that of the parameters.** -/
theorem Levels.of_tokens (hrest : rest ≠ []) : ∀ {reading : Bool} {depth : Nat} {scopes : List (ScopeKind × Nat)}
    {ts : List Token}, Levels wrapped depth scopes →
    (∀ name ∈ namesRead reading ts, name.isOpening = false ∧ name.isClosing = false) →
    (wrapped = true → ∃ inside, closedBy? (depth + 1) (ts ++ rest) = some inside) →
    Levels wrapped (depthFrom depth ts) (openAfter reading scopes ts)
  | _, _, _, [], h, _, _ => h
  | reading, depth, scopes, t :: ts, h, hnames, hclosed => by
    have hnext (hwrapped : wrapped = true) : (t.isClosing = true → 0 < depth) ∧
        ∃ inside, closedBy? (t.depthAfter depth + 1) (ts ++ rest) = some inside := by
      obtain ⟨inside, hinside⟩ := hclosed hwrapped
      exact exists_closedBy?_of_cons hinside (by simp [hrest])
    have hlevels : Levels wrapped (t.depthAfter depth) (if reading then scopes else t.scopesAfter scopes) := by
      cases reading with
      | false => exact h.of_token fun hwrapped => (hnext hwrapped).1
      | true =>
        obtain ⟨hopening, hclosing⟩ := hnames t (by simp [namesRead])
        simpa [Token.depthAfter, hopening, hclosing] using h
    exact hlevels.of_tokens hrest (fun name hname => hnames name (List.mem_append_right _ hname))
      fun hwrapped => (hnext hwrapped).2

/-! ## Plain names -/

/-- No token that the declaration reads as a name is an arrow, a colon or a bracket. -/
def PlainNames (declaration : List Token) : Prop :=
  ∀ name ∈ namesRead false declaration,
    name ≠ .arrow ∧ name ≠ .colon ∧ name.isOpening = false ∧ name.isClosing = false

instance (declaration : List Token) : Decidable (PlainNames declaration) :=
  inferInstanceAs (Decidable (∀ name ∈ namesRead false declaration, _))

theorem mem_namesRead : ∀ {reading : Bool} {ts : List Token} {i : Nat}, ts[i]? = some t →
    readsAfter reading (ts.take i) = true → t ∈ namesRead reading ts
  | _, [], _, h, _ => by simp at h
  | reading, u :: ts, 0, h, hreading => by
    obtain rfl : u = t := by simpa using h
    rw [show reading = true from hreading]
    simp [namesRead]
  | reading, u :: ts, i + 1, h, hreading =>
    List.mem_append_right _ (mem_namesRead (by simpa using h) (by simpa [readsAfter] using hreading))

/-- So arrows and colons are executed. -/
theorem PlainNames.executed (h : PlainNames declaration) {i : Nat} (ht : declaration[i]? = some t)
    (hkind : t = .arrow ∨ t = .colon) : readsAfter false (declaration.take i) = false := by
  cases hreads : readsAfter false (declaration.take i) with
  | false => rfl
  | true =>
    obtain ⟨harrow, hcolon, _⟩ := h t (mem_namesRead ht hreads)
    exact absurd hkind (by simp [harrow, hcolon])

/-- At a token that the code keeps, the open brackets count the scopes above that of the parameters. -/
theorem PlainNames.levels (h : PlainNames declaration) (i : Nat) :
    Levels (isWrapped declaration) (depthFrom 0 ((body declaration).take i))
      (openAfter false (parameterScope (isWrapped declaration) 0) ((body declaration).take i)) := by
  obtain ⟨ending, hdeclaration, _, hclosed⟩ := exists_ending declaration
  have hsplit := List.take_append_drop i (body declaration)
  obtain ⟨rest, hrest, hinside⟩ : ∃ rest, rest ≠ [] ∧ (isWrapped declaration = true →
      ∃ inside, closedBy? (0 + 1) ((body declaration).take i ++ rest) = some inside) := by
    cases hwrapped : isWrapped declaration with
    | false => exact ⟨[.ret], by simp, by simp⟩
    | true =>
      obtain ⟨rest, inside, hne, hinside⟩ := hclosed hwrapped
      exact ⟨(body declaration).drop i ++ rest, by simp [hne], fun _ => ⟨inside, by
        rw [← List.append_assoc, hsplit]; exact hinside⟩⟩
  refine (levels_zero _ 0).of_tokens hrest (fun name hname => ?_) hinside
  refine (h name ?_).2.2
  rw [hdeclaration, ← hsplit, List.append_assoc, List.append_assoc, namesRead_append, namesRead_append]
  refine List.mem_append_right _ (List.mem_append_left _ ?_)
  have hopening := readsAfter_opening declaration []
  rw [List.append_nil] at hopening
  rw [hopening]
  exact hname

/-- An arrow that the code keeps is executed, so it depends on the brackets whether it binds a parameter. -/
theorem PlainNames.bindsAt_iff (h : PlainNames declaration) {i : Nat} (hi : i < (body declaration).length) :
    BindsAt declaration ((opening declaration).length + i) ↔
      (body declaration)[i]? = some .arrow ∧ depthFrom 0 ((body declaration).take i) = 0 := by
  unfold BindsAt
  have hat := getElem?_body hi
  rw [hat]
  refine and_congr_right fun harrow => ?_
  rw [h.executed (hat.trans harrow) (.inl rfl), take_body (Nat.le_of_lt hi), openAfter_opening,
    (h.levels i).inParameterScope_iff]
  simp

/-- Behind the body an arrow stands for a name. -/
theorem PlainNames.not_bindsAt (h : PlainNames declaration) {i : Nat}
    (hi : (opening declaration).length + (body declaration).length ≤ i) : ¬BindsAt declaration i := by
  rintro ⟨harrow, hreads, _⟩
  obtain ⟨j, rfl, hcolon⟩ := colon_of_arrow hi harrow
  rw [List.take_add_one, hcolon, Option.toList_some, readsAfter_concat, h.executed hcolon (.inr rfl)] at hreads
  cases hreads

/-- **A declaration is faithful that reads no arrow, colon or bracket as a name.** -/
theorem PlainNames.faithful (h : PlainNames declaration) (hgrab : .grab ∉ declaration) : Faithful declaration := by
  intro i _
  rcases Nat.lt_or_ge i (opening declaration).length with hlt | hge
  · -- In front there is at most a parenthesis.
    exact ⟨fun hbinds => absurd hbinds.1 (ne_arrow_of_lt hlt), fun hgrabs => absurd hgrabs.1 (Nat.not_le_of_lt hlt)⟩
  · obtain ⟨j, rfl⟩ := Nat.exists_eq_add_of_le hge
    rw [grabsAt_iff hgrab]
    rcases Nat.lt_or_ge j (body declaration).length with hj | hj
    · exact h.bindsAt_iff hj
    · rw [List.getElem?_eq_none hj]
      exact iff_of_false (h.not_bindsAt (Nat.add_le_add_left hj _)) (by simp)

end Stepwise.Code
