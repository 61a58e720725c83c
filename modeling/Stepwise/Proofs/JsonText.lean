import Mathlib.Data.List.TakeWhile
import Stepwise.Json.Basic

/-!
# A JSON text has one value

Values with the same text are the same (`Json.render_inj`). The first character of a text tells what kind of value it
is (`Json.form_of_chars`), and where the text of a value ends shows in the text itself, but for a number, which goes on
for as long as there are digits. So the statement that goes through an induction is that a value *cancels* in front of
what does not begin with a digit (`Json.Cancels`): one lemma for each kind of value, put together by
`Json.Hereditary.value`. Inside quotes, an escaped character is read back whatever follows (`Json.unescape?_escape`).
-/

namespace Stepwise.Json

variable {α : Type} {c d : Char} {r r' : List Char}

/-! ## Quoted texts -/

/-- The characters with an escape of two characters, with the second of these. -/
def shortEscapes : List (Char × Char) :=
  [('"', '"'), ('\\', '\\'), ('\x08', 'b'), ('\t', 't'), ('\n', 'n'), ('\x0c', 'f'), ('\r', 'r')]

/-- A character stands for itself, or has a short or a long escape. -/
theorem escape_cases (c : Char) : (escape c = [c] ∧ c ≠ '"' ∧ c ≠ '\\') ∨
    (∃ letter, (c, letter) ∈ shortEscapes ∧ escape c = ['\\', letter]) ∨ (c.toNat < 0x20 ∧ escape c = hexEscape c) := by
  by_cases hshort : ∃ letter, (c, letter) ∈ shortEscapes
  · obtain ⟨letter, hmem⟩ := hshort
    have hescapes : ∀ e ∈ shortEscapes, escape e.1 = ['\\', e.2] := by decide
    exact .inr (.inl ⟨letter, hmem, hescapes _ hmem⟩)
  · simp only [shortEscapes, List.mem_cons, Prod.mk.injEq, List.not_mem_nil, or_false, exists_or, exists_and_left,
      exists_eq, and_true, not_or] at hshort
    obtain ⟨hquote, hbackslash, hb, ht, hn, hf, hr⟩ := hshort
    have hescape : escape c = if c.toNat < 0x20 then hexEscape c else [c] := by
      simp only [escape, hquote, hbackslash, hb, ht, hn, hf, hr, if_false]
    by_cases hlt : c.toNat < 0x20
    · exact .inr (.inr ⟨hlt, hescape.trans (if_pos hlt)⟩)
    · exact .inl ⟨hescape.trans (if_neg hlt), hquote, hbackslash⟩

/-- The hexadecimal digits, in order. -/
def hexDigits : List Char := "0123456789abcdef".toList

/-- Reads back what follows a backslash: a letter, and after a `u` four digits, the first two of which are zeros. -/
def readEscape? : List Char → Option (Char × List Char)
  | [] => none
  | letter :: rest =>
    if letter = 'u' then
      match rest with
      | _ :: _ :: high :: low :: rest => some (Char.ofNat (16 * hexDigits.idxOf high + hexDigits.idxOf low), rest)
      | _ => none
    else (shortEscapes.find? (·.2 = letter)).map fun e => (e.1, rest)

/-- Reads back one character of a quoted text, and gives what follows it. -/
def unescape? : List Char → Option (Char × List Char)
  | [] => none
  | c :: rest => if c = '\\' then readEscape? rest else some (c, rest)

theorem readEscape?_short {letter : Char} (hmem : (c, letter) ∈ shortEscapes) (r : List Char) :
    readEscape? (letter :: r) = some (c, r) := by
  have hletters : ∀ e ∈ shortEscapes, e.2 ≠ 'u' ∧ shortEscapes.find? (·.2 = e.2) = some e := by decide
  obtain ⟨hne, hfind⟩ := hletters _ hmem
  calc readEscape? (letter :: r)
      = (shortEscapes.find? (·.2 = letter)).map fun e => (e.1, r) := if_neg hne
    _ = some (c, r) := by rw [hfind]; rfl

theorem readEscape?_long (hlt : c.toNat < 0x20) (r : List Char) :
    readEscape? ((hexEscape c).tail ++ r) = some (c, r) := by
  have hdigits : ∀ n < 16, hexDigits.idxOf (Nat.digitChar n) = n := by decide
  have hcode : 16 * hexDigits.idxOf (Nat.digitChar (c.toNat / 16)) + hexDigits.idxOf (Nat.digitChar (c.toNat % 16))
      = c.toNat := by
    rw [hdigits _ (by omega), hdigits _ (by omega), Nat.div_add_mod]
  have hread : readEscape? ((hexEscape c).tail ++ r) = some (Char.ofNat (16 * hexDigits.idxOf (Nat.digitChar
      (c.toNat / 16)) + hexDigits.idxOf (Nat.digitChar (c.toNat % 16))), r) := rfl
  rw [hread, hcode, Char.ofNat_toNat]

/-- **A character is read back, whatever follows it.** -/
theorem unescape?_escape (c : Char) (r : List Char) : unescape? (escape c ++ r) = some (c, r) := by
  rcases escape_cases c with ⟨hescape, _, hc⟩ | ⟨letter, hmem, hescape⟩ | ⟨hlt, hescape⟩
  · rw [hescape]
    exact if_neg hc
  · rw [hescape]
    exact readEscape?_short hmem r
  · rw [hescape]
    exact readEscape?_long hlt r

theorem escape_append_inj (h : escape c ++ r = escape d ++ r') : c = d ∧ r = r' := by
  have hread := congrArg unescape? h
  rw [unescape?_escape, unescape?_escape] at hread
  simpa using hread

theorem escape_ne_quote (c : Char) (r r' : List Char) : escape c ++ r ≠ '"' :: r' := by
  rcases escape_cases c with ⟨hescape, hc, _⟩ | ⟨letter, _, hescape⟩ | ⟨_, hescape⟩
  · simp [hescape, hc]
  · simp [hescape]
  · simp [hescape, hexEscape]

/-- The first quote that is not escaped ends a quoted text. -/
theorem escaped_append_inj : ∀ {cs ds : List Char},
    cs.flatMap escape ++ '"' :: r = ds.flatMap escape ++ '"' :: r' → cs = ds ∧ r = r'
  | [], [], h => by simpa using h
  | [], d :: ds, h => by
    rw [List.flatMap_cons, List.append_assoc] at h
    exact absurd h.symm (escape_ne_quote d _ _)
  | c :: cs, [], h => by
    rw [List.flatMap_cons, List.append_assoc] at h
    exact absurd h (escape_ne_quote c _ _)
  | c :: cs, d :: ds, h => by
    rw [List.flatMap_cons, List.flatMap_cons, List.append_assoc, List.append_assoc] at h
    obtain ⟨rfl, hrest⟩ := escape_append_inj h
    obtain ⟨rfl, hr⟩ := escaped_append_inj hrest
    exact ⟨rfl, hr⟩

theorem quote_append_inj {s t : String} (h : (quote s).toList ++ r = (quote t).toList ++ r') : s = t ∧ r = r' := by
  simp only [quote, String.toList_ofList, List.cons_append, List.append_assoc, List.nil_append, List.cons.injEq,
    true_and] at h
  obtain ⟨hs, hr⟩ := escaped_append_inj h
  exact ⟨String.toList_inj.mp hs, hr⟩

/-! ## Cancellation -/

/-- What follows does not go on with a digit. -/
def Stops (r : List Char) : Prop := ∀ c ∈ r.head?, c.isDigit = false

/-- What begins with the text of `a` does not begin with the text of anything else, provided that no digit follows. -/
def Cancels (f : α → List Char) (a : α) : Prop :=
  ∀ (b : α) (r r' : List Char), Stops r → Stops r' → f a ++ r = f b ++ r' → a = b ∧ r = r'

theorem stops_nil : Stops [] := nofun

theorem stops_cons (hc : c.isDigit = false) : Stops (c :: r) := by
  intro d hd
  cases hd
  exact hc

theorem digits_append_inj {m n : Nat} (hr : Stops r) (hr' : Stops r')
    (h : Nat.toDigits 10 m ++ r = Nat.toDigits 10 n ++ r') : m = n ∧ r = r' := by
  have htake (k : Nat) {s : List Char} (hs : Stops s) :
      (Nat.toDigits 10 k ++ s).takeWhile Char.isDigit = Nat.toDigits 10 k := by
    have hstop : s.takeWhile Char.isDigit = [] := by
      cases s with
      | nil => rfl
      | cons c s => exact List.takeWhile_cons_of_neg (by simp [hs c rfl])
    rw [List.takeWhile_append_of_pos fun c hc => Nat.isDigit_of_mem_toDigits (by decide) (by decide) hc, hstop,
      List.append_nil]
  have hdigits : Nat.toDigits 10 m = Nat.toDigits 10 n := by rw [← htake m hr, h, htake n hr']
  obtain rfl : m = n := by rw [← Nat.ofDigitChars_ten_toDigits (n := m), hdigits, Nat.ofDigitChars_ten_toDigits]
  exact ⟨rfl, List.append_cancel_left h⟩

/-! ### Lists -/

/-- The texts of a list, each with a comma before it. -/
def tailText (f : α → List Char) (as : List α) : List Char := as.flatMap fun a => ',' :: f a

theorem intercalate_cons_eq (f : α → List Char) (a : α) (as : List α) :
    [','].intercalate ((a :: as).map f) = f a ++ tailText f as := by
  induction as generalizing a with
  | nil => simp [tailText]
  | cons b as ih =>
    rw [List.map_cons, List.map_cons, List.intercalate_cons_cons, ← List.map_cons, ih b]
    simp [tailText]

variable {f : α → List Char}

/-- What follows an item of a list is a comma or the bracket that closes the list. -/
theorem stops_tailText (hc : c.isDigit = false) (as : List α) (r : List Char) : Stops (tailText f as ++ c :: r) := by
  cases as with
  | nil => exact stops_cons hc
  | cons a as => exact stops_cons rfl

theorem tailText_append_inj (hdigit : c.isDigit = false) (hcomma : c ≠ ',') : ∀ {as bs : List α},
    (∀ a ∈ as, Cancels f a) → tailText f as ++ c :: r = tailText f bs ++ c :: r' → as = bs ∧ r = r'
  | [], [], _, h => ⟨rfl, by simpa [tailText] using h⟩
  | [], b :: bs, _, h => absurd (List.cons.inj h).1 hcomma
  | a :: as, [], _, h => absurd (List.cons.inj h).1.symm hcomma
  | a :: as, b :: bs, hcancels, h => by
    rw [List.forall_mem_cons] at hcancels
    simp only [tailText, List.flatMap_cons, List.cons_append, List.append_assoc, List.cons.injEq, true_and] at h
    obtain ⟨rfl, hrest⟩ := hcancels.1 b _ _ (stops_tailText hdigit as r) (stops_tailText hdigit bs r') h
    obtain ⟨rfl, hr⟩ := tailText_append_inj hdigit hcomma hcancels.2 hrest
    exact ⟨rfl, hr⟩

/-- **A list of texts that cancel, with commas between them and a bracket behind, cancels.** -/
theorem intercalate_append_inj {as bs : List α} (hdigit : c.isDigit = false) (hcomma : c ≠ ',')
    (hopen : ∀ a s s', f a ++ s ≠ c :: s') (hcancels : ∀ a ∈ as, Cancels f a)
    (h : [','].intercalate (as.map f) ++ c :: r = [','].intercalate (bs.map f) ++ c :: r') : as = bs ∧ r = r' := by
  cases as with
  | nil =>
    cases bs with
    | nil => simpa using h
    | cons b bs =>
      rw [intercalate_cons_eq, List.append_assoc] at h
      exact absurd h.symm (hopen b _ _)
  | cons a as =>
    rw [List.forall_mem_cons] at hcancels
    cases bs with
    | nil =>
      rw [intercalate_cons_eq, List.append_assoc] at h
      exact absurd h (hopen a _ _)
    | cons b bs =>
      rw [intercalate_cons_eq, intercalate_cons_eq, List.append_assoc, List.append_assoc] at h
      obtain ⟨rfl, hrest⟩ := hcancels.1 b _ _ (stops_tailText hdigit as r) (stops_tailText hdigit bs r') h
      obtain ⟨rfl, hr⟩ := tailText_append_inj hdigit hcomma hcancels.2 hrest
      exact ⟨rfl, hr⟩

/-! ## Values -/

/-- The kinds of values. -/
inductive Form where
  | null
  | bool
  | number
  | text
  | array
  | object

/-- The kind of value whose text begins with a character. -/
def Form.ofChar? (c : Char) : Option Form :=
  if c = 'n' then some null
  else if c = 't' ∨ c = 'f' then some bool
  else if c = '"' then some text
  else if c = '[' then some array
  else if c = '\x7b' then some object
  else if c.isDigit then some number
  else none

def form : Json → Form
  | null => .null
  | bool _ => .bool
  | nat _ => .number
  | str _ => .text
  | arr _ => .array
  | obj _ => .object

/-- The characters of the text of a value. -/
def chars (v : Json) : List Char := v.render.toList

theorem chars_nat (n : Nat) : (nat n).chars = Nat.toDigits 10 n := by
  rw [chars, render, Nat.toString_eq_repr, Nat.toList_repr]

theorem chars_str (s : String) : (str s).chars = (quote s).toList := by
  rw [chars, render]

theorem chars_arr (vs : List Json) : (arr vs).chars = '[' :: ([','].intercalate (vs.map chars) ++ [']']) := by
  have hitems : (fun v : Json => v.render.toList) = chars := rfl
  simp [← hitems, render, renderItems_eq_map, String.toList_intercalate, Function.comp_def]

/-- The text of a member of an object: its key, a colon and its value. -/
def memberChars (m : String × Json) : List Char := (quote m.1).toList ++ ':' :: m.2.chars

theorem chars_obj (ms : List (String × Json)) :
    (obj ms).chars = '\x7b' :: ([','].intercalate (ms.map memberChars) ++ ['\x7d']) := by
  have hmembers : (fun m : String × Json => (quote m.1).toList ++ ':' :: m.2.render.toList) = memberChars := rfl
  simp [← hmembers, chars, render, renderMembers_eq_map, String.toList_intercalate, Function.comp_def]

theorem Form.ofChar?_of_isDigit (h : c.isDigit = true) : Form.ofChar? c = some number := by
  have hne (d : Char) (hd : d.isDigit = false) : c ≠ d := fun hcd => by rw [hcd, hd] at h; cases h
  simp [Form.ofChar?, h, hne 'n' rfl, hne 't' rfl, hne 'f' rfl, hne '"' rfl, hne '[' rfl, hne '\x7b' rfl]

/-- The first character tells the kind of a value. -/
theorem form_of_chars (v : Json) (r : List Char) : (v.chars ++ r).head?.bind Form.ofChar? = some v.form := by
  cases v with
  | null => rfl
  | bool b => cases b <;> rfl
  | nat n =>
    obtain ⟨c, cs, hdigits⟩ := List.exists_cons_of_ne_nil (Nat.toDigits_ne_nil (b := 10) (n := n))
    have hdigit : c.isDigit = true :=
      Nat.isDigit_of_mem_toDigits (by decide) (by decide) (hdigits ▸ List.mem_cons_self)
    rw [chars_nat, hdigits]
    exact Form.ofChar?_of_isDigit hdigit
  | str s =>
    rw [chars_str, quote, String.toList_ofList]
    rfl
  | arr vs =>
    rw [chars_arr]
    rfl
  | obj ms =>
    rw [chars_obj]
    rfl

theorem form_eq_of_append {v w : Json} (h : v.chars ++ r = w.chars ++ r') : v.form = w.form := by
  have hform := form_of_chars v r
  rw [h, form_of_chars] at hform
  exact (Option.some.inj hform).symm

/-! ### One lemma for each kind -/

/-- A value has to be compared with values of its own kind only. -/
theorem cancels_of_form {v : Json} (h : ∀ w : Json, v.form = w.form → ∀ r r' : List Char, Stops r → Stops r' →
    v.chars ++ r = w.chars ++ r' → v = w ∧ r = r') : Cancels chars v :=
  fun w r r' hr hr' heq => h w (form_eq_of_append heq) r r' hr hr' heq

theorem cancels_null : Cancels chars null :=
  cancels_of_form fun
    | null, _ => fun _ _ _ _ h => ⟨rfl, List.append_cancel_left h⟩

theorem cancels_bool (b : Bool) : Cancels chars (bool b) :=
  cancels_of_form fun
    | bool b', _ => fun _ _ _ _ h => by cases b <;> cases b' <;> simp_all [chars, render]

theorem cancels_nat (n : Nat) : Cancels chars (nat n) :=
  cancels_of_form fun
    | nat m, _ => fun _ _ hr hr' h => by
      rw [chars_nat, chars_nat] at h
      obtain ⟨rfl, hrest⟩ := digits_append_inj hr hr' h
      exact ⟨rfl, hrest⟩

theorem cancels_str (s : String) : Cancels chars (str s) :=
  cancels_of_form fun
    | str t, _ => fun _ _ _ _ h => by
      rw [chars_str, chars_str] at h
      obtain ⟨rfl, hrest⟩ := quote_append_inj h
      exact ⟨rfl, hrest⟩

theorem cancels_arr {vs : List Json} (hvs : ∀ v ∈ vs, Cancels chars v) : Cancels chars (arr vs) :=
  cancels_of_form fun
    | arr ws, _ => fun _ _ _ _ h => by
      have hopen (v : Json) (s s' : List Char) : v.chars ++ s ≠ ']' :: s' := fun heq => by
        have hlead := form_of_chars v s
        rw [heq] at hlead
        cases hlead
      simp only [chars_arr, List.cons_append, List.append_assoc, List.nil_append, List.cons.injEq, true_and] at h
      obtain ⟨rfl, hrest⟩ := intercalate_append_inj rfl (by decide) hopen hvs h
      exact ⟨rfl, hrest⟩

/-- A member cancels if its value does. -/
theorem cancels_member {m : String × Json} (h : Cancels chars m.2) : Cancels memberChars m := by
  rintro ⟨key, v⟩ r r' hr hr' heq
  rw [memberChars, memberChars, List.append_assoc, List.append_assoc] at heq
  obtain ⟨hkey, hrest⟩ := quote_append_inj heq
  obtain ⟨hvalue, hend⟩ := h v r r' hr hr' (List.cons.inj hrest).2
  exact ⟨Prod.ext hkey hvalue, hend⟩

theorem cancels_obj {ms : List (String × Json)} (hms : ∀ m ∈ ms, Cancels chars m.2) : Cancels chars (obj ms) :=
  cancels_of_form fun
    | obj ns, _ => fun _ _ _ _ h => by
      have hopen (m : String × Json) (s s' : List Char) : memberChars m ++ s ≠ '\x7d' :: s' := by
        simp [memberChars, quote]
      simp only [chars_obj, List.cons_append, List.append_assoc, List.nil_append, List.cons.injEq, true_and] at h
      obtain ⟨rfl, hrest⟩ :=
        intercalate_append_inj rfl (by decide) hopen (fun m hm => cancels_member (hms m hm)) h
      exact ⟨rfl, hrest⟩

/-! ### All values -/

/-- The property passes from the items of an array and the values of an object to the whole. -/
structure Hereditary (P : Json → Prop) : Prop where
  null : P null
  bool : ∀ b, P (bool b)
  nat : ∀ n, P (nat n)
  str : ∀ s, P (str s)
  arr : ∀ {vs}, (∀ v ∈ vs, P v) → P (arr vs)
  obj : ∀ {ms : List (String × Json)}, (∀ m ∈ ms, P m.2) → P (obj ms)

mutual

/-- Such a property holds of every value. -/
theorem Hereditary.value {P : Json → Prop} (h : Hereditary P) : ∀ v, P v
  | .null => h.null
  | .bool b => h.bool b
  | .nat n => h.nat n
  | .str s => h.str s
  | .arr vs => h.arr (h.items vs)
  | .obj ms => h.obj (h.members ms)

theorem Hereditary.items {P : Json → Prop} (h : Hereditary P) : ∀ vs : List Json, ∀ v ∈ vs, P v
  | [] => nofun
  | v :: vs => List.forall_mem_cons.mpr ⟨h.value v, h.items vs⟩

theorem Hereditary.members {P : Json → Prop} (h : Hereditary P) : ∀ ms : List (String × Json), ∀ m ∈ ms, P m.2
  | [] => nofun
  | (_, v) :: ms => List.forall_mem_cons.mpr ⟨h.value v, h.members ms⟩

end

theorem hereditary_cancels : Hereditary (Cancels chars) where
  null := cancels_null
  bool := cancels_bool
  nat := cancels_nat
  str := cancels_str
  arr := cancels_arr
  obj := cancels_obj

/-- **Values with the same text are the same.** -/
theorem render_inj {v w : Json} : v.render = w.render ↔ v = w := by
  constructor
  · intro h
    exact (hereditary_cancels.value v w [] [] stops_nil stops_nil (by rw [chars, chars, h])).1
  · rintro rfl
    rfl

end Stepwise.Json
