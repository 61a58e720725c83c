import Stepwise.Proofs.Nesting

/-!
# Activations

The code of a constant works on an activation: its control, the scopes it has opened, the arguments it has captured and
the values it has pushed. Of its caller it sees only the values that it captures, so its run can be told without the
caller: `Eval` is the run of an activation, and lists the values captured on the way. Whatever state the call was made
in, the machine inside it makes exactly the runs of the activation (`State.eval_of_nested`, `State.nested_of_eval`).
-/

namespace Stepwise

structure Activation where
  current : Control
  /-- The scopes opened since the call, innermost first. -/
  scopes : List Scope := []
  /-- The arguments captured so far, the first one first. -/
  arguments : List Argument := []
  /-- The values pushed since the call, top first. -/
  values : List Value := []

namespace Activation

/-- The activation of a constant that was just called. -/
def start (entry : Nat) (c : Constant) : Activation where
  current := { pc := .code entry 0, program := c.program }

/-- The instruction to be executed next, which is in the code of a constant. -/
def fetch (σ : Signature) (a : Activation) : Option Token :=
  match a.current.pc with
  | .stream _ => none
  | .code entry offset => (σ[entry]?).bind fun c => c.code[offset]?

/-- The argument that a name refers to. -/
def argument? (a : Activation) (name : Name) : Option Argument := a.arguments.reverse.find? (·.name = some name)

/-- What a name refers to: a variable of the innermost scope that has it, an argument, or the newest constant. -/
def lookup (σ : Signature) (a : Activation) (name : Name) : Option State.Binding :=
  match a.scopes.findSome? (·.binder? name) with
  | some b => some (.variable b)
  | none =>
    match a.argument? name with
    | some x => some (.argument x)
    | none => (σ.newest? name).map fun found => .constant found.1 found.2

/-! ## Runs of an activation -/

/-- What a token does that is executed, neither entering nor leaving a constant. The list holds the value that it
captures from the caller, if it does. -/
inductive Rule (σ : Signature) (a : Activation) (pc : Address) : Token → List Value → Activation → Prop
  | type : Rule σ a pc .type [] { a with current.pc := pc, values := ⟨.type, .kind, none⟩ :: a.values }
  | colon : Rule σ a pc .colon [] { a with current.pc := pc, current.readingName := true }
  | openPi : Rule σ a pc .lparen [] { a with current.pc := pc, scopes := ⟨.pi, a.current.pc, []⟩ :: a.scopes }
  | openLam : Rule σ a pc .lbrack [] { a with current.pc := pc, scopes := ⟨.lam, a.current.pc, []⟩ :: a.scopes }
  | closePi {body : Value} {values : List Value} {scope : Scope} {scopes : List Scope}
      (hvalues : a.values = body :: values) (hsort : body.type.isSort = true) (hscopes : a.scopes = scope :: scopes)
      (hkind : scope.kind = .pi) :
      Rule σ a pc .rparen [] { a with
        current.pc := pc
        current.name := none
        scopes := scopes
        values := ⟨.pis scope.telescope body.term, body.type, a.current.name.or body.name⟩ :: values }
  | closeLam {body : Value} {values : List Value} {scope : Scope} {scopes : List Scope}
      (hvalues : a.values = body :: values) (hscopes : a.scopes = scope :: scopes) (hkind : scope.kind = .lam) :
      Rule σ a pc .rbrack [] { a with
        current.pc := pc
        current.name := none
        scopes := scopes
        values := ⟨.lams scope.telescope body.term, .pis scope.telescope body.type,
          a.current.name.or body.name⟩ :: values }
  | extend {t : Token} {v : Value} {values : List Value} {scope : Scope} {scopes : List Scope}
      (htoken : t = .arrow ∨ t = .dot) (hvalues : a.values = v :: values) (hsort : v.type.isSort = true)
      (hscopes : a.scopes = scope :: scopes) (hdecl : ¬(scope.kind = .decl ∧ t = .dot)) :
      Rule σ a pc t [] { a with
        current.pc := pc
        current.name := none
        scopes := scope.push ⟨a.current.name.or v.name, v.term, a.current.pc⟩ :: scopes
        values := values }
  | grab {t : Token} {parameter argument : Value} (htoken : t = .arrow ∨ t = .dot ∨ t = .grab)
      (hvalues : a.values = [parameter]) (hsort : parameter.type.isSort = true) (hscopes : a.scopes = [])
      (hmatch : argument.type.Matches parameter.term) :
      Rule σ a pc t [argument] { a with
        current.pc := pc
        current.name := none
        arguments := a.arguments ++
          [⟨a.current.name.or parameter.name, argument.term, argument.type, a.current.pc⟩]
        values := [] }
  | captured {name : Name} {x : Argument} (hlookup : a.lookup σ name = some (.argument x)) :
      Rule σ a pc (.id name) [] { a with current.pc := pc, values := ⟨x.term, x.type, none⟩ :: a.values }
  | bound {name : Name} {b : Binder} (hlookup : a.lookup σ name = some (.variable b)) :
      Rule σ a pc (.id name) [] { a with current.pc := pc, values := ⟨.var name [], b.type, none⟩ :: a.values }

/-- A move of the activation that neither enters nor leaves a constant. -/
inductive Step (σ : Signature) (a : Activation) : List Value → Activation → Prop
  | name {t : Token} {pc : Address} (hfetch : a.fetch σ = some t) (hreading : a.current.readingName = true)
      (hpc : a.current.pc.next? = some pc) (heof : t ≠ .eof) :
      Step σ a [] { a with current := ⟨pc, a.current.program, some t.text, false⟩ }
  | rule {t : Token} {pc : Address} {vs : List Value} {b : Activation} (hfetch : a.fetch σ = some t)
      (hreading : a.current.readingName = false) (hpc : a.current.pc.next? = some pc) (hrule : Rule σ a pc t vs b) :
      Step σ a vs b

/-- The activation is about to call the constant `c` at index `entry`. -/
structure Calls (σ : Signature) (a : Activation) (entry : Nat) (c : Constant) : Prop where
  reading : a.current.readingName = false
  names : ∃ name, a.fetch σ = some (.id name) ∧ a.lookup σ name = some (.constant entry c)

/-- The activation is about to return, and the type of the result is the term of `v`. -/
structure Returning (σ : Signature) (a : Activation) (v : Value) : Prop where
  fetch : a.fetch σ = some .ret
  reading : a.current.readingName = false
  scopes : a.scopes = []
  values : a.values = [v]
  sort : v.type.isSort = true

/-- What a call of `c` pushes that captures `vs` and ends with the value `v`. -/
def result (c : Constant) (vs : List Value) (v : Value) : Value := ⟨.const c.name (vs.map (·.term)), v.term, none⟩

/-- A run of so many moves of the machine, which leaves every constant that it enters and captures the listed values
from the caller. The calls that the activation makes capture their values from the activation. -/
inductive Eval (σ : Signature) : Nat → Activation → List Value → Activation → Prop
  | nil (a : Activation) : Eval σ 0 a [] a
  | step {n : Nat} {a b d : Activation} {vs ws : List Value} (hfirst : Step σ a vs b) (hrest : Eval σ n b ws d) :
      Eval σ (n + 1) a (vs ++ ws) d
  | call {m n : Nat} {a b d : Activation} {entry : Nat} {c : Constant} {vs ws rest : List Value} {v : Value}
      {pc : Address} (hcalls : a.Calls σ entry c) (hbody : Eval σ m (start entry c) vs b)
      (hreturning : b.Returning σ v) (hvalues : a.values = vs ++ rest) (hpc : a.current.pc.next? = some pc)
      (hrest : Eval σ n { a with current.pc := pc, values := result c vs v :: rest } ws d) :
      Eval σ (m + n + 2) a ws d

/-- An activation captures its arguments in order. -/
theorem Step.arguments_eq {σ : Signature} {a b : Activation} {vs : List Value} (h : Step σ a vs b) :
    b.arguments.map (fun x => (x.term, x.type)) =
      a.arguments.map (fun x => (x.term, x.type)) ++ vs.map (fun v => (v.term, v.type)) := by
  cases h with
  | name => simp
  | rule _ _ _ hrule => cases hrule <;> simp

theorem Eval.arguments_eq {σ : Signature} {n : Nat} {a b : Activation} {vs : List Value} (h : Eval σ n a vs b) :
    b.arguments.map (fun x => (x.term, x.type)) =
      a.arguments.map (fun x => (x.term, x.type)) ++ vs.map (fun v => (v.term, v.type)) := by
  induction h with
  | nil a => simp
  | step hfirst _ ih => rw [ih, hfirst.arguments_eq, List.map_append, List.append_assoc]
  | call _ _ _ _ _ _ _ ih => exact ih

theorem Eval.spine_eq {σ : Signature} {n entry : Nat} {c : Constant} {b : Activation} {vs : List Value}
    (h : Eval σ n (start entry c) vs b) : b.arguments.map (·.term) = vs.map (·.term) := by
  have hterms := congrArg (List.map Prod.fst) h.arguments_eq
  simpa [start, Function.comp_def] using hterms

theorem inCode_of_fetch {σ : Signature} {a : Activation} {t : Token} (h : a.fetch σ = some t) :
    a.current.pc.inCode = true := by
  unfold fetch at h
  split at h
  · cases h
  · rename_i hpc
    simp [hpc, Address.inCode]

end Activation

/-- The next instruction is in code if this one is. -/
theorem Address.inCode_of_next? {pc pc' : Address} (h : pc.next? = some pc') : pc'.inCode = pc.inCode := by
  unfold next? at h
  split at h
  · cases pc <;> cases h <;> rfl
  · cases h

theorem Activation.Step.inCode_eq {σ : Signature} {a b : Activation} {vs : List Value} (h : Step σ a vs b) :
    b.current.pc.inCode = a.current.pc.inCode := by
  cases h with
  | name _ _ hpc => exact Address.inCode_of_next? hpc
  | rule _ _ hpc hrule => cases hrule <;> exact Address.inCode_of_next? hpc

/-! ## The machine inside a call -/

namespace State

open Activation

/-- The state in which the constant `c`, called from `s`, has the activation `a`, and `rest` is what is left of the
stack of `s`. -/
def calling (s : State) (entry : Nat) (c : Constant) (rest : List Slot) (a : Activation) : State :=
  { s with
    current := a.current
    frames := a.scopes.map .scope ++ .call ⟨c.name, entry, s.current.pc, a.arguments⟩ :: s.frames
    stack := a.values.map .value ++ .saved s.current :: rest }

theorem enter_eq_calling (s : State) (entry : Nat) (c : Constant) :
    s.enter entry c = s.calling entry c s.stack (.start entry c) := rfl

variable {s t : State} {entry n : Nat} {c : Constant} {rest : List Slot} {a b : Activation} {vs : List Value}

theorem fetch_calling (hin : a.current.pc.inCode = true) :
    (s.calling entry c rest a).fetch = a.fetch s.signature := by
  unfold State.fetch Activation.fetch
  cases hpc : a.current.pc with
  | stream index => simp [hpc, Address.inCode] at hin
  | code entry offset => simp [calling, tokenAt?, hpc]

/-- A name is looked for in the innermost scopes, then in the frames below them. -/
theorem resolve_scopes (inCode : Bool) (name : Name) (frames : List Frame) : ∀ scopes : List Scope,
    resolve inCode name (scopes.map .scope ++ frames) =
      match scopes.findSome? (·.binder? name) with
      | some b => some (.variable b)
      | none => resolve inCode name frames
  | [] => rfl
  | sc :: scopes => by
    simp only [List.map_cons, List.cons_append, resolve, List.findSome?_cons]
    cases sc.binder? name with
    | some b => rfl
    | none => exact resolve_scopes inCode name frames scopes

theorem lookup_calling (hin : a.current.pc.inCode = true) (name : Name) :
    (s.calling entry c rest a).lookup name = a.lookup s.signature name := by
  unfold State.lookup Activation.lookup
  simp only [calling, hin, resolve_scopes, resolve, Call.argument?, Activation.argument?, if_true]
  cases a.scopes.findSome? (·.binder? name) with
  | some b => rfl
  | none => cases a.arguments.reverse.find? (·.name = some name) <;> rfl

theorem values_eq_cons {values : List Value} {k : Control} {v : Value} {rest' : List Slot}
    (h : values.map Slot.value ++ .saved k :: rest = .value v :: rest') :
    ∃ values', values = v :: values' ∧ rest' = values'.map .value ++ .saved k :: rest := by
  cases values with
  | nil => simp at h
  | cons w values' =>
    simp only [List.map_cons, List.cons_append, List.cons.injEq, Slot.value.injEq] at h
    exact ⟨values', by rw [h.1], h.2.symm⟩

theorem values_eq_saved {values : List Value} {k k' : Control} {rest' : List Slot}
    (h : values.map Slot.value ++ .saved k :: rest = .saved k' :: rest') : values = [] ∧ k' = k ∧ rest' = rest := by
  cases values with
  | nil =>
    simp only [List.map_nil, List.nil_append, List.cons.injEq, Slot.saved.injEq] at h
    exact ⟨rfl, h.1.symm, h.2.symm⟩
  | cons w values' => simp at h

theorem scopes_eq_cons {scopes : List Scope} {call : Call} {sc : Scope} {outer outer' : List Frame}
    (h : scopes.map Frame.scope ++ .call call :: outer = .scope sc :: outer') :
    ∃ scopes', scopes = sc :: scopes' ∧ outer' = scopes'.map .scope ++ .call call :: outer := by
  cases scopes with
  | nil => simp at h
  | cons sc' scopes' =>
    simp only [List.map_cons, List.cons_append, List.cons.injEq, Frame.scope.injEq] at h
    exact ⟨scopes', by rw [h.1], h.2.symm⟩

theorem scopes_eq_call {scopes : List Scope} {call call' : Call} {outer outer' : List Frame}
    (h : scopes.map Frame.scope ++ .call call :: outer = .call call' :: outer') :
    scopes = [] ∧ call' = call ∧ outer' = outer := by
  cases scopes with
  | nil =>
    simp only [List.map_nil, List.nil_append, List.cons.injEq, Frame.call.injEq] at h
    exact ⟨rfl, h.1.symm, h.2.symm⟩
  | cons sc' scopes' => simp at h

/-- A move inside a call is a step of the activation. -/
theorem step_of_within (hin : a.current.pc.inCode = true) (h : Within (s.calling entry c rest a) t) :
    ∃ vs rest' b, rest = vs.map .value ++ rest' ∧ t = s.calling entry c rest' b ∧ Step s.signature a vs b := by
  cases h with
  | name _ hfetch hreading hpc heof =>
    rw [fetch_calling hin] at hfetch
    exact ⟨[], rest, _, rfl, rfl, .name hfetch hreading hpc heof⟩
  | rule _ hfetch hreading hpc hrule =>
    rw [fetch_calling hin] at hfetch
    cases hrule with
    | type => exact ⟨[], rest, _, rfl, rfl, .rule hfetch hreading hpc .type⟩
    | colon => exact ⟨[], rest, _, rfl, rfl, .rule hfetch hreading hpc .colon⟩
    | openPi => exact ⟨[], rest, _, rfl, rfl, .rule hfetch hreading hpc .openPi⟩
    | openLam => exact ⟨[], rest, _, rfl, rfl, .rule hfetch hreading hpc .openLam⟩
    | closePi hstack hsort hframes hkind =>
      obtain ⟨values, hvalues, rfl⟩ := values_eq_cons hstack
      obtain ⟨scopes, hscopes, rfl⟩ := scopes_eq_cons hframes
      exact ⟨[], rest, _, rfl, rfl, .rule hfetch hreading hpc (.closePi hvalues hsort hscopes hkind)⟩
    | closeLam hstack hframes hkind =>
      obtain ⟨values, hvalues, rfl⟩ := values_eq_cons hstack
      obtain ⟨scopes, hscopes, rfl⟩ := scopes_eq_cons hframes
      exact ⟨[], rest, _, rfl, rfl, .rule hfetch hreading hpc (.closeLam hvalues hscopes hkind)⟩
    | extend htoken hstack hsort hframes hdecl =>
      obtain ⟨values, hvalues, rfl⟩ := values_eq_cons hstack
      obtain ⟨scopes, hscopes, rfl⟩ := scopes_eq_cons hframes
      exact ⟨[], rest, _, rfl, rfl, .rule hfetch hreading hpc (.extend htoken hvalues hsort hscopes hdecl)⟩
    | declare _ _ hframes => simp [calling] at hframes
    | define hpc' =>
      -- A declaration ends in the token stream, and the activation is in code.
      rw [show (s.calling entry c rest a).current.pc = a.current.pc from rfl] at hpc'
      simp [hpc', Address.inCode] at hin
    | @grab _ parameter argument caller rest' call outer htoken hstack hsort hframes hmatch =>
      obtain ⟨values, hvalues, hbelow⟩ := values_eq_cons hstack
      obtain ⟨rfl, rfl, rfl⟩ := values_eq_saved hbelow.symm
      obtain ⟨hscopes, rfl, rfl⟩ := scopes_eq_call hframes
      refine ⟨[argument], rest', { a with
        current.pc := _
        current.name := none
        arguments := a.arguments ++ [⟨a.current.name.or parameter.name, argument.term, argument.type, a.current.pc⟩]
        values := [] }, rfl, ?_, .rule hfetch hreading hpc (.grab htoken hvalues hsort hscopes hmatch)⟩
      simp [calling, hscopes, Call.push]
    | captured hlookup =>
      rw [lookup_calling hin] at hlookup
      exact ⟨[], rest, _, rfl, rfl, .rule hfetch hreading hpc (.captured hlookup)⟩
    | bound hlookup =>
      rw [lookup_calling hin] at hlookup
      exact ⟨[], rest, _, rfl, rfl, .rule hfetch hreading hpc (.bound hlookup)⟩

/-- A step of the activation is a move inside a call. -/
theorem within_of_step (herror : s.error = none) (h : Step s.signature a vs b) :
    Within (s.calling entry c (vs.map .value ++ rest) a) (s.calling entry c rest b) := by
  cases h with
  | name hfetch hreading hpc heof =>
    rw [← fetch_calling (inCode_of_fetch hfetch)] at hfetch
    exact .name herror hfetch hreading hpc heof
  | @rule t pc _ _ hfetch hreading hpc hrule =>
    have hin := inCode_of_fetch hfetch
    refine .rule herror ((fetch_calling hin).trans hfetch) hreading hpc ?_
    cases hrule with
    | type => exact .type
    | colon => exact .colon
    | openPi => exact .openPi
    | openLam => exact .openLam
    | closePi hvalues hsort hscopes hkind =>
      exact .closePi (by simp [calling, hvalues]) hsort (by simp [calling, hscopes]) hkind
    | closeLam hvalues hscopes hkind =>
      exact .closeLam (by simp [calling, hvalues]) (by simp [calling, hscopes]) hkind
    | extend htoken hvalues hsort hscopes hdecl =>
      exact .extend htoken (by simp [calling, hvalues]) hsort (by simp [calling, hscopes]) hdecl
    | @grab _ parameter argument htoken hvalues hsort hscopes hmatch =>
      have hstack : (s.calling entry c (.value argument :: rest) a).stack =
          .value parameter :: .saved s.current :: .value argument :: rest := by simp [calling, hvalues]
      have hframes : (s.calling entry c (.value argument :: rest) a).frames =
          .call ⟨c.name, entry, s.current.pc, a.arguments⟩ :: s.frames := by simp [calling, hscopes]
      have hgrab : State.Rule _ pc _ _ := .grab htoken hstack hsort hframes hmatch
      simpa [calling, hscopes, Call.push] using hgrab
    | captured hlookup => exact .captured (by rwa [lookup_calling hin])
    | bound hlookup => exact .bound (by rwa [lookup_calling hin])

theorem calls_calling (herror : s.error = none) (hin : a.current.pc.inCode = true) {e : Nat} {d : Constant} :
    (s.calling entry c rest a).Calls e d ↔ a.Calls s.signature e d := by
  constructor
  · rintro ⟨_, hreading, name, hfetch, hlookup⟩
    rw [fetch_calling hin] at hfetch
    rw [lookup_calling hin] at hlookup
    exact ⟨hreading, name, hfetch, hlookup⟩
  · rintro ⟨hreading, name, hfetch, hlookup⟩
    exact ⟨herror, hreading, name, (fetch_calling hin).trans hfetch, (lookup_calling hin name).trans hlookup⟩

/-- The machine leaves a constant when its activation is about to return; only the stack and the counter of the caller
are not as they were. -/
theorem leaves_calling (herror : s.error = none) (hin : a.current.pc.inCode = true) :
    Leaves (s.calling entry c rest a) t ↔ ∃ v pc, a.Returning s.signature v ∧ s.current.pc.next? = some pc ∧
      t = { s with
        current.pc := pc
        stack := .value ⟨.const c.name (a.arguments.map (·.term)), v.term, none⟩ :: rest } := by
  constructor
  · intro h
    cases h with
    | @intro v caller rest' call outer pc _ hfetch hreading hstack hsort hframes hpc =>
      rw [fetch_calling hin] at hfetch
      obtain ⟨values, hvalues, hbelow⟩ := values_eq_cons hstack
      obtain ⟨rfl, rfl, rfl⟩ := values_eq_saved hbelow.symm
      obtain ⟨hscopes, rfl, rfl⟩ := scopes_eq_call hframes
      exact ⟨v, pc, ⟨hfetch, hreading, hscopes, hvalues, hsort⟩, hpc, rfl⟩
  · rintro ⟨v, pc, ⟨hfetch, hreading, hscopes, hvalues, hsort⟩, hpc, rfl⟩
    have hstack : (s.calling entry c rest a).stack = .value v :: .saved s.current :: rest := by
      simp [calling, hvalues]
    have hframes : (s.calling entry c rest a).frames =
        .call ⟨c.name, entry, s.current.pc, a.arguments⟩ :: s.frames := by simp [calling, hscopes]
    have hret : (s.calling entry c rest a).fetch = some .ret := (fetch_calling hin).trans hfetch
    exact Leaves.intro (by exact herror) hret hreading hstack hsort hframes hpc

/-- Values on top of a stack whose first control is known are among the values above that control. -/
theorem values_eq_append : ∀ {vs values : List Value} {k : Control} {rest' : List Slot},
    values.map Slot.value ++ .saved k :: rest = vs.map .value ++ rest' →
    ∃ below, values = vs ++ below ∧ rest' = below.map .value ++ .saved k :: rest
  | [], values, k, rest', h => ⟨values, rfl, h.symm⟩
  | v :: vs, values, k, rest', h => by
    obtain ⟨values', rfl, h'⟩ := values_eq_cons h
    obtain ⟨below, rfl, rfl⟩ := values_eq_append h'.symm
    exact ⟨below, rfl, rfl⟩

/-- **A well-nested run inside a call is a run of the activation.** -/
theorem eval_of_nested {u : State} (h : Nested n u t) : ∀ {s : State} {entry : Nat} {c : Constant}
    {rest : List Slot} {a : Activation}, u = s.calling entry c rest a → s.error = none →
    a.current.pc.inCode = true →
    ∃ vs rest' b, rest = vs.map .value ++ rest' ∧ t = s.calling entry c rest' b ∧ Eval s.signature n a vs b ∧
      b.current.pc.inCode = true := by
  induction h with
  | nil u =>
    intro s entry c rest a hu _ hin
    exact ⟨[], rest, a, rfl, hu, .nil a, hin⟩
  | within hfirst _ ih =>
    intro s entry c rest a hu herror hin
    subst hu
    obtain ⟨vs, rest', b, rfl, hb, hstep⟩ := step_of_within hin hfirst
    obtain ⟨ws, rest'', d, rfl, hd, heval, hind⟩ := ih hb herror (hstep.inCode_eq.trans hin)
    exact ⟨vs ++ ws, rest'', d, by simp, hd, .step hstep heval, hind⟩
  | call henter _ hleave _ ihbody ihrest =>
    intro s entry c rest a hu herror hin
    subst hu
    obtain ⟨e, d, hcalls, rfl⟩ := henter
    obtain ⟨vs, rest', b, hstack, rfl, hbody, hinb⟩ := ihbody (enter_eq_calling _ _ _) herror rfl
    obtain ⟨v, pc, hreturning, hpc, rfl⟩ := (leaves_calling (by exact herror) hinb).mp hleave
    obtain ⟨below, hvalues, rfl⟩ := values_eq_append hstack
    have hin' : pc.inCode = true := (Address.inCode_of_next? hpc).trans hin
    obtain ⟨ws, rest'', b', rfl, hb', hrest, hin''⟩ := ihrest
      (show _ = s.calling entry c rest { a with current.pc := pc, values := result d vs v :: below } by
        simp [calling, result, hbody.spine_eq]) herror hin'
    exact ⟨ws, rest'', b', rfl, hb', .call ((calls_calling herror hin).mp hcalls) hbody hreturning hvalues hpc hrest,
      hin''⟩

/-- **A run of an activation is a well-nested run inside a call**, whatever state the call was made in. -/
theorem nested_of_eval {σ : Signature} (h : Eval σ n a vs b) : ∀ {s : State} {entry : Nat} {c : Constant}
    {rest : List Slot}, s.signature = σ → s.error = none → a.current.pc.inCode = true →
    Nested n (s.calling entry c (vs.map .value ++ rest) a) (s.calling entry c rest b) := by
  induction h with
  | nil a => exact fun _ _ _ => .nil _
  | step hfirst _ ih =>
    intro s entry c rest hσ herror hin
    subst hσ
    rw [List.map_append, List.append_assoc]
    exact .within (within_of_step herror hfirst) (ih rfl herror (hfirst.inCode_eq.trans hin))
  | @call m n a b d e f vs ws below v pc hcalls hbody hreturning hvalues hpc _ ihbody ihrest =>
    intro s entry c rest hσ herror hin
    subst hσ
    have hin' : pc.inCode = true := (Address.inCode_of_next? hpc).trans hin
    let caller := s.calling entry c (ws.map .value ++ rest) a
    let left := below.map .value ++ .saved s.current :: (ws.map .value ++ rest)
    have henter : Enters caller (caller.enter e f) := ⟨e, f, (calls_calling herror hin).mpr hcalls, rfl⟩
    have hstack : caller.stack = vs.map .value ++ left := by simp [caller, left, calling, hvalues]
    have hinner : Nested m (caller.enter e f) (caller.calling e f left b) := by
      rw [enter_eq_calling, hstack]
      exact ihbody rfl herror rfl
    refine .call henter hinner ?_ (ihrest rfl herror hin')
    refine (leaves_calling (s := caller) herror (inCode_of_fetch hreturning.fetch)).mpr ⟨v, pc, hreturning, hpc, ?_⟩
    simp [caller, left, calling, result, hbody.spine_eq]

end State

end Stepwise
