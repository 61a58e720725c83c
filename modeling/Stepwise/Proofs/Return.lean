import Stepwise.Proofs.Activation

/-!
# What a call leaves behind

A call that returns is a run of the activation of the constant (`Calls.returns_iff_eval`). Hence the caller finds its
control, the signature and its frames as they were, and in place of the captured values the result on its stack
(`returns_transparently`); and the result depends on the signature and the captured values alone
(`returns_alike`).
-/

namespace Stepwise.State

open Activation

variable {s s₁ s₂ t : State} {entry n k : Nat} {c : Constant}

/-- **The calls that return are the runs of activations that do**: the values captured come from the top of the stack of
the caller, and the result takes their place. -/
theorem Calls.returns_iff_eval (h : s.Calls entry c) : s.Returns n t ↔ ∃ m vs rest b v pc, n = m + 2 ∧
    Eval s.signature m (.start entry c) vs b ∧ b.Returning s.signature v ∧ s.stack = vs.map .value ++ rest ∧
    s.current.pc.next? = some pc ∧ t = { s with current.pc := pc, stack := .value (result c vs v) :: rest } := by
  rw [h.returns_iff]
  constructor
  · rintro ⟨m, u, rfl, hbody, hleave⟩
    obtain ⟨vs, rest, b, hstack, rfl, heval, hin⟩ := eval_of_nested hbody (enter_eq_calling s entry c) h.error rfl
    obtain ⟨v, pc, hreturning, hpc, rfl⟩ := (leaves_calling h.error hin).mp hleave
    refine ⟨m, vs, rest, b, v, pc, rfl, heval, hreturning, hstack, hpc, ?_⟩
    rw [heval.spine_eq]
    rfl
  · rintro ⟨m, vs, rest, b, v, pc, rfl, heval, hreturning, hstack, hpc, rfl⟩
    have hnested : Nested m (s.enter entry c) (s.calling entry c rest b) := by
      rw [enter_eq_calling, hstack]
      exact nested_of_eval heval rfl h.error rfl
    refine ⟨m, _, rfl, hnested, (leaves_calling h.error (inCode_of_fetch hreturning.fetch)).mpr ?_⟩
    refine ⟨v, pc, hreturning, hpc, ?_⟩
    rw [heval.spine_eq]
    rfl

theorem Calls.getElem?_eq (h : s.Calls entry c) : s.signature[entry]? = some c := by
  obtain ⟨name, _, hlookup⟩ := h.names
  exact (getElem?_of_lookup hlookup).1

/-! ## The caller after the call -/

/-- **A call that returns is transparent to its caller.** The control is that of the caller, one instruction on; the
signature and the frames are the same; and the stack has lost some values from its top, whose terms are the arguments of
the one value pushed, the top one first. -/
theorem returns_transparently (hcall : s.Calls entry c) (hreturn : s.Returns n t) :
    (∃ pc, s.current.pc.next? = some pc ∧ t.current = { s.current with pc }) ∧ t.signature = s.signature ∧
      t.frames = s.frames ∧ s.signature[entry]? = some c ∧
      ∃ (vs : List Value) (rest : List Slot) (classifier : Expr), s.stack = vs.map .value ++ rest ∧
        t.stack = .value ⟨.const c.name (vs.map (·.term)), classifier, none⟩ :: rest := by
  obtain ⟨m, vs, rest, b, v, pc, _, _, _, hstack, hpc, rfl⟩ := hcall.returns_iff_eval.mp hreturn
  exact ⟨⟨pc, hpc, rfl⟩, rfl, rfl, hcall.getElem?_eq, vs, rest, v.term, hstack, rfl⟩

/-- The code of `q`, called inside an open scope, calls `p` in turn. That call captures one value, the argument of `q`,
and below it is the control that the call of `q` saved. -/
theorem returns_transparently_inside_call :
    ∃ s t c, Reachable "type : o . ( o : x -> type ) : p . ( o : y -> y p ) : q . o : k . ( k q" s ∧ s.callDepth = 1 ∧
      s.Calls 1 c ∧ s.Returns 9 t ∧
      (∃ pc, s.current.pc.next? = some pc ∧ t.current = { s.current with pc }) ∧ t.signature = s.signature ∧
      t.frames = s.frames ∧ s.signature[1]? = some c ∧
      ∃ (vs : List Value) (rest : List Slot) (classifier : Expr), s.stack = vs.map .value ++ rest ∧
        t.stack = .value ⟨.const c.name (vs.map (·.term)), classifier, none⟩ :: rest := by
  let run := (ofText "type : o . ( o : x -> type ) : p . ( o : y -> y p ) : q . o : k . ( k q").after
  let s := (run 57).getD default
  let t := (run 66).getD default
  let c := s.signature.getD 1 default
  obtain ⟨hreachable, hdepth, hcalls, hreturns⟩ :
      run 57 = some s ∧ s.callDepth = 1 ∧ s.Calls 1 c ∧ s.Returns 9 t := by decide +kernel
  exact ⟨s, t, c, ⟨57, hreachable⟩, hdepth, hcalls, hreturns, returns_transparently hcalls hreturns⟩

/-! ## The same call from another state -/

/-- No list of instructions is longer than a machine word can count. -/
def Addressable (s : State) : Prop :=
  s.source.tokens.length ≤ maxWord ∧ ∀ c ∈ s.signature, c.code.length ≤ maxWord

instance (s : State) : Decidable s.Addressable := inferInstanceAs (Decidable (_ ∧ _))

/-- Then every address with an instruction has a next one. -/
theorem Addressable.exists_next? (h : s.Addressable) {tok : Token} (hfetch : s.fetch = some tok) :
    ∃ pc, s.current.pc.next? = some pc := by
  suffices hlt : s.current.pc.counter < maxWord by
    cases hnext : s.current.pc.next? with
    | some pc => exact ⟨pc, rfl⟩
    | none =>
      have := (Address.next?_eq_none_iff _).mp hnext
      omega
  unfold State.fetch tokenAt? at hfetch
  split at hfetch
  · rename_i index hpc
    obtain ⟨hlt, _⟩ := List.getElem?_eq_some_iff.mp hfetch
    have := h.1
    simp only [hpc, Address.counter]
    omega
  · rename_i entry offset hpc
    obtain ⟨c, hc, hcode⟩ := Option.bind_eq_some_iff.mp hfetch
    obtain ⟨hlt, _⟩ := List.getElem?_eq_some_iff.mp hcode
    have := h.2 c (List.mem_of_getElem? hc)
    simp only [hpc, Address.counter]
    omega

/-- **What a call returns depends on its arguments alone.** Two states call the constant at the same index of the same
signature, with the same values `args` on top of their stacks. If the call from the first returns after `n` steps,
having captured `k` of these values and pushed `v`, then so does the call from the second. -/
theorem returns_alike {c₁ c₂ : Constant} {t₁ : State} {args : List Value} {below₁ below₂ : List Slot} {v : Value}
    (hsignature : s₁.signature = s₂.signature) (hcall₁ : s₁.Calls entry c₁) (hcall₂ : s₂.Calls entry c₂)
    (haddressable : s₂.Addressable) (hstack₁ : s₁.stack = args.map .value ++ below₁)
    (hstack₂ : s₂.stack = args.map .value ++ below₂) (hreturn : s₁.Returns n t₁)
    (hcaptured : t₁.stack = .value v :: ((args.drop k).map .value ++ below₁)) :
    v.term = .const c₁.name ((args.take k).map (·.term)) ∧
      ∃ t₂, s₂.Returns n t₂ ∧ t₂.stack = .value v :: ((args.drop k).map .value ++ below₂) := by
  obtain rfl : c₁ = c₂ := by
    have h₁ := hcall₁.getElem?_eq
    rw [hsignature, hcall₂.getElem?_eq] at h₁
    exact (Option.some.inj h₁).symm
  obtain ⟨m, vs, rest, b, w, pc₁, rfl, heval, hreturning, hstack, _, rfl⟩ := hcall₁.returns_iff_eval.mp hreturn
  obtain ⟨hv, hrest⟩ : result c₁ vs w = v ∧ rest = (args.drop k).map .value ++ below₁ := by simpa using hcaptured
  -- Of the stack only `args` was used, so what was captured is its beginning.
  have hvs : vs = args.take k := by
    have hsame : vs.map Slot.value ++ rest = (args.take k).map .value ++ rest := by
      rw [← hstack, hstack₁, hrest, ← List.append_assoc, ← List.map_append, List.take_append_drop]
    exact (List.map_inj_right fun _ _ => Slot.value.inj).mp (List.append_cancel_right hsame)
  refine ⟨by rw [← hv, ← hvs]; rfl, ?_⟩
  obtain ⟨name, hfetch, _⟩ := hcall₂.names
  obtain ⟨pc₂, hpc₂⟩ := haddressable.exists_next? hfetch
  rw [hsignature] at heval hreturning
  have hsplit : s₂.stack = vs.map .value ++ ((args.drop k).map .value ++ below₂) := by
    rw [hstack₂, hvs, ← List.append_assoc, ← List.map_append, List.take_append_drop]
  exact ⟨_, hcall₂.returns_iff_eval.mpr ⟨m, vs, _, b, w, pc₂, rfl, heval, hreturning, hsplit, hpc₂, rfl⟩,
    by rw [hv]⟩

/-- The call of `p` that the code of `q` makes, and the same call from a program of one token, with nothing open and
another value below the argument. -/
theorem returns_alike_from_bare_state : ∃ (s₁ s₂ t₁ t₂ : State) (c : Constant) (x v : Value) (below₁ : List Slot),
    Reachable "type : o . ( o : x -> type ) : p . ( o : y -> y p ) : q . o : k . ( k q" s₁ ∧
      s₂.source.tokens = [.id "p"] ∧ s₂.frames = [] ∧ s₁.Calls 1 c ∧ s₂.Calls 1 c ∧
      s₁.stack = .value x :: below₁ ∧ s₂.stack = [.value x, .value ⟨.type, .kind, none⟩] ∧ s₁.Returns 9 t₁ ∧
      t₁.stack = .value v :: below₁ ∧ s₂.Returns 9 t₂ ∧ t₂.stack = [.value v, .value ⟨.type, .kind, none⟩] ∧
      v.term = .const c.name [x.term] := by
  let run := (ofText "type : o . ( o : x -> type ) : p . ( o : y -> y p ) : q . o : k . ( k q").after
  let s₁ := (run 57).getD default
  let t₁ := (run 66).getD default
  let c := s₁.signature.getD 1 default
  let x : Value := ⟨.const "k" [], .const "o" [], none⟩
  let v : Value := ⟨.const "p" [.const "k" []], .type, none⟩
  let s₂ : State :=
    { current := { pc := .stream 0, program := ⟨0, 0⟩ }
      signature := s₁.signature
      stack := [.value x, .value ⟨.type, .kind, none⟩]
      source := ⟨[.id "p"], [[.id "p"]]⟩ }
  obtain ⟨hreachable, hcall₁, hcall₂, haddressable, hstack₁, hreturn, hcaptured⟩ :
      run 57 = some s₁ ∧ s₁.Calls 1 c ∧ s₂.Calls 1 c ∧ s₂.Addressable ∧
        s₁.stack = [x].map .value ++ s₁.stack.tail ∧ s₁.Returns 9 t₁ ∧
        t₁.stack = .value v :: (([x].drop 1).map .value ++ s₁.stack.tail) := by decide +kernel
  obtain ⟨hterm, t₂, hreturn₂, hstack₂⟩ := returns_alike (show s₁.signature = s₂.signature from rfl) hcall₁ hcall₂
    haddressable hstack₁ rfl hreturn hcaptured
  exact ⟨s₁, s₂, t₁, t₂, c, x, v, s₁.stack.tail, ⟨57, hreachable⟩, rfl, rfl, hcall₁, hcall₂, hstack₁, rfl, hreturn,
    hcaptured, hreturn₂, hstack₂, hterm⟩

end Stepwise.State
