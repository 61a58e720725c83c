import Stepwise.Proofs.Contents
import Stepwise.Proofs.Freshness
import Stepwise.Proofs.History

/-!
# Variables and their scopes

A value may mention the variables of the scopes that are open when it is made. Closing a scope binds its variables in
the body, which is the value on top of the stack; but the stack is one for all scopes, and what lies below the body
stays as it is.

A variable is its name, and scoping is by name throughout: an occurrence belongs to whatever scope binds its name. So a
step is tidy (`Tidy`) when it closes no scope over a value that mentions a name which this scope binds and no scope
around it does. A name that a scope around it binds too may stay; from then on it is a variable of that scope, whichever
of the two it was read in (`values_in_scope_under_shadowing`).

As long as all steps are tidy, all that is mentioned on the stack and in the frames is bound by open scopes, and the
type of every constant is closed (`WellScoped`). `values_in_scope_iff` says that the tidy runs are those that keep all
values in scope, and those in which no name outlives the last scope that binds it; `constant_with_free_variable` says
that there are other runs.
-/

namespace Stepwise

namespace Expr

variable {e a b body : Expr} {n : Option Name} {name : Name} {es : List Expr}
  {binders : List (Option Name × Expr)} {bound bound' : List (Option Name)}

mutual

/-- The variables that occur free. A binder binds its name in its body, not in its domain. -/
def free : Expr → List Name
  | type => []
  | kind => []
  | pi n a b => free a ++ (free b).filter (some · ≠ n)
  | lam n a b => free a ++ (free b).filter (some · ≠ n)
  | const _ spine => freeSpine spine
  | var name spine => name :: freeSpine spine

def freeSpine : List Expr → List Name
  | [] => []
  | e :: es => free e ++ freeSpine es

end

/-- Every free variable is among the names bound. -/
def Scoped (bound : List (Option Name)) (e : Expr) : Prop := ∀ x ∈ e.free, some x ∈ bound

theorem Scoped.mono (h : e.Scoped bound) (hbound : bound ⊆ bound') : e.Scoped bound' := fun x hx => hbound (h x hx)

theorem scoped_type : type.Scoped bound := fun _ hx => nomatch hx

theorem scoped_kind : kind.Scoped bound := fun _ hx => nomatch hx

theorem scoped_pi : (pi n a b).Scoped bound ↔ a.Scoped bound ∧ b.Scoped (n :: bound) := by
  simp only [Scoped, free, List.forall_mem_append, List.mem_filter, decide_eq_true_eq, List.mem_cons]
  refine and_congr_right fun _ => forall_congr' fun x => ?_
  rw [and_imp]
  exact imp_congr_right fun _ => or_iff_not_imp_left.symm

theorem scoped_lam : (lam n a b).Scoped bound ↔ a.Scoped bound ∧ b.Scoped (n :: bound) := scoped_pi

theorem scoped_var : (var name []).Scoped bound ↔ some name ∈ bound := by simp [Scoped, free, freeSpine]

theorem freeSpine_eq (es : List Expr) : freeSpine es = es.flatMap free := by
  induction es with
  | nil => rfl
  | cons e es ih => rw [freeSpine, ih, List.flatMap_cons]

theorem scoped_const (h : ∀ e ∈ es, e.Scoped bound) : (const name es).Scoped bound := by
  intro x hx
  rw [free, freeSpine_eq, List.mem_flatMap] at hx
  obtain ⟨e, he, hx⟩ := hx
  exact h e he x hx

/-! ## Telescopes -/

/-- The type of each binder is in scope of the binders before it. -/
def TelescopeScoped : List (Option Name) → List (Option Name × Expr) → Prop
  | _, [] => True
  | bound, b :: binders => b.2.Scoped bound ∧ TelescopeScoped (b.1 :: bound) binders

theorem TelescopeScoped.concat (hbinders : TelescopeScoped bound binders)
    (ha : a.Scoped (binders.map (·.1) ++ bound)) : TelescopeScoped bound (binders ++ [(n, a)]) := by
  induction binders generalizing bound with
  | nil => exact ⟨ha, trivial⟩
  | cons b binders ih => exact ⟨hbinders.1, ih hbinders.2 (ha.mono List.perm_middle.symm.subset)⟩

theorem TelescopeScoped.mem (hbinders : TelescopeScoped bound binders) {b : Option Name × Expr} (hb : b ∈ binders) :
    b.2.Scoped (binders.map (·.1) ++ bound) := by
  induction binders generalizing bound with
  | nil => cases hb
  | cons c binders ih =>
    rcases List.mem_cons.mp hb with rfl | hb
    · exact hbinders.1.mono fun x hx => List.mem_append_right _ hx
    · exact (ih hbinders.2 hb).mono List.perm_middle.subset

/-- Binding the variables of a telescope takes them out of the free ones. -/
theorem scoped_pis (hbinders : TelescopeScoped bound binders) (hbody : body.Scoped (binders.map (·.1) ++ bound)) :
    (pis binders body).Scoped bound := by
  induction binders generalizing bound with
  | nil => exact hbody
  | cons b binders ih =>
    exact scoped_pi.mpr ⟨hbinders.1, ih hbinders.2 (hbody.mono List.perm_middle.symm.subset)⟩

theorem scoped_lams (hbinders : TelescopeScoped bound binders) (hbody : body.Scoped (binders.map (·.1) ++ bound)) :
    (lams binders body).Scoped bound := by
  induction binders generalizing bound with
  | nil => exact hbody
  | cons b binders ih =>
    exact scoped_lam.mpr ⟨hbinders.1, ih hbinders.2 (hbody.mono List.perm_middle.symm.subset)⟩

theorem free_eq_nil (h : e.Scoped []) : e.free = [] :=
  List.eq_nil_iff_forall_not_mem.mpr fun x hx => nomatch h x hx

end Expr

open Stepwise.Expr

/-- The variables that occur free in what a slot holds. -/
def Slot.free : Slot → List Name
  | value v => v.term.free ++ v.type.free
  | saved _ => []

def Slot.Scoped (bound : List (Option Name)) (slot : Slot) : Prop := ∀ x ∈ slot.free, some x ∈ bound

theorem Slot.scoped_value {bound : List (Option Name)} {v : Value} :
    (value v).Scoped bound ↔ v.term.Scoped bound ∧ v.type.Scoped bound := List.forall_mem_append

theorem Slot.scoped_saved {bound : List (Option Name)} {k : Control} : (saved k).Scoped bound := fun _ hx => nomatch hx

/-- The variables that occur free in what a frame holds: in the types of its variables, or in its arguments. -/
def Frame.free : Frame → List Name
  | scope sc => sc.binders.flatMap (·.type.free)
  | call c => c.arguments.flatMap fun a => a.term.free ++ a.type.free

namespace State

variable {s t : State} {text : String} {n : Nat} {x : Name}

/-! ## Values in scope -/

/-- The names that the open scopes bind. -/
def boundNames (s : State) : List (Option Name) := s.frames.flatMap Frame.names

/-- The values mention variables of open scopes only. -/
def InScope (s : State) : Prop := ∀ slot ∈ s.stack, slot.Scoped s.boundNames

/-- The scope that the step from `s` to `t` closes. -/
def closed? (s t : State) : Option Scope :=
  match s.frames with
  | .scope sc :: outer => if outer = t.frames then some sc else none
  | _ => none

/-- If the step closes a scope, then what it leaves on the stack below the body mentions a variable of that scope only
if a scope around it binds the same name. -/
def Tidy (s t : State) : Prop :=
  ∀ sc ∈ s.closed? t, ∀ slot ∈ s.stack.tail, ∀ x ∈ slot.free, some x ∈ (Frame.scope sc).names → some x ∈ t.boundNames

/-- The first `n` steps from `s` are tidy. -/
def TidyRun (s : State) (n : Nat) : Prop := ∀ m < n, ∀ u ∈ s.after m, ∀ t ∈ u.after 1, u.Tidy t

/-- The variables that occur free on the stack and in the frames. -/
def mentioned (s : State) : List Name := s.stack.flatMap Slot.free ++ s.frames.flatMap Frame.free

/-- The step from `s` to `t` closes a scope that binds the name `x`, and there is still a variable of this name. -/
def Outlives (x : Name) (s t : State) : Prop :=
  ∃ sc ∈ s.closed? t, some x ∈ (Frame.scope sc).names ∧ x ∈ t.mentioned

instance (s : State) : Decidable s.InScope :=
  inferInstanceAs (Decidable (∀ slot ∈ s.stack, ∀ x ∈ slot.free, some x ∈ s.boundNames))

instance (s t : State) : Decidable (s.Tidy t) :=
  inferInstanceAs (Decidable (∀ sc ∈ s.closed? t, ∀ slot ∈ s.stack.tail, ∀ x ∈ slot.free,
    some x ∈ (Frame.scope sc).names → some x ∈ t.boundNames))

instance (s : State) (n : Nat) : Decidable (s.TidyRun n) :=
  inferInstanceAs (Decidable (∀ m < n, ∀ u ∈ s.after m, ∀ t ∈ u.after 1, u.Tidy t))

instance (x : Name) (s t : State) : Decidable (Outlives x s t) :=
  inferInstanceAs (Decidable (∃ sc ∈ s.closed? t, some x ∈ (Frame.scope sc).names ∧ x ∈ t.mentioned))

theorem closed?_eq_some {sc : Scope} : s.closed? t = some sc ↔ s.frames = .scope sc :: t.frames := by
  unfold closed?
  split
  · rename_i hframes
    simp only [hframes, List.cons.injEq, Frame.scope.injEq]
    split <;> simp_all
  · rename_i hframes
    exact ⟨nofun, fun h => absurd h (hframes _ _)⟩

/-- A tidy step that closes a scope leaves values in scope below the body. -/
theorem Tidy.scoped_tail (htidy : s.Tidy t) {sc : Scope} (hframes : s.frames = .scope sc :: t.frames)
    (hs : s.InScope) : ∀ slot ∈ s.stack.tail, slot.Scoped t.boundNames := by
  intro slot hslot x hx
  have hbound := hs slot (List.mem_of_mem_tail hslot) x hx
  rw [boundNames, hframes, List.flatMap_cons, List.mem_append] at hbound
  rcases hbound with hsc | houter
  · exact htidy sc (closed?_eq_some.mpr hframes) slot hslot x hx hsc
  · exact houter

/-! ## Frames in scope -/

/-- Each variable has a type in scope of the variables before it, and each argument is in scope of the frames around its
call. -/
def FramesScoped : List Frame → Prop
  | [] => True
  | .scope sc :: outer => TelescopeScoped (outer.flatMap Frame.names) sc.telescope ∧ FramesScoped outer
  | .call c :: outer =>
    (∀ a ∈ c.arguments, a.term.Scoped (outer.flatMap Frame.names) ∧ a.type.Scoped (outer.flatMap Frame.names)) ∧
      FramesScoped outer

theorem FramesScoped.scoped_variable {sc : Scope} {b : Binder} (hb : b ∈ sc.binders) : ∀ {frames : List Frame},
    FramesScoped frames → .scope sc ∈ frames → b.type.Scoped (frames.flatMap Frame.names)
  | .scope sc' :: outer, h, hsc => by
    rw [List.flatMap_cons]
    rcases List.mem_cons.mp hsc with hsc | hsc
    · cases hsc
      exact h.1.mem (List.mem_map.mpr ⟨b, hb, rfl⟩)
    · exact (scoped_variable hb h.2 hsc).mono (List.subset_append_right _ _)
  | .call _ :: outer, h, hsc => by
    have houter : b.type.Scoped (outer.flatMap Frame.names) :=
      scoped_variable hb h.2 ((List.mem_cons.mp hsc).resolve_left nofun)
    exact houter

theorem FramesScoped.scoped_argument {c : Call} {a : Argument} (ha : a ∈ c.arguments) : ∀ {frames : List Frame},
    FramesScoped frames → .call c ∈ frames →
      a.term.Scoped (frames.flatMap Frame.names) ∧ a.type.Scoped (frames.flatMap Frame.names)
  | .scope _ :: outer, h, hc => by
    have houter := scoped_argument ha h.2 ((List.mem_cons.mp hc).resolve_left nofun)
    rw [List.flatMap_cons]
    exact ⟨houter.1.mono (List.subset_append_right _ _), houter.2.mono (List.subset_append_right _ _)⟩
  | .call c' :: outer, h, hc => by
    rcases List.mem_cons.mp hc with hc | hc
    · cases hc
      exact h.1 a ha
    · have houter : a.term.Scoped (outer.flatMap Frame.names) ∧ a.type.Scoped (outer.flatMap Frame.names) :=
        scoped_argument ha h.2 hc
      exact houter

/-- All that is mentioned in the frames is bound by them. -/
theorem FramesScoped.mem_names {frames : List Frame} (h : FramesScoped frames)
    (hx : x ∈ frames.flatMap Frame.free) : some x ∈ frames.flatMap Frame.names := by
  obtain ⟨frame, hframe, hx⟩ := List.mem_flatMap.mp hx
  cases frame with
  | scope sc =>
    obtain ⟨b, hb, hx⟩ := List.mem_flatMap.mp hx
    exact h.scoped_variable hb hframe x hx
  | call c =>
    obtain ⟨a, ha, hx⟩ := List.mem_flatMap.mp hx
    obtain ⟨hterm, htype⟩ := h.scoped_argument ha hframe
    rcases List.mem_append.mp hx with hx | hx
    · exact hterm x hx
    · exact htype x hx

theorem mem_names_of_mem {sc : Scope} {b : Binder} {frames : List Frame} (hsc : .scope sc ∈ frames)
    (hb : b ∈ sc.binders) (hx : b.name = some x) : some x ∈ frames.flatMap Frame.names := by
  refine List.mem_flatMap.mpr ⟨_, hsc, ?_⟩
  rw [Frame.names, Scope.telescope, List.map_map]
  exact List.mem_map.mpr ⟨b, hb, hx⟩

/-! ## Every tidy step keeps everything in scope -/

/-- What tidy steps keep. -/
structure WellScoped (s : State) : Prop where
  values : s.InScope
  frames : FramesScoped s.frames
  types : ∀ c ∈ s.signature, c.type.free = []

theorem WellScoped.bound_of_mentioned (h : s.WellScoped) (hx : x ∈ s.mentioned) : some x ∈ s.boundNames := by
  rcases List.mem_append.mp hx with hstack | hframes
  · obtain ⟨slot, hslot, hx⟩ := List.mem_flatMap.mp hstack
    exact h.values slot hslot x hx
  · exact h.frames.mem_names hframes

theorem scoped_of_isSort {e : Expr} {bound : List (Option Name)} (h : e.isSort = true) : e.Scoped bound := by
  rcases isSort_iff.mp h with rfl | rfl
  · exact scoped_type
  · exact scoped_kind

theorem Rule.wellScoped {pc : Address} {tok : Token} (h : Rule s pc tok t) (hdisciplined : s.Disciplined)
    (htidy : s.Tidy t) (hs : s.WellScoped) : t.WellScoped := by
  have htail (sc : Scope) (hclosed : s.frames = .scope sc :: t.frames) := htidy.scoped_tail hclosed hs.values
  obtain ⟨hvalues, hframes, htypes⟩ := hs
  unfold InScope boundNames at hvalues htail
  cases h with
  | type =>
    exact ⟨List.forall_mem_cons.mpr ⟨Slot.scoped_value.mpr ⟨scoped_type, scoped_kind⟩, hvalues⟩, hframes, htypes⟩
  | colon => exact ⟨hvalues, hframes, htypes⟩
  | openPi => exact ⟨hvalues, ⟨trivial, hframes⟩, htypes⟩
  | openLam => exact ⟨hvalues, ⟨trivial, hframes⟩, htypes⟩
  | @closePi body rest scope outer hstack hsort hf _ =>
    rw [hstack] at hvalues htail
    -- The body loses the variables of the scope; only the values below it need the step to be tidy.
    have hrest := htail scope hf
    rw [hf] at hvalues hframes
    obtain ⟨hbody, _⟩ := Slot.scoped_value.mp (hvalues _ List.mem_cons_self)
    refine ⟨List.forall_mem_cons.mpr ⟨Slot.scoped_value.mpr ⟨?_, scoped_of_isSort hsort⟩, hrest⟩, hframes.2, htypes⟩
    exact scoped_pis hframes.1 hbody
  | @closeLam body rest scope outer hstack hf _ =>
    rw [hstack] at hvalues htail
    have hrest := htail scope hf
    rw [hf] at hvalues hframes
    obtain ⟨hterm, htype⟩ := Slot.scoped_value.mp (hvalues _ List.mem_cons_self)
    refine ⟨List.forall_mem_cons.mpr ⟨Slot.scoped_value.mpr ⟨?_, ?_⟩, hrest⟩, hframes.2, htypes⟩
    · exact scoped_lams hframes.1 hterm
    · exact scoped_pis hframes.1 htype
  | @extend _ v rest scope outer _ hstack _ hf _ =>
    rw [hstack, hf] at hvalues
    rw [hf] at hframes
    obtain ⟨hv, hrest⟩ := List.forall_mem_cons.mp hvalues
    refine ⟨fun slot hslot x hx => ?_, ⟨?_, hframes.2⟩, htypes⟩
    · have hx := hrest slot hslot x hx
      rw [List.flatMap_cons, List.mem_append] at hx
      rw [boundNames, List.flatMap_cons, List.mem_append, Frame.names, Scope.telescope_push, List.map_append,
        List.mem_append]
      exact hx.imp_left .inl
    · rw [Scope.telescope_push]
      exact hframes.1.concat (Slot.scoped_value.mp hv).1
  | @declare v rest hstack _ hf =>
    rw [hstack, hf] at hvalues
    obtain ⟨hv, hrest⟩ := List.forall_mem_cons.mp hvalues
    refine ⟨fun slot hslot x hx => ?_, ⟨⟨(Slot.scoped_value.mp hv).1, trivial⟩, trivial⟩, htypes⟩
    cases hrest slot hslot x hx
  | @define v rest binders outer index _ hstack _ hf _ =>
    rw [hstack] at hvalues htail
    -- No scope is left around the declaration that could bind a variable of its type.
    obtain ⟨rfl, _⟩ := hdisciplined.outer_eq_nil hf
    have hnew : (pis binders v.term).Scoped [] ∧ ∀ slot ∈ rest, slot.Scoped [] := by
      generalize s.frames = frames at hf hframes hvalues htail
      obtain ⟨hv, hrest⟩ := List.forall_mem_cons.mp hvalues
      cases hf with
      | plain => exact ⟨(Slot.scoped_value.mp hv).1, hrest⟩
      | scope => exact ⟨scoped_pis hframes.1 (Slot.scoped_value.mp hv).1, htail _ rfl⟩
    exact ⟨hnew.2, trivial, List.forall_mem_append.mpr ⟨htypes, List.forall_mem_singleton.mpr (free_eq_nil hnew.1)⟩⟩
  | @grab _ parameter argument caller rest call outer _ hstack _ hf _ =>
    rw [hstack, hf] at hvalues
    rw [hf] at hframes
    obtain ⟨_, hvalues⟩ := List.forall_mem_cons.mp hvalues
    obtain ⟨hsaved, hvalues⟩ := List.forall_mem_cons.mp hvalues
    obtain ⟨hargument, hrest⟩ := List.forall_mem_cons.mp hvalues
    refine ⟨List.forall_mem_cons.mpr ⟨hsaved, hrest⟩, ⟨?_, hframes.2⟩, htypes⟩
    exact List.forall_mem_append.mpr ⟨hframes.1, List.forall_mem_singleton.mpr (Slot.scoped_value.mp hargument)⟩
  | captured hlookup =>
    obtain ⟨call, hcall, ha⟩ := mem_of_lookup_argument hlookup
    have hargument := hframes.scoped_argument ha hcall
    exact ⟨List.forall_mem_cons.mpr ⟨Slot.scoped_value.mpr hargument, hvalues⟩, hframes, htypes⟩
  | bound hlookup =>
    obtain ⟨sc, hsc, hb, hname⟩ := mem_of_lookup_variable hlookup
    have hvar := scoped_var.mpr (mem_names_of_mem hsc hb hname)
    have htype := hframes.scoped_variable hb hsc
    exact ⟨List.forall_mem_cons.mpr ⟨Slot.scoped_value.mpr ⟨hvar, htype⟩, hvalues⟩, hframes, htypes⟩

theorem Move.wellScoped (h : Move s t) (hdisciplined : s.Disciplined) (htidy : s.Tidy t) (hs : s.WellScoped) :
    t.WellScoped := by
  cases h with
  | within h =>
    cases h with
    | name => exact ⟨hs.values, hs.frames, hs.types⟩
    | rule _ _ _ _ hrule => exact hrule.wellScoped hdisciplined htidy hs
  | enter h =>
    obtain ⟨entry, c, _, rfl⟩ := h
    exact ⟨List.forall_mem_cons.mpr ⟨Slot.scoped_saved, hs.values⟩, ⟨by simp, hs.frames⟩, hs.types⟩
  | leave h =>
    cases h with
    | @intro result caller rest call outer _ _ _ _ hstack _ hf =>
      obtain ⟨hvalues, hframes, htypes⟩ := hs
      unfold InScope boundNames at hvalues
      rw [hstack, hf] at hvalues
      rw [hf] at hframes
      obtain ⟨hresult, hvalues⟩ := List.forall_mem_cons.mp hvalues
      obtain ⟨_, hrest⟩ := List.forall_mem_cons.mp hvalues
      have hspine : ∀ e ∈ call.spine, e.Scoped (outer.flatMap Frame.names) := by
        intro e he
        obtain ⟨a, ha, rfl⟩ := List.mem_map.mp he
        exact (hframes.1 a ha).1
      refine ⟨List.forall_mem_cons.mpr ⟨Slot.scoped_value.mpr ⟨scoped_const hspine, ?_⟩, hrest⟩, hframes.2, htypes⟩
      exact (Slot.scoped_value.mp hresult).1

theorem WellScoped.of_step (hs : s.WellScoped) (hdisciplined : s.Disciplined) (h : s.step = .ok (some t))
    (htidy : s.Tidy t) : t.WellScoped := by
  rcases step_cases h with hmove | ⟨_, e, rfl⟩
  · exact hmove.wellScoped hdisciplined htidy hs
  · exact ⟨hs.values, hs.frames, hs.types⟩

theorem after_one_eq_some : s.after 1 = some t ↔ s.step = .ok (some t) := by
  simp [after_succ]

theorem TidyRun.of_le {m : Nat} (h : s.TidyRun n) (hle : m ≤ n) : s.TidyRun m :=
  fun k hk => h k (Nat.lt_of_lt_of_le hk hle)

/-- **Tidy steps keep everything in scope.** -/
theorem wellScoped_of_tidyRun (h : (ofText text).after n = some s) (htidy : (ofText text).TidyRun n) :
    s.WellScoped := by
  induction n generalizing s with
  | zero =>
    cases h
    exact ⟨by simp [InScope, ofText, start], trivial, by simp [ofText, start]⟩
  | succ n ih =>
    obtain ⟨u, hu, hstep⟩ := after_succ_last.mp h
    have hlast : u.Tidy s := htidy n (Nat.lt_succ_self n) u hu s (after_one_eq_some.mpr hstep)
    exact (ih hu (htidy.of_le (Nat.le_succ n))).of_step (Reachable.disciplined ⟨n, hu⟩) hstep hlast

/-! ## What closing a scope leaves behind -/

/-- A step that closes a scope leaves what lies below the body on the stack. -/
theorem mem_stack_of_closes {sc : Scope} (h : s.step = .ok (some t)) (hclosed : s.frames = .scope sc :: t.frames) :
    ∀ slot ∈ s.stack.tail, slot ∈ t.stack := by
  intro slot hslot
  -- A step that takes no frame away closes no scope.
  have hfewer : s.frames.length = t.frames.length + 1 := by rw [hclosed, List.length_cons]
  rcases step_cases h with hmove | ⟨_, e, rfl⟩
  · cases hmove with
    | within h =>
      cases h with
      | name => simp at hfewer
      | rule _ _ _ _ hrule =>
        clear hclosed
        cases hrule with
        | closePi hstack => simp_all
        | closeLam hstack => simp_all
        | define _ hstack => simp_all
        | extend _ _ _ hframes => simp [hframes] at hfewer
        | grab _ _ _ hframes => simp [hframes] at hfewer
        | declare _ _ hframes => simp [hframes] at hfewer
        | openPi =>
          rw [List.length_cons] at hfewer
          omega
        | openLam =>
          rw [List.length_cons] at hfewer
          omega
        | _ => simp at hfewer
    | enter h =>
      obtain ⟨entry, c, _, rfl⟩ := h
      simp only [enter, List.length_cons] at hfewer
      omega
    | leave h =>
      cases h with
      | intro _ _ _ _ _ hframes => simp [hframes] at hclosed
  · simp [fail] at hfewer

/-- A step is tidy if the names of a scope that it closes are bound wherever the stack then mentions them. -/
theorem tidy_of_bound (h : s.step = .ok (some t))
    (hbound : ∀ sc ∈ s.closed? t, ∀ slot ∈ t.stack, ∀ x ∈ slot.free,
      some x ∈ (Frame.scope sc).names → some x ∈ t.boundNames) : s.Tidy t := by
  intro sc hsc slot hslot
  exact hbound sc hsc slot (mem_stack_of_closes h (closed?_eq_some.mp hsc) slot hslot)

theorem tidy_of_inScope (h : s.step = .ok (some t)) (ht : t.InScope) : s.Tidy t :=
  tidy_of_bound h fun _ _ slot hslot x hx _ => ht slot hslot x hx

theorem tidy_of_outlives (h : s.step = .ok (some t)) (ht : ∀ x, Outlives x s t → some x ∈ t.boundNames) :
    s.Tidy t := by
  refine tidy_of_bound h fun sc hsc slot hslot x hx hname => ht x ⟨sc, hsc, hname, ?_⟩
  exact List.mem_append_left _ (List.mem_flatMap.mpr ⟨slot, hslot, hx⟩)

/-- **The steps of a run are tidy exactly when its values are in scope in all its states**, and exactly when no name
outlives a scope that binds it unless a scope that is still open binds it too. Then the constants that the run declares
have closed types. -/
theorem values_in_scope_iff (h : (ofText text).after n = some s) :
    ((ofText text).TidyRun n ↔ ∀ m ≤ n, ∀ u ∈ (ofText text).after m, u.InScope) ∧
    ((ofText text).TidyRun n ↔
      ∀ m < n, ∀ u ∈ (ofText text).after m, ∀ t ∈ u.after 1, ∀ x, Outlives x u t → some x ∈ t.boundNames) ∧
    ((ofText text).TidyRun n → ∀ c ∈ s.signature, c.type.free = []) := by
  refine ⟨⟨?_, ?_⟩, ⟨?_, ?_⟩, fun htidy => (wellScoped_of_tidyRun h htidy).types⟩
  · intro htidy m hm u hu
    exact (wellScoped_of_tidyRun hu (htidy.of_le hm)).values
  · intro hscope m hm u hu t ht
    have hstep := after_one_eq_some.mp ht
    exact tidy_of_inScope hstep (hscope (m + 1) hm t (after_succ_last.mpr ⟨u, hu, hstep⟩))
  · rintro htidy m hm u hu t ht x ⟨_, _, _, hx⟩
    have htrun := after_succ_last.mpr ⟨u, hu, after_one_eq_some.mp ht⟩
    exact (wellScoped_of_tidyRun htrun (htidy.of_le hm)).bound_of_mentioned hx
  · intro hbound m hm u hu t ht
    exact tidy_of_outlives (after_one_eq_some.mp ht) (hbound m hm u hu t ht)

/-- The inner parentheses are closed over their own `x`. The outer ones bind the name too, so the run is tidy, and the
constant that it declares has a closed type, in which that `x` has become a variable of the outer ones. -/
theorem values_in_scope_under_shadowing : ∃ u t s,
    (ofText "type : o . ( o -> type ) : p . ( type : x -> ( o : x -> x o ) -> p ) : c .").after 43 = some s ∧
    (ofText "type : o . ( o -> type ) : p . ( type : x -> ( o : x -> x o ) -> p ) : c .").TidyRun 43 ∧
    (ofText "type : o . ( o -> type ) : p . ( type : x -> ( o : x -> x o ) -> p ) : c .").after 30 = some u ∧
    u.after 1 = some t ∧ Outlives "x" u t ∧ some "x" ∈ t.boundNames ∧
    (s.signature.getD 2 default).type = .pis
      [(some "x", .type), (none, .pi (some "x") (.const "o" []) (.const "o" []))] (.const "p" [.var "x" []]) ∧
    ∀ c ∈ s.signature, c.type.free = [] := by
  let start := ofText "type : o . ( o -> type ) : p . ( type : x -> ( o : x -> x o ) -> p ) : c ."
  let s := (start.after 43).getD default
  let u := (start.after 30).getD default
  let t := (start.after 31).getD default
  obtain ⟨hs, htidy, hu, ht, hleft, htype⟩ : start.after 43 = some s ∧ start.TidyRun 43 ∧ start.after 30 = some u ∧
      u.after 1 = some t ∧ Outlives "x" u t ∧ (s.signature.getD 2 default).type = .pis
        [(some "x", .type), (none, .pi (some "x") (.const "o" []) (.const "o" []))] (.const "p" [.var "x" []]) := by
    decide +kernel
  obtain ⟨_, hnames, hclosed⟩ := values_in_scope_iff hs
  exact ⟨u, t, s, hs, htidy, hu, ht, hleft, hnames.mp htidy 30 (by decide) u hu t ht "x" hleft, htype, hclosed htidy⟩

/-- The first `x` is left on the stack when its scope is closed, and the second declaration takes it for a type. -/
theorem constant_with_free_variable :
    (∃ s, Reachable "( type : x -> x x ) : a . : b ." s ∧ s.frames = [] ∧ ¬s.InScope) ∧
      ∃ s, Reachable "( type : x -> x x ) : a . : b ." s ∧ s.error = none ∧
        ∃ c ∈ s.signature, c.name = "b" ∧ c.type = .var "x" [] ∧ c.type.free = ["x"] := by
  let run := (ofText "( type : x -> x x ) : a . : b .").after
  obtain ⟨s, hs, hclosed⟩ : ∃ s ∈ run 8, s.frames = [] ∧ ¬s.InScope := by decide +kernel
  obtain ⟨t, ht, hfree⟩ : ∃ t ∈ run 14, t.error = none ∧
      ∃ c ∈ t.signature, c.name = "b" ∧ c.type = .var "x" [] ∧ c.type.free = ["x"] := by decide +kernel
  exact ⟨⟨s, ⟨8, hs⟩, hclosed⟩, t, ⟨14, ht⟩, hfree⟩

end State

end Stepwise
