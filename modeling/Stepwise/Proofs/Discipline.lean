import Mathlib.Data.List.Forall2
import Stepwise.Proofs.Execution

/-!
# Controls, calls and scopes in step

A call saves a control on the stack and opens a frame, and its return takes both away, so the saved controls
(`State.savedControls`) and the calls in progress (`State.openCalls`) correspond to each other one by one, outermost
first. `Disciplined` is the invariant: each saved control is at the identifier that made its call (`Links`), each
control is in the code of the call before it, and the scope of a declaration lies below everything else. Every move
keeps it (`Disciplined.of_step`), and `frames_correspond` says what it means for the state of a run.
-/

namespace Stepwise

/-- The constant whose code an address lies in. -/
def Address.entry? : Address → Option Nat
  | stream _ => none
  | code entry _ => some entry

theorem Address.entry?_of_next? {pc pc' : Address} (h : pc.next? = some pc') : pc'.entry? = pc.entry? := by
  unfold next? at h
  split at h
  · cases pc <;> cases h <;> rfl
  · cases h

/-- The control that a slot saves. -/
def Slot.control? : Slot → Option Control
  | value _ => none
  | saved k => some k

/-- The call that a frame belongs to. -/
def Frame.call? : Frame → Option Call
  | scope _ => none
  | call c => some c

/-- A call without the arguments that it has captured. -/
def Call.site (c : Call) : Call := { c with arguments := [] }

namespace State

variable {s t : State} {text : String}

/-- The saved controls, that of the outermost caller first. -/
def savedControls (s : State) : List Control := (s.stack.filterMap Slot.control?).reverse

/-- The calls in progress, the outermost one first. -/
def openCalls (s : State) : List Call := (s.frames.filterMap Frame.call?).reverse

theorem length_savedControls (s : State) : s.savedControls.length = s.callDepth := by
  unfold savedControls callDepth
  rw [List.length_reverse]
  induction s.stack with
  | nil => rfl
  | cons slot stack ih => cases slot <;> simp [List.filterMap_cons, Slot.control?, Slot.isSaved, ih, List.countP_cons]

theorem openCalls_eq_nil_iff : s.openCalls = [] ↔ ∀ c, .call c ∉ s.frames := by
  rw [openCalls, List.reverse_eq_nil_iff, List.filterMap_eq_nil_iff]
  constructor
  · intro h c hc
    cases h (.call c) hc
  · intro h frame hframe
    cases frame with
    | scope sc => rfl
    | call c => exact absurd hframe (h c)

/-! ## What moves do to controls and calls -/

theorem Within.savedControls_eq (h : Within s t) : t.savedControls = s.savedControls := by
  cases h with
  | name => rfl
  | rule _ _ _ _ hrule => cases hrule <;> simp_all [savedControls, List.filterMap_cons, Slot.control?]

/-- A move within a level of calls may capture an argument, and leaves the calls as they are otherwise. -/
theorem Within.sites_eq (h : Within s t) : t.openCalls.map Call.site = s.openCalls.map Call.site := by
  cases h with
  | name => rfl
  | rule _ _ _ _ hrule =>
    cases hrule with
    | define _ _ _ hframes =>
      generalize hs : s.frames = frames at hframes
      cases hframes <;> simp [openCalls, hs, List.filterMap_cons, Frame.call?]
    | _ => simp_all [openCalls, List.filterMap_cons, Frame.call?, Call.site, Call.push]

theorem savedControls_enter (s : State) (entry : Nat) (c : Constant) :
    (s.enter entry c).savedControls = s.savedControls ++ [s.current] := by
  simp [savedControls, enter, Slot.control?]

theorem openCalls_enter (s : State) (entry : Nat) (c : Constant) :
    (s.enter entry c).openCalls = s.openCalls ++ [⟨c.name, entry, s.current.pc, []⟩] := by
  simp [openCalls, enter, Frame.call?]

/-- Leaving a constant ends the innermost call and takes up the control that was saved last. -/
theorem Leaves.exists_innermost (h : Leaves s t) : ∃ caller call pc, caller.pc.next? = some pc ∧
    t.current = { caller with pc } ∧ s.savedControls = t.savedControls ++ [caller] ∧
    s.openCalls = t.openCalls ++ [call] ∧ s.frames = .call call :: t.frames ∧ t.signature = s.signature := by
  cases h with
  | @intro _ caller _ call _ pc _ _ _ hstack _ hframes hpc =>
    exact ⟨caller, call, pc, hpc, rfl, by simp [savedControls, hstack, List.filterMap_cons, Slot.control?],
      by simp [openCalls, hframes, Frame.call?], hframes, rfl⟩

/-! ## The scope of a declaration -/

/-- Below the scope of a declaration there is no other frame. -/
def DeclOutermost : List Frame → Prop
  | [] => True
  | .scope sc :: outer => (sc.kind = .decl → outer = []) ∧ DeclOutermost outer
  | .call _ :: outer => DeclOutermost outer

theorem DeclOutermost.eq_nil {sc : Scope} {outer : List Frame} (hkind : sc.kind = .decl) : ∀ inner : List Frame,
    DeclOutermost (inner ++ .scope sc :: outer) → outer = []
  | [], h => h.1 hkind
  | .scope _ :: inner, h => eq_nil hkind inner h.2
  | .call _ :: inner, h => eq_nil hkind inner h

theorem Rule.declOutermost {pc : Address} {tok : Token} (h : Rule s pc tok t) (hs : DeclOutermost s.frames) :
    DeclOutermost t.frames := by
  cases h with
  | define _ _ _ hframes =>
    generalize s.frames = frames at hs hframes
    cases hframes with
    | plain => trivial
    | scope => exact hs.2
  | _ => simp_all [DeclOutermost, Scope.push]

theorem Move.declOutermost (h : Move s t) (hs : DeclOutermost s.frames) : DeclOutermost t.frames := by
  cases h with
  | within h =>
    cases h with
    | name => exact hs
    | rule _ _ _ _ hrule => exact hrule.declOutermost hs
  | enter h =>
    obtain ⟨entry, c, _, rfl⟩ := h
    exact hs
  | leave h =>
    obtain ⟨_, _, _, _, _, _, _, hframes, _⟩ := h.exists_innermost
    rw [hframes] at hs
    exact hs

/-! ## The invariant -/

/-- The control `k` was saved when the call `c` was made: it is at the identifier that names the constant called. -/
structure Links (s : State) (k : Control) (c : Call) : Prop where
  origin : c.origin = k.pc
  reading : k.readingName = false
  constant : ∃ d, s.signature[c.entry]? = some d ∧ d.name = c.name
  instruction : s.tokenAt? k.pc = some (.id c.name)

/-- What every state of a run satisfies. -/
structure Disciplined (s : State) : Prop where
  /-- The outermost control is in the token stream, and each further one in the code of the call before it. -/
  entries : (s.savedControls ++ [s.current]).map (·.pc.entry?) = none :: s.openCalls.map fun c => some c.entry
  links : List.Forall₂ s.Links s.savedControls s.openCalls
  decl : DeclOutermost s.frames

theorem Links.of_grows {k : Control} {c : Call} (h : s.Links k c) (hgrows : Grows s t) : t.Links k c := by
  obtain ⟨horigin, hreading, ⟨d, hd, hname⟩, hinstruction⟩ := h
  exact ⟨horigin, hreading, ⟨d, hgrows.getElem? hd, hname⟩, hgrows.tokenAt? hinstruction⟩

/-- What has been captured does not matter to the links. -/
theorem forall₂_links_iff {controls : List Control} {calls : List Call} :
    List.Forall₂ s.Links controls (calls.map Call.site) ↔ List.Forall₂ s.Links controls calls := by
  rw [List.forall₂_map_right_iff]
  constructor <;> refine List.Forall₂.imp fun k c hlink => ?_ <;>
    exact ⟨hlink.origin, hlink.reading, hlink.constant, hlink.instruction⟩

theorem map_entry_site (calls : List Call) :
    (calls.map Call.site).map (fun c => some c.entry) = calls.map fun c => some c.entry := by
  rw [List.map_map]
  rfl

theorem Disciplined.of_within (hs : s.Disciplined) (h : Within s t) : t.Disciplined where
  entries := by
    have hentry := Address.entry?_of_next? h.next?_eq
    have hentries := hs.entries
    rw [← map_entry_site, ← h.sites_eq, map_entry_site] at hentries
    rw [h.savedControls_eq, ← hentries]
    simp [hentry]
  links := by
    have hlinks := hs.links.imp fun _ _ hlink => hlink.of_grows (Move.within h).grows
    rw [h.savedControls_eq, ← forall₂_links_iff, h.sites_eq, forall₂_links_iff]
    exact hlinks
  decl := (Move.within h).declOutermost hs.decl

theorem Disciplined.of_enters (hs : s.Disciplined) (h : Enters s t) : t.Disciplined := by
  have hdecl := (Move.enter h).declOutermost hs.decl
  have hgrows := (Move.enter h).grows
  obtain ⟨entry, c, ⟨_, hreading, name, hfetch, hlookup⟩, rfl⟩ := h
  obtain ⟨hc, rfl⟩ := getElem?_of_lookup hlookup
  refine ⟨?_, ?_, hdecl⟩
  · rw [savedControls_enter, openCalls_enter, List.map_append, hs.entries]
    simp [enter, Address.entry?]
  · rw [savedControls_enter, openCalls_enter]
    have hlink : (s.enter entry c).Links s.current ⟨c.name, entry, s.current.pc, []⟩ :=
      ⟨rfl, hreading, ⟨c, hc, rfl⟩, hfetch⟩
    exact List.rel_append (hs.links.imp fun _ _ h => h.of_grows hgrows) (.cons hlink .nil)

theorem Disciplined.of_leaves (hs : s.Disciplined) (h : Leaves s t) : t.Disciplined := by
  have hdecl := (Move.leave h).declOutermost hs.decl
  have hgrows := (Move.leave h).grows
  obtain ⟨caller, call, pc, hpc, hcurrent, hcontrols, hcalls, _, _⟩ := h.exists_innermost
  have hentries := hs.entries
  have hlinks := hs.links
  rw [hcontrols, hcalls] at hentries hlinks
  refine ⟨?_, ?_, hdecl⟩
  · have hcallees : none :: (t.openCalls ++ [call]).map (fun c => some c.entry) =
        (none :: t.openCalls.map fun c => some c.entry) ++ [some call.entry] := by simp
    rw [List.map_append, hcallees] at hentries
    have houter := (List.append_inj' hentries rfl).1
    rw [← houter, hcurrent]
    simp [Address.entry?_of_next? hpc]
  · have hlength : t.savedControls.length = t.openCalls.length := by simpa using hlinks.length_eq
    have houter : List.Forall₂ s.Links t.savedControls t.openCalls := by
      simpa [hlength] using List.forall₂_take t.savedControls.length hlinks
    exact houter.imp fun _ _ hlink => hlink.of_grows hgrows

theorem Disciplined.of_step (hs : s.Disciplined) (h : s.step = .ok (some t)) : t.Disciplined := by
  rcases step_cases h with hmove | ⟨_, e, rfl⟩
  · cases hmove with
    | within h => exact hs.of_within h
    | enter h => exact hs.of_enters h
    | leave h => exact hs.of_leaves h
  · exact ⟨hs.entries, hs.links.imp fun _ _ hlink => hlink.of_grows ⟨rfl, List.prefix_rfl⟩, hs.decl⟩

theorem disciplined_ofText (text : String) : (ofText text).Disciplined := ⟨rfl, .nil, trivial⟩

/-- **Every reachable state is disciplined.** -/
theorem Reachable.disciplined (h : Reachable text s) : s.Disciplined :=
  h.induction (disciplined_ofText text) fun _ _ => Disciplined.of_step

/-! ## What follows for a state -/

theorem Disciplined.length_openCalls (hs : s.Disciplined) : s.openCalls.length = s.callDepth := by
  rw [← length_savedControls, hs.links.length_eq]

theorem Disciplined.call_not_mem (hs : s.Disciplined) (hdepth : s.callDepth = 0) (c : Call) : .call c ∉ s.frames :=
  openCalls_eq_nil_iff.mp (List.length_eq_zero_iff.mp (hs.length_openCalls.trans hdepth)) c

/-- The controls and the calls, one beside the other: behind the outermost control, each one is in the code of the call
at the index before its own. -/
theorem Disciplined.getElem?_entries (hs : s.Disciplined) (i : Nat) :
    ((s.savedControls ++ [s.current])[i]?).map (·.pc.entry?) =
      (none :: s.openCalls.map fun c => some c.entry)[i]? := by
  rw [← List.getElem?_map, hs.entries]

/-- The current control is the last one, and it is in the code of the innermost call. -/
theorem Disciplined.entry?_current (hs : s.Disciplined) :
    s.current.pc.entry? = s.openCalls.getLast?.map (·.entry) := by
  have hlast := congrArg List.getLast? hs.entries
  rw [List.map_append, List.getLast?_append, List.getLast?_cons] at hlast
  rw [show s.current.pc.entry? = _ from Option.some.inj hlast, List.getLast?_map]
  cases s.openCalls.getLast? <;> rfl

/-- Execution is in the token stream exactly when no call is in progress. -/
theorem Disciplined.inStream_iff (hs : s.Disciplined) : s.current.pc.entry? = none ↔ s.callDepth = 0 := by
  rw [hs.entry?_current, Option.map_eq_none_iff, List.getLast?_eq_none_iff, ← hs.length_openCalls,
    List.length_eq_zero_iff]

/-- The controls, the calls and the scopes of a state belong to each other, counted from the outermost one. -/
structure Corresponding (s : State) : Prop where
  controls : s.savedControls.length = s.callDepth
  calls : s.openCalls.length = s.callDepth
  /-- Execution is in the token stream exactly when no call is in progress. -/
  inStream : s.current.pc.entry? = none ↔ s.callDepth = 0
  /-- Otherwise it is in the code of the innermost call. -/
  inCode : ∀ c : Call, s.openCalls.getLast? = some c → s.current.pc.entry? = some c.entry
  /-- The outermost control was saved in the token stream. -/
  outermost : ∀ k : Control, s.savedControls[0]? = some k → k.pc.entry? = none
  /-- Every further one was saved in the code of the call around it. -/
  inner : ∀ (i : Nat) (k : Control) (c : Call), s.savedControls[i + 1]? = some k → s.openCalls[i]? = some c →
    k.pc.entry? = some c.entry
  /-- Each call was made by the identifier that its control is at, and that names the constant called. -/
  links : ∀ (i : Nat) (k : Control) (c : Call), s.savedControls[i]? = some k → s.openCalls[i]? = some c → s.Links k c
  /-- The scope of a declaration is the outermost frame, hence the only one of its kind. -/
  decl : ∀ inner sc outer, s.frames = inner ++ .scope sc :: outer → sc.kind = .decl → outer = []

/-- **In every state of a run, controls, calls and scopes belong to each other.** -/
theorem frames_correspond (h : Reachable text s) : s.Corresponding := by
  have hs := h.disciplined
  have hat (i : Nat) (k : Control) (hk : s.savedControls[i]? = some k) :
      (none :: s.openCalls.map fun c => some c.entry)[i]? = some k.pc.entry? := by
    rw [← hs.getElem?_entries, List.getElem?_append_left (List.getElem?_eq_some_iff.mp hk).1, hk]
    rfl
  refine ⟨length_savedControls s, hs.length_openCalls, ?_, ?_, ?_, ?_, ?_, ?_⟩
  · exact hs.inStream_iff
  · intro c hc
    rw [hs.entry?_current, hc]
    rfl
  · intro k hk
    exact (Option.some.inj (hat 0 k hk)).symm
  · intro i k c hk hc
    have hentry := hat (i + 1) k hk
    rw [List.getElem?_cons_succ, List.getElem?_map, hc] at hentry
    exact (Option.some.inj hentry).symm
  · intro i k c hk hc
    obtain ⟨hi, rfl⟩ := List.getElem?_eq_some_iff.mp hk
    obtain ⟨hi', rfl⟩ := List.getElem?_eq_some_iff.mp hc
    exact hs.links.get hi hi'
  · intro inner sc outer hframes hkind
    exact DeclOutermost.eq_nil hkind inner (hframes ▸ hs.decl)

/-- Inside the scope of a declaration, `q` is called; its code calls `p`, and the code of `p` calls `o`. -/
theorem frames_correspond_in_nested_calls :
    ∃ s, Reachable "type : o . ( o : x -> type ) : p . ( o : y -> y p ) : q . o : k . o -> k q" s ∧
      s.openCalls.map (·.name) = ["q", "p", "o"] ∧
      s.frames.map (·.shape) = [.call, .call, .call, .scope .decl] ∧ s.Corresponding := by
  let run := (ofText "type : o . ( o : x -> type ) : p . ( o : y -> y p ) : q . o : k . o -> k q").after
  let s := (run 62).getD default
  obtain ⟨hreachable, hcalls, hframes⟩ : run 62 = some s ∧ s.openCalls.map (·.name) = ["q", "p", "o"] ∧
      s.frames.map (·.shape) = [.call, .call, .call, .scope .decl] := by decide +kernel
  exact ⟨s, ⟨62, hreachable⟩, hcalls, hframes, frames_correspond ⟨62, hreachable⟩⟩

end State

end Stepwise
