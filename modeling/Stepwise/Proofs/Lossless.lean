import Stepwise.Proofs.JsonText
import Stepwise.Snapshot

/-!
# The text of a trace loses nothing

Two things of one kind are written as the same JSON value only if they are the same: for each type there is one lemma,
down to addresses and expressions. An object that stands for one of several things tells by its first member which one
it is, so the cases of a type are told apart (`Token.toJson_inj`, `Slot.toJson_inj`, `Frame.toJson_inj`). A text has
one value (`Json.render_inj`), and so **traces with the same text are the same**, in every field of every state
(`Trace.toText_eq_iff`).
-/

namespace Stepwise

namespace Json

@[simp] theorem optStr_inj {s t : Option String} : optStr s = optStr t ↔ s = t := by
  cases s <;> cases t <;> simp [optStr]

theorem list_inj {α : Type} {f : α → Json} (hf : ∀ a b, f a = f b ↔ a = b) {as bs : List α} :
    list f as = list f bs ↔ as = bs := by
  rw [list, list, arr.injEq]
  exact List.map_inj_right fun a b => (hf a b).mp

end Json

open Json (list_inj)

/-! ## Tokens, expressions and addresses -/

@[simp] theorem Token.toJson_inj (t u : Token) : t.toJson = u.toJson ↔ t = u := by
  cases t <;> cases u <;> simp [toJson, text]

mutual

@[simp] theorem Expr.toJson_inj : ∀ e f : Expr, e.toJson = f.toJson ↔ e = f
  | .type, f => by cases f <;> simp [Expr.toJson]
  | .kind, f => by cases f <;> simp [Expr.toJson]
  | .pi n a b, f => by cases f <;> simp [Expr.toJson, Expr.toJson_inj a, Expr.toJson_inj b]
  | .lam n a b, f => by cases f <;> simp [Expr.toJson, Expr.toJson_inj a, Expr.toJson_inj b]
  | .const n s, f => by cases f <;> simp [Expr.toJson, spineToJson_inj s]
  | .var n s, f => by cases f <;> simp [Expr.toJson, spineToJson_inj s]

theorem spineToJson_inj : ∀ s t : List Expr, spineToJson s = spineToJson t ↔ s = t
  | [], t => by cases t <;> simp [spineToJson]
  | e :: s, t => by cases t <;> simp [spineToJson, Expr.toJson_inj e, spineToJson_inj s]

end

@[simp] theorem Address.toJson_inj (a b : Address) : a.toJson = b.toJson ↔ a = b := by
  cases a <;> cases b <;> simp [toJson]

@[simp] theorem Span.toJson_inj (a b : Span) : a.toJson = b.toJson ↔ a = b := by
  cases a
  cases b
  simp [toJson]

/-! ## Slots, frames and constants -/

@[simp] theorem Control.members_inj (c d : Control) : c.members = d.members ↔ c = d := by
  cases c
  cases d
  simp [members]

@[simp] theorem Control.toJson_inj (c d : Control) : c.toJson = d.toJson ↔ c = d := by
  simp [toJson]

@[simp] theorem Slot.toJson_inj : ∀ a b : Slot, a.toJson = b.toJson ↔ a = b
  | .value ⟨_, _, _⟩, .value ⟨_, _, _⟩ => by simp [toJson]
  | .value _, .saved _ => by simp [toJson]
  | .saved _, .value _ => by simp [toJson]
  | .saved _, .saved _ => by simp [toJson]

@[simp] theorem ScopeKind.toJson_inj (a b : ScopeKind) : a.toJson = b.toJson ↔ a = b := by
  cases a <;> cases b <;> simp [toJson]

@[simp] theorem Binder.toJson_inj (a b : Binder) : a.toJson = b.toJson ↔ a = b := by
  cases a
  cases b
  simp [toJson]

@[simp] theorem Argument.toJson_inj (a b : Argument) : a.toJson = b.toJson ↔ a = b := by
  cases a
  cases b
  simp [toJson]

@[simp] theorem Frame.toJson_inj : ∀ a b : Frame, a.toJson = b.toJson ↔ a = b
  | .scope ⟨_, _, _⟩, .scope ⟨_, _, _⟩ => by simp [toJson, list_inj Binder.toJson_inj]
  | .scope _, .call _ => by simp [toJson]
  | .call _, .scope _ => by simp [toJson]
  | .call ⟨_, _, _, _⟩, .call ⟨_, _, _, _⟩ => by simp [toJson, list_inj Argument.toJson_inj]

@[simp] theorem Constant.toJson_inj (a b : Constant) : a.toJson = b.toJson ↔ a = b := by
  cases a
  cases b
  simp [toJson, list_inj Token.toJson_inj]

/-! ## States and traces -/

theorem State.toJson_inj (s t : State) : s.toJson = t.toJson ↔ s = t := by
  obtain ⟨current, signature, frames, stack, ⟨tokens, lines⟩, error⟩ := s
  obtain ⟨current', signature', frames', stack', ⟨tokens', lines'⟩, error'⟩ := t
  have hlines : ∀ a b, Json.list Token.toJson a = Json.list Token.toJson b ↔ a = b :=
    fun _ _ => list_inj Token.toJson_inj
  simp [toJson, members, list_inj Constant.toJson_inj, list_inj Frame.toJson_inj, list_inj Slot.toJson_inj,
    list_inj Token.toJson_inj, list_inj hlines, and_assoc]

/-- **Traces with the same text are the same.** The states need not be those of a run, and names and messages may be any
texts. -/
theorem Trace.toText_eq_iff (a b : Trace) : a.toText = b.toText ↔ a = b := by
  rw [toText, toText, String.append_left_inj, Json.render_inj]
  exact list_inj State.toJson_inj

end Stepwise
