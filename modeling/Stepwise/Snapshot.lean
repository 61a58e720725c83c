import Stepwise.Json.Basic
import Stepwise.Trace

/-!
# Traces as JSON

The form in which a trace is handed to a front end: every field of every state, so that nothing about a run is lost.
An object that stands for one of several things says in its first member, `t`, which one it is. Stack and frames are
written bottom first.
-/

namespace Stepwise

def Token.toJson : Token → Json
  | id name => .obj [("t", .str "id"), ("name", .str name)]
  | t => .obj [("t", .str t.text)]

mutual

def Expr.toJson : Expr → Json
  | .type => .obj [("t", .str "type")]
  | .kind => .obj [("t", .str "kind")]
  | .pi name a b => .obj [("t", .str "pi"), ("name", .optStr name), ("a", a.toJson), ("b", b.toJson)]
  | .lam name a b => .obj [("t", .str "lam"), ("name", .optStr name), ("a", a.toJson), ("m", b.toJson)]
  | .const name spine => .obj [("t", .str "appc"), ("cid", .str name), ("spine", .arr (spineToJson spine))]
  | .var name spine => .obj [("t", .str "appv"), ("head", .str name), ("spine", .arr (spineToJson spine))]

def spineToJson : List Expr → List Json
  | [] => []
  | e :: es => e.toJson :: spineToJson es

end

def Address.toJson : Address → Json
  | stream index => .obj [("t", .str "tokstream"), ("index", .nat index)]
  | code entry offset => .obj [("t", .str "sigEntry"), ("sigIx", .nat entry), ("tokIx", .nat offset)]

def Span.toJson (r : Span) : Json := .obj [("first", .nat r.first), ("last", .nat r.last)]

def Control.members (c : Control) : List (String × Json) :=
  [("pc", c.pc.toJson), ("program", c.program.toJson), ("name", .optStr c.name), ("readingName", .bool c.readingName)]

def Control.toJson (c : Control) : Json := .obj c.members

def Slot.toJson : Slot → Json
  | value v => .obj [("t", .str "data"), ("term", v.term.toJson), ("klass", v.type.toJson), ("name", .optStr v.name)]
  | saved c => .obj (("t", .str "control") :: c.members)

def ScopeKind.toJson : ScopeKind → Json
  | pi => .str "pi"
  | lam => .str "lam"
  | decl => .str "decl"

def Binder.toJson (b : Binder) : Json :=
  .obj [("name", .optStr b.name), ("klass", b.type.toJson), ("pc", b.pc.toJson)]

def Argument.toJson (a : Argument) : Json :=
  .obj [("name", .optStr a.name), ("term", a.term.toJson), ("klass", a.type.toJson), ("pc", a.pc.toJson)]

def Frame.toJson : Frame → Json
  | scope s =>
    .obj [("t", .str "ctx"), ("kind", s.kind.toJson), ("origin", s.origin.toJson),
      ("entries", .list Binder.toJson s.binders)]
  | call c =>
    .obj [("t", .str "sub"), ("cid", .str c.name), ("sig_ix", .nat c.entry), ("origin", c.origin.toJson),
      ("entries", .list Argument.toJson c.arguments)]

def Constant.toJson (c : Constant) : Json :=
  .obj [("name", .str c.name), ("klass", c.type.toJson), ("program", c.program.toJson),
    ("code", .list Token.toJson c.code)]

namespace State

/-- The part of a state that steps change. -/
def members (s : State) : List (String × Json) :=
  [("cframe", s.current.toJson), ("sig", .list Constant.toJson s.signature),
    ("meta", .list Frame.toJson s.frames.reverse), ("stack", .list Slot.toJson s.stack.reverse)]

def toJson (s : State) : Json :=
  .obj (s.members ++
    [("toks", .list Token.toJson s.source.tokens), ("origToks", .list (Json.list Token.toJson) s.source.lines),
      ("error", .optStr s.error)])

end State

/-- The text written for a trace: one JSON array and a line feed. -/
def Trace.toText (states : Trace) : String := (Json.list State.toJson states).render ++ "\n"

end Stepwise
