import Parlance.Diagnostic
import Parlance.Path
import Parlance.Text.Json
import Parlance.Text.Paint
/-!
Remarks as short lines, as a count, and as JSON.
-/
namespace Parlance.Diagnostic

def folded (message : String) : String := " ".intercalate (Text.fields message)

def goldenLine (base : String) (d : Diagnostic) : String :=
  d.severity.name ++ " " ++ d.code.id ++ " " ++ d.span.uri.display base ++ ":" ++
    d.span.start.render ++ " " ++ folded d.message

def golden (base : String) (ds : List Diagnostic) : String :=
  "\n".intercalate ((sort ds).map (goldenLine base))

def titled (d : Diagnostic) : String := d.render ++ " " ++ d.code.render

def countOf (s : Severity) (ds : List Diagnostic) : Nat := (ds.filter (·.severity == s)).length

def summary (color : Bool) (ds : List Diagnostic) : String :=
  let part (s : Severity) (style : Style) : List String :=
    if countOf s ds = 0 then [] else [style.paint color (Text.counted (countOf s ds) s.name)]
  match part .error .boldRed ++ part .warning .boldYellow with
  | [] => ""
  | parts => ", ".intercalate parts ++ "\n"

structure JsonOptions where
  positions : Bool
  paths : Path.Mode
  base : String
  cwd : String
  max : Option Nat
  notes : Bool
  fixes : Bool
  deriving Repr, Inhabited

namespace JsonOptions

def optional (name : String) (n : Int) : List (String × JsonValue) :=
  if n = 0 then [] else [(name, .int n)]

def position (o : JsonOptions) (l : Location) : JsonValue :=
  .record (("byte", .int l.offset) ::
    (if o.positions then optional "line" l.line ++ optional "character" l.character else []))

def range (o : JsonOptions) (s : Span) : JsonValue :=
  .record [("file", .ofString (s.uri.shown o.paths o.base o.cwd)), ("start", o.position s.start),
    ("end", o.position s.stop)]

def note (o : JsonOptions) (n : Note) : JsonValue :=
  .record [("message", .ofString n.message), ("range", o.range n.span)]

def edit (o : JsonOptions) (e : Edit) : JsonValue :=
  .record [("range", o.range e.span), ("new_text", .ofString e.text)]

def fix (o : JsonOptions) (f : Fix) : JsonValue :=
  .record [("title", .ofString f.title), ("edits", .list (f.edits.map o.edit))]

def listed (name : String) (wanted : Bool) (vs : List JsonValue) : List (String × JsonValue) :=
  if wanted && !vs.isEmpty then [(name, .list vs)] else []

def entry (o : JsonOptions) (d : Diagnostic) : JsonValue :=
  .record <|
    [("severity", .ofString d.severity.name), ("code", .ofString d.code.id),
      ("title", .ofString d.code.title), ("message", .ofString d.message), ("range", o.range d.span)] ++
    listed "notes" o.notes (d.notes.map o.note) ++ listed "fixes" o.fixes (d.fixes.map o.fix)

end JsonOptions

def json (o : JsonOptions) (ds : List Diagnostic) : String :=
  let shown := match o.max with
    | some n => ds.take n
    | none => ds
  (JsonValue.record [("diagnostics", .list (shown.map o.entry)), ("count", .ofNat ds.length),
    ("errors", .ofNat (countOf .error ds)), ("warnings", .ofNat (countOf .warning ds))]).page

end Parlance.Diagnostic
