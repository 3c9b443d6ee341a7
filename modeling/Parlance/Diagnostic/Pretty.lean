import Parlance.Diagnostic
import Parlance.Path
import Parlance.Text.Paint
import Parlance.Text.Width
/-!
Remarks as a reader at a terminal sees them: what is wrong, where, and the line with the place marked.
-/
namespace Parlance.Diagnostic

structure PrettyOptions where
  color : Bool
  context : Int
  paths : Path.Mode
  base : String
  cwd : String
  width : Option Nat
  notes : Bool
  fixes : Bool
  deriving Repr, Inhabited

def severityStyle : Severity → Style
  | .error => .boldRed
  | .warning => .boldYellow
  | .info => .boldCyan

def spread (s : Bytes) : String :=
  String.ofList ((Utf8.chars s).flatMap fun c => if c = '\t' then [' ', ' ', ' ', ' '] else [c])

/-- The column and the width of the mark below the first line of a span. A span that goes on is marked
to the end of the line. -/
def underline (source : Source) (span : Span) : Nat × Nat :=
  let line := source.line span.start.line
  let first := source.offsetAt span.start.line 1
  let start := min (span.start.offset - first).toNat line.length
  let stop :=
    if span.stop.line = span.start.line then min (span.stop.offset - first).toNat line.length
    else line.length
  let stop := max stop start
  (Text.width (spread (line.take start)),
    max 1 (Text.width (spread ((line.take stop).drop start))))

def shownLines (source : Source) (line : Nat) (context : Int) : List Nat :=
  let first := (max 1 ((line : Int) - context)).toNat
  let last := (min (source.lineCount : Int) (line + context)).toNat
  (List.range (last + 1)).filter (first ≤ ·)

namespace PrettyOptions

def gutter (o : PrettyOptions) (s : String) : String := Style.boldBlue.paint o.color s

def located (o : PrettyOptions) (lead : String) (span : Span) : String :=
  Style.grey.paint o.color
    (lead ++ span.uri.shown o.paths o.base o.cwd ++ ":" ++ span.start.render)

def header (o : PrettyOptions) (d : Diagnostic) : String :=
  let style := severityStyle d.severity
  style.paint o.color d.severity.name ++ style.paint o.color ("[" ++ d.code.id ++ "]:") ++ " " ++
    Style.bold.paint o.color d.message ++ "\n"

def snippetLine (o : PrettyOptions) (d : Diagnostic) (source : Source) (pad : String) (line : Nat) : String :=
  let text := spread (source.line line)
  let text := match o.width with
    | some w => Text.truncate text w "…"
    | none => text
  let number := o.gutter (Text.padLeft (toString line) pad.length)
  let shown := number ++ " " ++ o.gutter "|" ++ " " ++ text ++ "\n"
  if line = d.span.start.line then
    let (column, width) := underline source d.span
    let style := severityStyle d.severity
    shown ++ pad ++ " " ++ o.gutter "|" ++ " " ++ Text.copies ' ' column ++
      style.paint o.color (Text.copies '^' width) ++ " " ++ style.paint o.color d.code.title ++ "\n"
  else shown

def note (o : PrettyOptions) (pad : String) (n : Note) : String :=
  pad ++ " " ++ o.gutter "=" ++ " " ++ Style.cyan.paint o.color "note:" ++ " " ++ n.message ++ "\n" ++
    (if n.span.uri = "" then "" else pad ++ "   " ++ o.located "at " n.span ++ "\n")

def edit (sources : List Source) (pad : String) (e : Edit) : String :=
  let old :=
    match sources.find? (·.uri == e.span.uri) with
    | some s => s.slice e.span.start.offset e.span.stop.offset
    | none => []
  let text := Quoted.writeString e.text
  let what :=
    if old.isEmpty then "insert " ++ text ++ " at " ++ e.span.start.render
    else if e.text.isEmpty then "remove " ++ Quoted.write old
    else "replace " ++ Quoted.write old ++ " with " ++ text
  pad ++ "   " ++ what ++ "\n"

def fix (o : PrettyOptions) (sources : List Source) (pad : String) (f : Fix) : String :=
  pad ++ " " ++ o.gutter "=" ++ " " ++ Style.green.paint o.color "help:" ++ " " ++ f.title ++ "\n" ++
    String.join (f.edits.map (edit sources pad))

end PrettyOptions

def prettyOne (o : PrettyOptions) (sources : List Source) (d : Diagnostic) : String :=
  let source? := sources.find? (·.uri == d.span.uri)
  let digits :=
    match source? with
    | some s => (toString (max 1 (min ((d.span.stop.line : Int) + o.context) s.lineCount))).length
    | none => 1
  let pad := Text.copies ' ' digits
  let snippet :=
    match source? with
    | some s =>
      if d.span.start.line = 0 then ""
      else pad ++ " " ++ o.gutter "|" ++ "\n" ++
        String.join ((shownLines s d.span.start.line o.context).map (o.snippetLine d s pad))
    | none => ""
  o.header d ++ pad ++ o.gutter "-->" ++ " " ++ o.located "" d.span ++ "\n" ++ snippet ++
    (if o.notes then String.join (d.notes.map (o.note pad)) else "") ++
    (if o.fixes then String.join (d.fixes.map (o.fix sources pad)) else "")

def pretty (o : PrettyOptions) (sources : List Source) (ds : List Diagnostic) : String :=
  "\n".intercalate (ds.map (prettyOne o sources))

end Parlance.Diagnostic
