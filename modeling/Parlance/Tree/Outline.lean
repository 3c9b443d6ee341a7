import Parlance.Text.Json
import Parlance.Text.Quoted
import Parlance.Tree
/-!
Trees drawn with branches, and as JSON.
-/
namespace Parlance

def Shape.leaf? : Shape → Option Token
  | .symbol w | .operator w | .lineDirective w | .string w _ | .character w _ | .symbolLiteral w _
  | .integer w _ | .float w _ => some w
  | _ => none

namespace Tree

def extent (t : Tree) : String := t.span.start.render ++ "-" ++ t.span.stop.render

def caption (t : Tree) : String :=
  t.shape.name ++ ((t.shape.leaf?.map fun w => " " ++ Quoted.write w.text).getD "") ++
    " (" ++ t.extent ++ ")"

mutual

def outlineLines (lead : String) : Tree → List String
  | node shape span children => caption (node shape span children) :: branches lead children

def branches (lead : String) : List Tree → List String
  | [] => []
  | [t] => hang (lead ++ "└─ ") (outlineLines (lead ++ "   ") t)
  | t :: u :: us => hang (lead ++ "├─ ") (outlineLines (lead ++ "│  ") t) ++ branches lead (u :: us)

def hang (branch : String) : List String → List String
  | [] => []
  | l :: ls => (branch ++ l) :: ls

end

def outline (t : Tree) : String := String.join ((t.outlineLines "").map (· ++ "\n"))

mutual

def record : Tree → JsonValue
  | node shape span children =>
    .record <|
      ("kind", .ofString shape.name) ::
      (match shape.leaf? with
        | some w => if w.text.isEmpty then [] else [("text", .str w.text)]
        | none => []) ++
      [("span", .ofString (extent (node shape span [])))] ++
      (if children.isEmpty then [] else [("children", .list (records children))])

def records : List Tree → List JsonValue
  | [] => []
  | t :: ts => record t :: records ts

end

def outlineJson (t : Tree) : String := t.record.page

def outlineOf : Option Tree → String
  | none => "<empty>\n"
  | some t => t.outline

def outlineJsonOf : Option Tree → String
  | none => "null\n"
  | some t => t.outlineJson

end Tree

end Parlance
