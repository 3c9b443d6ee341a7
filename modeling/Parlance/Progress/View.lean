import Parlance.Path
import Parlance.Progress
import Parlance.Text.Moment
import Parlance.Text.Width
/-!
The view of a build that is under way.
-/
namespace Parlance.Progress

structure ModuleRow where
  file : String
  status : Status
  micros : Int
  deriving Repr, Inhabited

def ModuleRow.name (r : ModuleRow) : String :=
  match Text.dropPrefix? "file://" r.file with
  | some rest => Path.base rest
  | none => r.file

structure View where
  title : String
  rows : List ModuleRow
  stages : List (Stage × Status)
  parsed : Nat
  failed : Bool
  closed : Bool
  width : Nat
  frame : Nat
  told : Nat
  deriving Repr

namespace View

def leastWidth : Nat := 40

def start (title : String) (files : List String) : View :=
  { title
    rows := files.map (⟨·, .queued, 0⟩)
    stages := []
    parsed := 0
    failed := false
    closed := false
    width := 80
    frame := 0
    told := 0 }

def applyRow (file : String) (status : Status) (micros : Int) (v : View) : View :=
  match v.rows.reverse.findIdx? (·.file == file) with
  | none => v
  | some i =>
    let i := v.rows.length - 1 - i
    let old := (v.rows[i]?).getD default
    { v with
      parsed := if status.isFinal && !old.status.isFinal then v.parsed + 1 else v.parsed
      rows := v.rows.set i
        { old with status, micros := if micros > 0 then micros else old.micros } }

private def nearest (r : Rat) : Rat := (Binary.toRat? .double (Binary.round .double r)).getD 0

def fraction (v : View) : Nat :=
  let part (s : Stage) : Rat :=
    match v.stages.lookup s with
    | some .done | some .error => 1 / 2
    | some .working => 1 / 4
    | _ => 0
  let files : Rat := if v.rows.isEmpty then 1 else nearest (mkRat v.parsed v.rows.length)
  let r : Rat :=
    if (v.stages.lookup .cache == some .done : Bool) then 1
    else nearest (files / 2 + (part .check + part .generate) / 2)
  Binary.round .double (if r ≤ 1 then r else 1)

def apply (file : String) (stage : Option Stage) (status : Status) (micros : Int) (v : View) : View :=
  let v := { v with failed := v.failed || status == Status.error }
  let v :=
    if file.isEmpty then
      match stage with
      | some s => { v with stages := (s, status) :: v.stages.filter (·.1 != s) }
      | none => v
    else v.applyRow file status micros
  { v with told := v.fraction }

def frames : List String := ["⠋", "⠙", "⠹", "⠸", "⠼", "⠴", "⠦", "⠧", "⠇", "⠏"]

def tick (v : View) : View :=
  if v.closed then v else { v with frame := (v.frame + 1) % frames.length }

def resize (width : Int) (v : View) : View := { v with width := max width.toNat leastWidth }

def close (v : View) : View := { v with closed := true }

def stageStatus (v : View) (s : Stage) : Option Status :=
  if s != .parse then v.stages.lookup s
  else if v.rows.any (·.status == .error) then some .error
  else if !v.rows.isEmpty && v.parsed == v.rows.length then some .done
  else if v.parsed > 0 then some .working
  else none

def stageCell (v : View) (s : Stage) : String :=
  if v.stageStatus s == some .working then s.name ++ "…" else s.name

def mark : Status → String
  | .done => "✓"
  | .error => "✗"
  | .working => "•"
  | .queued => "·"

def rowText (v : View) (r : ModuleRow) : String :=
  let room := max (v.width - 16) 16
  let name := Text.fill (Text.truncate r.name room "…") room
  s!"  {mark r.status} {name}" ++
    if r.micros > 0 then s!" {Text.padLeft (Moment.milliseconds 1 r.micros) 6}ms" else ""

/-- The title as it stands in the view: tabs are four blanks wide, and all lines as wide as the widest. -/
def heading (v : View) : String :=
  let lines := ((v.title.replace "\t" "    ").replace "\r\n" "\n").splitOn "\n"
  let room := lines.foldl (fun w l => Nat.max w (Text.width l)) 0
  "\n".intercalate (if lines.length ≤ 1 then lines else lines.map (Text.fill · room))

def render (v : View) : String :=
  let lead :=
    if v.closed then (if v.failed then "✗" else "✓") else (frames[v.frame]?).getD ""
  let cells := [Stage.cache, .parse, .check, .generate].map v.stageCell
  let bar := Text.copies (if v.closed then '█' else '░') (v.width - 8)
  s!"{lead} {v.heading}\n  " ++ " › ".intercalate cells ++ "\n\n" ++
    String.join (v.rows.map (v.rowText · ++ "\n")) ++ "\n  " ++ bar ++
    s!"\n  {v.parsed}/{v.rows.length} modules parsed\n"

end View

end Parlance.Progress
