import Parlance.Source
import Parlance.Text.Digit
import Parlance.Text.Quoted
/-!
Slash-separated paths, and how the name of a file is shown to a reader who stands in a directory.
-/
namespace Parlance

namespace Path

def isAbsolute (p : String) : Bool := Text.startsWith p "/"

private def dropParent (rooted : Bool) : List String → List String
  | [] => if rooted then [] else [".."]
  | ".." :: rest => ".." :: ".." :: rest
  | _ :: rest => rest

/-- The elements of a path with `.` and inner `..` worked out. -/
def elements (p : String) : List String :=
  let rooted := isAbsolute p
  ((Text.splitOn '/' p).foldl (fun out e =>
    if e = "" || e = "." then out
    else if e = ".." then dropParent rooted out
    else e :: out) []).reverse

def clean (p : String) : String :=
  let body := Text.join "/" (elements p)
  if isAbsolute p then "/" ++ body else if body = "" then "." else body

def join (parts : List String) : String :=
  match parts.dropWhile (· = "") with
  | [] => ""
  | parts => clean (Text.join "/" parts)

private def dropSlashes (cs : List Char) : List Char := (cs.reverse.dropWhile (· = '/')).reverse

def base (p : String) : String :=
  if p = "" then "."
  else match dropSlashes p.toList with
    | [] => "/"
    | cs => String.ofList ((pieces '/' cs).getLastD [])

def dir (p : String) : String :=
  clean (String.ofList (p.toList.reverse.dropWhile (· != '/')).reverse)

def extension (p : String) : String :=
  let last := (pieces '/' p.toList).getLastD []
  let tail := last.reverse.takeWhile (· != '.')
  if tail.length < last.length then String.ofList ('.' :: tail.reverse) else ""

private def dropCommon : List String → List String → List String × List String
  | a :: as, b :: bs => if a = b then dropCommon as bs else (a :: as, b :: bs)
  | as, bs => (as, bs)

def relative? (origin target : String) : Option String :=
  if clean origin = clean target then some "."
  else if isAbsolute origin != isAbsolute target then none
  else
    let targetElements := match elements target with
      | [] => if isAbsolute target then [] else ["."]
      | es => es
    match dropCommon (elements origin) targetElements with
    | (".." :: _, _) => none
    | (up, down) => some (Text.join "/" (up.map (fun _ => "..") ++ down))

def absolute (cwd p : String) : String := if isAbsolute p then clean p else join [cwd, p]

def isInside (p : String) : Bool := p != "" && !isAbsolute p && (elements p).head? != some ".."

inductive Mode where
  | auto
  | absolute
  | relative
  | basename
  deriving DecidableEq, Repr, Inhabited

namespace Mode

def all : List Mode := [auto, absolute, relative, basename]

def name : Mode → String
  | auto => "auto"
  | absolute => "absolute"
  | relative => "relative"
  | basename => "basename"

def ofName? (s : String) : Option Mode := all.find? fun m => Text.isWord m.name (Text.trim s)

def refusal (s : String) : String :=
  "unknown path mode " ++ Quoted.writeString s ++ " (must be " ++ ", ".intercalate (all.map name) ++ ")"

end Mode

end Path

namespace Uri

/-- A file below `origin` shows as the way to it from there, any other file as its path, and what is
no file as it is. -/
def display (u : Uri) (origin : String) : String :=
  if !isFile u then u
  else match (if origin = "" then none else Path.relative? origin (path u)) with
    | some rel => if Text.startsWith rel ".." then path u else rel
    | none => path u

def shown (u : Uri) (mode : Path.Mode) (origin cwd : String) : String :=
  if !isFile u then u
  else match mode with
    | .auto => display u origin
    | .absolute => Path.absolute cwd (path u)
    | .relative =>
      match (if origin = "" then none else Path.relative? origin (path u)) with
      | some rel => rel
      | none => path u
    | .basename => Path.base (path u)

end Uri

end Parlance
