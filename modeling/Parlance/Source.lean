import Parlance.Text.Pieces
import Parlance.Text.Utf8
/-!
Source texts and places in them. An offset counts bytes from 0; lines and characters count from 1,
a character being one UTF-16 code unit.
-/
namespace Parlance

/-- The name of a source. Two sources of one name are two versions of one document. -/
abbrev Uri := String

/-- A place in a source. One that was given from outside may lie past the end of its text, or before its
start. -/
structure Location where
  offset : Int
  line : Nat
  character : Int
  deriving DecidableEq, Repr, Inhabited

namespace Location

def origin : Location := ⟨0, 1, 1⟩

def step (l : Location) (c : Char) (size : Nat) : Location :=
  if c = '\n' then ⟨l.offset + size, l.line + 1, 1⟩
  else ⟨l.offset + size, l.line, l.character + Utf8.units16 c⟩

def advance (l : Location) (text : Bytes) : Location :=
  (Utf8.runes text).foldl (fun l (c, n) => l.step c n) l

def before (l other : Location) : Bool := l.offset < other.offset

def render (l : Location) : String := s!"{l.line}:{l.character}"

end Location

structure Span where
  uri : Uri
  start : Location
  stop : Location
  deriving DecidableEq, Repr, Inhabited

namespace Span

/-- Lines and characters follow from the offsets, so they are not compared. -/
def same (s t : Span) : Bool :=
  s.uri == t.uri && s.start.offset == t.start.offset && s.stop.offset == t.stop.offset

def isEmpty (s : Span) : Bool := s.start.offset == s.stop.offset

def length (s : Span) : Int := s.stop.offset - s.start.offset

/-- The least span that covers both; `s` itself when they lie in different sources. -/
def through (s t : Span) : Span :=
  if s.uri != t.uri then s
  else
    { uri := s.uri
      start := if t.start.offset < s.start.offset then t.start else s.start
      stop := if t.stop.offset > s.stop.offset then t.stop else s.stop }

/-- The end counts as inside, so that a cursor right after a word still touches it. -/
def touches (s : Span) (l : Location) : Bool :=
  s.start.offset ≤ l.offset && l.offset ≤ s.stop.offset

def contains (s : Span) (uri : Uri) (l : Location) : Bool := uri == s.uri && s.touches l

def offsets (s : Span) : String := s!"{s.start.offset}-{s.stop.offset}"

def render (s : Span) : String := s!"{s.uri}:{s.start.render}-{s.stop.render}"

def startText (s : Span) : String := s!"{s.uri}:{s.start.render}"

end Span

namespace Source

inductive Kind where
  | module
  | stdin
  | repl
  | main
  deriving DecidableEq, Repr, Inhabited

namespace Kind

def name : Kind → String
  | module => "module"
  | stdin => "stdin"
  | repl => "repl"
  | main => "main"

def isLine : Kind → Bool
  | repl | main => true
  | module | stdin => false

end Kind

end Source

structure Source where
  kind : Source.Kind
  uri : Uri
  code : Bytes
  deriving DecidableEq, Repr, Inhabited

namespace Source

def ofString (kind : Kind) (uri : Uri) (code : String) : Source :=
  ⟨kind, uri, Bytes.ofString code⟩

variable (s : Source)

def size : Nat := s.code.length

def newline : UInt8 := 10

def lines : List Bytes := pieces newline s.code

def lineCount : Nat := s.code.count newline + 1

def line (n : Nat) : Bytes :=
  if n = 0 then [] else (s.lines[n - 1]?).getD []

def lineStart (n : Nat) : Nat :=
  min s.size ((s.lines.take (n - 1)).foldl (· + ·.length + 1) 0)

def locationAt (offset : Nat) : Location :=
  Location.origin.advance (s.code.take offset)

def endLocation : Location := Location.origin.advance s.code

def bytesBefore : Nat → List (Char × Nat) → Nat
  | _, [] => 0
  | 0, _ => 0
  | units + 1, (c, n) :: rest => n + bytesBefore (units + 1 - Utf8.units16 c) rest

/-- The offset of a line and character. Lines before the first give the start of the text, lines
after the last its end, and characters past the end of a line that end. -/
def offsetAt (line character : Nat) : Nat :=
  if line = 0 then 0
  else if line > s.lineCount then s.size
  else s.lineStart line + bytesBefore (character - 1) (Utf8.runes (s.line line))

def span (start stop : Nat) : Span := ⟨s.uri, s.locationAt start, s.locationAt stop⟩

/-- A span with these offsets in the source of a name. Lines are counted in that source; where it is
not known all is one line. -/
def spanIn (ss : List Source) (uri : Uri) (start stop : Int) : Span :=
  let place (offset : Int) : Location :=
    match ss.find? (·.uri == uri) with
    | some s => { s.locationAt offset.toNat with offset }
    | none => ⟨offset, 1, offset + 1⟩
  ⟨uri, place start, place stop⟩

def slice (start stop : Int) : Bytes :=
  if start < 0 || stop > s.size || start > stop then []
  else (s.code.drop start.toNat).take (stop - start).toNat

/-! ### Names of sources -/

def fileScheme : String := "file://"
def libraryScheme : String := "loa:stdlib/"
def stdinUri : Uri := "stdin:"
def mainUri : Uri := "main:"
def replUri (n : Nat) : Uri := s!"repl:{n}"
def libraryUri (name : String) : Uri := libraryScheme ++ name
def fileUri (path : String) : Uri := fileScheme ++ path

/-- The bootstrap line that sends `run` to a class; a qualified name is imported as `Main` first. -/
def bootstrap (className : String) : Source :=
  if className.toList.contains '/' then
    ofString .main mainUri ("import " ++ className ++ " as Main.\n\nMain run.")
  else ofString .main mainUri (className ++ " run.")

def replLine (n : Nat) (code : Bytes) : Source := ⟨.repl, replUri n, code⟩

/-! ### Text as it is read from files -/

def dropByteOrderMark : Bytes → Bytes
  | 0xef :: 0xbb :: 0xbf :: rest => rest
  | s => s

/-- Line ends of two bytes become one newline; a carriage return elsewhere stays. -/
def joinLineEnds : Bytes → Bytes
  | 13 :: 10 :: rest => 10 :: joinLineEnds rest
  | b :: rest => b :: joinLineEnds rest
  | [] => []

def clean (s : Bytes) : Bytes := joinLineEnds (dropByteOrderMark s)

def ofStdin (content : Bytes) : Source := ⟨.stdin, stdinUri, clean content⟩

end Source

namespace Uri

def isLibrary (u : Uri) : Bool := Source.libraryScheme.toList.isPrefixOf u.toList

def isFile (u : Uri) : Bool := Source.fileScheme.toList.isPrefixOf u.toList

def path (u : Uri) : String :=
  if isFile u then String.ofList (u.toList.drop Source.fileScheme.length) else u

end Uri

end Parlance
