import Parlance.Path
/-!
Patterns for slash-separated names. A segment of a pattern matches one segment of a name: `*` stands
for the first run of bytes behind which the parts up to the next `*` fit, `?` for one character, `[a-z]`
and `[^a-z]` for one character of a class, and a backslash takes the next byte as it is. A segment `**`
before a slash stands for any number of segments, none included.
-/
namespace Parlance.Glob

inductive Part where
  | run
  | one
  | byte (b : UInt8)
  | class (negated : Bool) (ranges : List (Char × Char))
  deriving DecidableEq, Repr

private def star : UInt8 := 42
private def question : UInt8 := 63
private def opening : UInt8 := 91
private def backslash : UInt8 := 92
private def closing : UInt8 := 93
private def caret : UInt8 := 94
private def dash : UInt8 := 45

private def readChar (b : UInt8) (bs : Bytes) : Option (Char × Bytes) :=
  let (c, n) := Utf8.decodeFrom b bs
  if c = Utf8.replacement && n = 0 then none else some (c, bs.drop n)

private def readEnd : Bytes → Option (Char × Bytes)
  | [] => none
  | b :: bs =>
    if b = dash || b = closing then none
    else if b = backslash then
      match bs with
      | [] => none
      | c :: cs => readChar c cs
    else readChar b bs

private def readRange (s : Bytes) : Option ((Char × Char) × Bytes) := do
  let (lo, s) ← readEnd s
  match s with
  | 45 :: s =>
    let (hi, s) ← readEnd s
    match s with
    | [] => none
    | _ => some ((lo, hi), s)
  | [] => none
  | _ => some ((lo, lo), s)

/-- The ranges up to the closing bracket; each takes at least one byte, so `fuel` bytes suffice. -/
private def readRanges : Nat → Bytes → Option (List (Char × Char) × Bytes)
  | 0, _ => none
  | fuel + 1, s => do
    let (r, s) ← readRange s
    match s with
    | 93 :: s => some ([r], s)
    | _ =>
      let (rs, s) ← readRanges fuel s
      some (r :: rs, s)

private def readParts : Nat → Bytes → Option (List Part)
  | _, [] => some []
  | 0, _ => none
  | fuel + 1, b :: bs =>
    if b = star then (readParts fuel bs).map (.run :: ·)
    else if b = question then (readParts fuel bs).map (.one :: ·)
    else if b = backslash then
      match bs with
      | [] => none
      | c :: cs => (readParts fuel cs).map (.byte c :: ·)
    else if b = opening then do
      let negated := bs.head? = some caret
      let (ranges, rest) ← readRanges (bs.length + 1) (if negated then bs.drop 1 else bs)
      let parts ← readParts fuel rest
      some (.class negated ranges :: parts)
    else (readParts fuel bs).map (.byte b :: ·)

def parse (segment : String) : Option (List Part) :=
  let s := Bytes.ofString segment
  readParts s.length s

/-- The parts before, between and behind the stars. -/
def chunks : List Part → List (List Part)
  | [] => [[]]
  | .run :: ps => [] :: chunks ps
  | p :: ps =>
    match chunks ps with
    | [] => [[p]]
    | c :: cs => (p :: c) :: cs

/-- What is left of a name behind the parts, if it begins with them. -/
def behind? : List Part → Bytes → Option Bytes
  | [], name => some name
  | _ :: _, [] => none
  | .run :: _, _ => none
  | .byte c :: ps, b :: bs => if b = c then behind? ps bs else none
  | .one :: ps, b :: bs => behind? ps (bs.drop (Utf8.decodeFrom b bs).2)
  | .class negated ranges :: ps, b :: bs =>
    let (c, n) := Utf8.decodeFrom b bs
    if (ranges.any fun (lo, hi) => lo ≤ c && c ≤ hi) != negated then behind? ps (bs.drop n) else none

/-- What the first end of a name that is accepted gives. -/
def firstTail? (accept : Bytes → Option Bytes) : Bytes → Option Bytes
  | [] => accept []
  | b :: bs => accept (b :: bs) <|> firstTail? accept bs

/-- Chunks that each have a star before them take the first place where they fit, counted in bytes, and no other
one is tried; the last must reach the end. -/
def matchesStarred : List (List Part) → Bytes → Bool
  | [], name => name.isEmpty
  | c :: cs, name =>
    match firstTail? (fun s => (behind? c s).filter fun r => r.isEmpty || !cs.isEmpty) name with
    | some r => matchesStarred cs r
    | none => false

def matchesParts (ps : List Part) (name : Bytes) : Bool :=
  match chunks ps with
  | [] => name.isEmpty
  | c :: cs => (behind? c name).any (matchesStarred cs)

def matchesSegment (pattern name : String) : Bool :=
  match parse pattern with
  | some parts => matchesParts parts (Bytes.ofString name)
  | none => false

/-- A pattern and a name are cut at their first slashes; `**` before a slash lets the name go on by any number of
segments. -/
def acceptsChars (pattern name : List Char) : Bool :=
  match pattern with
  | '*' :: '*' :: '/' :: rest =>
    acceptsChars rest name ||
      match _h : cutAt '/' name with
      | (_, some tail) => acceptsChars ('*' :: '*' :: '/' :: rest) tail
      | (_, none) => false
  | pattern =>
    match _h : cutAt '/' pattern, _h' : cutAt '/' name with
    | (p, none), (n, none) => matchesSegment (.ofList p) (.ofList n)
    | (p, some ps), (n, some ns) => matchesSegment (.ofList p) (.ofList n) && acceptsChars ps ns
    | _, _ => false
termination_by pattern.length + name.length
decreasing_by
  · simp; omega
  · rw [eq_of_cutAt _h]
    simp; omega
  · rw [eq_of_cutAt _h, eq_of_cutAt _h']
    simp; omega

def accepts (pattern name : String) : Bool := acceptsChars pattern.toList name.toList

def isHidden (directory : String) : Bool :=
  Text.startsWith directory "." || Text.startsWith directory "_"

/-- The names, given from the root of a search, that it finds: no directory on the way is hidden and
the pattern matches. -/
def search (pattern : String) (names : List String) : List String :=
  (names.filter fun name =>
    ((Text.splitOn '/' name).dropLast.all (!isHidden ·)) && accepts pattern name).mergeSort
    (fun a b => decide (a ≤ b))

end Parlance.Glob
