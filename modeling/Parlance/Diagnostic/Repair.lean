import Parlance.Diagnostic
/-!
Fixes put to work. A fix is applied as a whole or not at all, and never touches what another one has
changed.
-/
namespace Parlance.Repair

structure Candidate where
  id : String
  title : String
  span : Span
  edits : List Edit
  deriving Repr

inductive Reason where
  | noEdits
  | duplicate
  | notFound
  | unknownModule (uri : Uri)
  | notAFile
  | outOfRange
  | conflict (uri : Uri)
  deriving DecidableEq, Repr

def Reason.message : Reason → String
  | noEdits => "fix has no edits"
  | duplicate => "duplicate fix id"
  | notFound => "fix id not found"
  | unknownModule uri => s!"unknown module {uri}"
  | notAFile => "target module is not a file"
  | outOfRange => "edit span out of range"
  | conflict uri => s!"conflicts with previously applied edits in {uri}"

structure Skipped where
  id : String
  title : String
  reason : Reason
  deriving Repr

structure Applied where
  id : String
  title : String
  uri : Uri
  edits : Nat
  deriving Repr

structure Change where
  source : Source
  edits : Nat
  deriving Repr

structure Result where
  applied : List Applied
  skipped : List Skipped
  changes : List Change
  deriving Repr

inductive Choice where
  | first
  | all
  | named (id : String)
  deriving Repr

def fixId (d : Diagnostic) (i : Nat) : String := s!"{d.code.id}-{d.span.start.render}-{i}"

def offered (ds : List Diagnostic) : List (Candidate) :=
  ds.flatMap fun d => d.fixes.mapIdx fun i f => ⟨fixId d i, f.title, d.span, f.edits⟩

def inOrder (a b : Candidate) : Bool :=
  let key (c : Candidate) := (c.span.start.offset, c.span.stop.offset)
  a.span.uri < b.span.uri || (a.span.uri == b.span.uri &&
    ((key a).1 < (key b).1 || ((key a).1 == (key b).1 && (key a).2 ≤ (key b).2)))

def sift (p : List Candidate × List Skipped) (c : Candidate) : List Candidate × List Skipped :=
  if c.edits.isEmpty then (p.1, p.2 ++ [⟨c.id, c.title, .noEdits⟩])
  else if p.1.any (·.id == c.id) then (p.1, p.2 ++ [⟨c.id, c.title, .duplicate⟩])
  else (p.1 ++ [c], p.2)

def candidates (ds : List Diagnostic) : List Candidate × List Skipped :=
  let (good, skipped) := (offered ds).foldl sift ([], [])
  (good.mergeSort inOrder, skipped)

def pick (cs : List Candidate) : Choice → List Candidate × List Skipped
  | .named id =>
    match cs.find? (·.id == id) with
    | some c => ([c], [])
    | none => ([], [⟨id, "", .notFound⟩])
  | .all => (cs, [])
  | .first => (cs.take 1, [])

def isInsertion (e : Edit) : Bool := e.span.start.offset == e.span.stop.offset

/-- Whether two edits get in each other's way. Insertions never do; one within or at the start of what
another edit replaces does. -/
def overlaps (a b : Edit) : Bool :=
  let (s, t) := (a.span.start.offset, a.span.stop.offset)
  let (u, v) := (b.span.start.offset, b.span.stop.offset)
  if isInsertion a && isInsertion b then false
  else if isInsertion a then u ≤ s && s < v
  else if isInsertion b then s ≤ u && u < t
  else s < v && u < t

def objection? (sources : List Source) (write : Bool) (accepted : List Edit) (e : Edit) : Option Reason :=
  let uri := e.span.uri
  match sources.find? (·.uri == uri) with
  | none => some (.unknownModule uri)
  | some s =>
    if write && !uri.isFile then some .notAFile
    else if e.span.start.offset < 0 || e.span.stop.offset < e.span.start.offset ||
        s.size < e.span.stop.offset then
      some .outOfRange
    else if accepted.any fun o => o.span.uri == uri && overlaps e o then some (.conflict uri)
    else none

def accept (sources : List Source) (write : Bool) (accepted : List Edit) :
    List Edit → Except Reason (List Edit)
  | [] => .ok accepted
  | e :: es =>
    match objection? sources write accepted e with
    | some r => .error r
    | none => accept sources write (accepted ++ [e]) es

def splice (start : Int) (code : Bytes) : List Edit → Bytes
  | [] => code
  | e :: es =>
    code.take (e.span.start.offset - start).toNat ++ Bytes.ofString e.text ++
      splice e.span.stop.offset (code.drop (e.span.stop.offset - start).toNat) es

def startsBefore (a b : Edit) : Bool := a.span.start.offset ≤ b.span.start.offset

def change (s : Source) (edits : List Edit) : Change :=
  ⟨{ s with code := splice 0 s.code (edits.mergeSort startsBefore) }, edits.length⟩

structure Progress where
  accepted : List Edit
  applied : List Applied
  skipped : List Skipped

def Candidate.report (c : Candidate) : Applied := ⟨c.id, c.title, c.span.uri, c.edits.length⟩

def Progress.next (sources : List Source) (write : Bool) (p : Progress) (c : Candidate) : Progress :=
  match accept sources write p.accepted c.edits with
  | .ok accepted => { p with accepted, applied := p.applied ++ [c.report] }
  | .error r => { p with skipped := p.skipped ++ [⟨c.id, c.title, r⟩] }

/-- Applies fixes. With `write` only files can be changed. -/
def apply (sources : List Source) (ds : List Diagnostic) (choice : Choice) (write : Bool) : Result :=
  let (cs, dropped) := candidates ds
  let (chosen, missing) := pick cs choice
  let p := chosen.foldl (Progress.next sources write) ⟨[], [], dropped ++ missing⟩
  let touched := sources.filter fun s => p.accepted.any (·.span.uri == s.uri)
  let sorted := touched.mergeSort fun a b => a.uri ≤ b.uri
  ⟨p.applied, p.skipped, sorted.map fun s => change s (p.accepted.filter (·.span.uri == s.uri))⟩

end Parlance.Repair
