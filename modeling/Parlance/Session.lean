import Parlance.Build
/-!
Sessions: a program that is built once, and lines that are added to it one at a time. A line with
errors leaves no trace; any other one is known to the lines after it.
-/
namespace Parlance

structure Session where
  forest : Forest
  sources : List Source
  machine : Machine.State
  next : Nat
  max : Int

namespace Session

structure Reply where
  source : Source
  diagnostics : List Diagnostic
  value : Option Machine.Object
  shown : List Lowering.Shown
  failure : Option Progress.Failure

def start (max : Int) (machine : Machine.State) (ss : List Source) :
    Journaling (Build.Outcome × Except Progress.Failure Session) := do
  let o ← Build.run { max } ss
  match o.failure, o.program with
  | some f, _ => return (o, .error f)
  | none, none => return (o, .error .diagnostics)
  | none, some p =>
    match ← Ran.step (Machine.eval o.code) machine with
    | (.error f, _) => return (o, .error (.machine f))
    | (.ok _, machine) => return (o, .ok ⟨p.toForest, o.sources, machine, 1, max⟩)

def unwind (height : Nat) : Nat → Machine.Step Unit
  | 0 => return ()
  | fuel + 1 => do
    if (← get).stack.length > height then
      let _ ← Machine.evalPop
      unwind height fuel

def result (code : List Instruction) : Machine.Step (Option Machine.Object) := do
  let height := (← get).stack.length
  Machine.eval code
  if (← get).stack.length > height then Machine.evalPop else return none

/-- Runs the code of a line and forgets the values below its result. The result stands even if one of
them turns out to be none. -/
def evaluate (code : List Instruction) (m : Machine.State) :
    Journaling (Option Machine.Object × Option Machine.Fault × Machine.State) := do
  match ← Ran.step (result code) m with
  | (.error f, n) => return (none, some f, n)
  | (.ok value, n) =>
    match ← Ran.step (unwind m.stack.length n.stack.length) n with
    | (.error f, n) => return (value, some f, n)
    | (.ok _, n) => return (value, none, n)

/-- Adds a line. Only what is remarked about the line itself counts. -/
def line (s : Session) (code : Bytes) : Journaling (Reply × Session) := do
  let source := Source.replLine s.next code
  let s := { s with next := s.next + 1 }
  Journal.span .pass "repl_line" 0 [("uri", source.uri)] (fun _ => "") fun _ => do
    let d := source.parse none
    let p := Program.ofForest (s.forest.plant d)
    let (found, memo) := (Check.runAll Check.all p).run (.fresh p)
    let own := found.filter (·.uri == source.uri)
    let diagnostics := Diagnostic.sort (Diagnostic.cap s.max (d.remarks ++ own))
    let reply : Reply := ⟨source, diagnostics, none, [], none⟩
    if Diagnostic.hasErrors diagnostics then
      return ({ reply with failure := some .diagnostics }, s)
    let r := Lowering.run (Lowering.source p source.uri) memo
    let reply := { reply with shown := r.shown }
    match r.code with
    | .error e => return ({ reply with failure := some (.lowering e) }, s)
    | .ok code =>
      let sources := s.sources.filter (·.uri != source.uri) ++ [source]
      let s := { s with forest := p.toForest, sources }
      let (value, fault, machine) ← evaluate code s.machine
      return ({ reply with value, failure := fault.map .machine }, { s with machine })

/-- Whether a line breaks off in the middle: there is a mistake right at its end, which more lines may
mend. -/
def isIncomplete (code : Bytes) : Bool :=
  let runes := Utf8.runes code
  let stop : Nat := (runes.reverse.dropWhile fun (c, _) => Text.isBlank c).foldl (· + ·.2) 0
  stop != 0 && ((Source.replLine 0 code).parse none).remarks.any fun d =>
    d.isError && d.span.start.offset ≥ stop

end Session

end Parlance
