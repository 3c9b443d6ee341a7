import Parlance.Check
import Parlance.Progress
import Parlance.Timings
import Parlance.Trace
/-!
Builds: sources are parsed, checked and, if nothing is wrong, lowered to instructions. A build keeps a
journal of its progress.
-/
namespace Parlance

structure Journal where
  progress : List Progress.Event
  trace : List Trace.Event
  phases : List Phase
  spans : Nat
  deriving Inhabited

abbrev Journaling := StateM Journal

namespace Journal

def empty : Journal := ⟨[], [], [], 0⟩

def report (file : Uri) (stage : Progress.Stage) (status : Progress.Status)
    (failure : Option Progress.Failure := none) : Journaling Unit :=
  modify fun j => { j with progress := { file, stage, status, failure } :: j.progress }

def phase (name note : String) : Journaling Unit :=
  modify fun j => { j with phases := ⟨name, 0, note⟩ :: j.phases }

def point (scope : Trace.Scope) (name detail : String) (parent : Nat) : Journaling Unit :=
  modify fun j =>
    { j with trace := ⟨some .point, some scope, 0, parent, name, detail, []⟩ :: j.trace }

def span {α : Type} (scope : Trace.Scope) (name : String) (parent : Nat)
    (extra : List (String × String)) (detail : α → String) (work : Nat → Journaling α) :
    Journaling α := do
  let id := (← get).spans + 1
  modify fun j =>
    { j with spans := id, trace := ⟨some .begin, some scope, id, parent, name, "", []⟩ :: j.trace }
  let a ← work id
  modify fun j =>
    { j with trace := ⟨some .finish, some scope, id, parent, name, detail a, extra⟩ :: j.trace }
  return a

end Journal

structure Built where
  code : List Instruction
  warnings : List Diagnostic
  deriving Inhabited

namespace Build

structure Options where
  /-- How many diagnostics are kept; what is no such number stands for as many as there can be. -/
  max : Int := 0
  checkOnly : Bool := false
  /-- What was found where built programs are kept, if anything was looked for. -/
  kept : Option (Option Built) := none
  /-- Whoever asked for the build is gone, so that nothing is done and nothing reported. -/
  cancelled : Bool := false

structure Outcome where
  sources : List Source
  /-- A program that was kept is not analysed. -/
  program : Option Program
  diagnostics : List Diagnostic
  code : List Instruction
  shown : List Lowering.Shown
  failure : Option Progress.Failure
  hit : Bool
  deriving Inhabited

/-- Sources by name: of two with one name the later counts. -/
def distinct (ss : List Source) : List Source :=
  ss.foldl (fun acc s => acc.filter (·.uri != s.uri) ++ [s]) []

def parseAll (ss : List Source) : Journaling (List Document) :=
  ss.mapM fun s => do
    Journal.report s.uri .parse .working
    let status (d : Document) : Progress.Status :=
      if Diagnostic.hasErrors d.remarks then .error else .done
    let d ← Journal.span .module "parse_module" 0 [("uri", s.uri)] (fun d => (status d).name)
      fun _ => return s.parse none
    Journal.report s.uri .parse (status d)
    return d

def checkAll (max : Int) (ds : List Document) (p : Program) : List Diagnostic × Memo :=
  let (found, memo) := (Check.runAll Check.all p).run (.fresh p)
  (Diagnostic.sort (Diagnostic.cap max (ds.flatMap (·.remarks) ++ found)), memo)

def lower (o : Outcome) (p : Program) (memo : Memo) (root : Nat) : Journaling Outcome := do
  Journal.report "" .generate .working
  let r := Lowering.run (Lowering.whole p) memo
  let code := r.code.toOption.getD []
  let _ ← Journal.span .pass "generate" root [] (fun _ => "") fun _ => return ()
  Journal.phase "generate" s!"{code.length} instructions"
  match r.code with
  | .error e =>
    Journal.report "" .generate .error (some (.lowering e))
    return { o with shown := r.shown, failure := some (.lowering e) }
  | .ok code =>
    Journal.report "" .generate .done
    return { o with shown := r.shown, code }

def compile (opts : Options) (ss : List Source) (o : Outcome) (root : Nat) : Journaling Outcome := do
  let docs ← Journal.span .pass "parse" root [] (fun _ => "") fun _ => parseAll ss
  Journal.phase "parse" s!"{ss.length} sources"
  Journal.report "" .check .working
  let p := Program.ofDocuments docs
  let (diagnostics, memo) ← Journal.span .pass "check" root [] (fun _ => "") fun _ =>
    return checkAll opts.max docs p
  Journal.phase "check" s!"{diagnostics.length} diagnostics"
  let o := { o with program := some p, diagnostics }
  if Diagnostic.hasErrors diagnostics then
    Journal.report "" .check .error (some .diagnostics)
    return { o with failure := some .diagnostics }
  Journal.report "" .check .done
  if opts.checkOnly then return o
  lower o p memo root

def run (opts : Options) (ss : List Source) : Journaling Outcome :=
  Journal.span .driver "build" 0 [] (fun _ => "") fun root => do
    let o : Outcome := ⟨distinct ss, none, [], [], [], none, false⟩
    if opts.cancelled then return { o with failure := some .cancelled }
    for s in ss do Journal.report s.uri .load .queued
    match opts.kept, opts.checkOnly with
    | some kept, false =>
      let note := if kept.isSome then "hit" else "miss"
      let _ ← Journal.span .pass "cache" root [] (fun _ => note) fun _ => return ()
      Journal.phase "cache" note
      match kept with
      | some b =>
        Journal.report "" .cache .done
        return { o with diagnostics := b.warnings, code := b.code, hit := true }
      | none => compile opts ss o root
    | _, _ => compile opts ss o root

def outcome (opts : Options) (ss : List Source) : Outcome := ((run opts ss).run .empty).1

end Build

structure Ran where
  value : Except Machine.Fault (Option Machine.Object)
  machine : Machine.State

namespace Ran

def trace (es : List Machine.Event) : Journaling Unit :=
  es.forM fun
    | .classMade name => Journal.point .module "class" (Utf8.toString name) 0
    | .panicked p => Journal.point .pass "panic" p.message 0

def evaluate (code : List Instruction) : Machine.Step (Option Machine.Object) := do
  Machine.eval code
  if (← get).stack.isEmpty then return none else Machine.evalPop

def step {α : Type} (s : Machine.Step α) (m : Machine.State) :
    Journaling (Except Machine.Fault α × Machine.State) := do
  match s { m with events := [] } with
  | .ok a n =>
    trace n.events.reverse
    return (.ok a, { n with events := n.events ++ m.events })
  | .error f n =>
    trace n.events.reverse
    return (.error f, { n with events := n.events ++ m.events })

def on (m : Machine.State) (code : List Instruction) : Journaling Ran := do
  let detail (r : Ran) : String := if r.value.toOption.isSome then "" else "panic"
  Journal.span .pass "eval" 0 [] detail fun _ => do
    Journal.report "" .run .working
    let (value, machine) ← step (evaluate code) m
    return ⟨value, machine⟩

def program (m : Machine.State) (code : List Instruction) : Journaling Ran := do
  let r ← on m code
  match r.value with
  | .ok _ => Journal.report "" .run .done
  | .error f => Journal.report "" .run .error (some (.machine f))
  return r

end Ran

end Parlance
