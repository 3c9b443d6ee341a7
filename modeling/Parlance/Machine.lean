import Parlance.Machine.Arithmetic
import Parlance.Text.Paint
/-!
The machine. It goes step by step through a list of tasks: code to run, and values that wait for a
lazy one to be worked out.
-/
namespace Parlance.Machine

structure Frame where
  className : Bytes
  methodName : Bytes
  uri : Bytes
  line : Nat
  character : Nat
  deriving DecidableEq, Repr, Inhabited

namespace Frame

def callsite (f : Frame) : String := s!"{Utf8.toString f.uri}:{f.line}:{f.character}"

def render (f : Frame) : String :=
  s!"{Utf8.toString f.className} {Utf8.toString f.methodName} ({f.callsite})"

end Frame

structure Calls where
  frames : List Frame
  depth : Nat
  deriving DecidableEq, Repr, Inhabited

namespace Calls

def none : Calls := ⟨[], 0⟩

def push (f : Frame) (c : Calls) : Calls := ⟨f :: c.frames, c.depth + 1⟩

end Calls

inductive Cause where
  | raised (text : String)
  | emptyStack
  | missingLocal
  | shortStack (count height : Nat)
  | noClass (id : UInt64)
  | classless (receiver : String)
  | notUnderstood (hash : UInt64) (receiver : String)
  | overflow (method : Bytes)
  | unsetVariable (name : Bytes) (holder : String)
  | unsetGlobal (id : UInt64)
  | notANumber
  | inexact (number : String)
  | looseVariable (name : Bytes)
  | looseMethod (name : Bytes)
  | openMethod (name : Bytes)
  | looseEnd
  | nothingToInherit (parent : Bytes) (hash : UInt64)
  deriving DecidableEq, Repr, Inhabited

def Cause.message : Cause → String
  | raised text => text
  | emptyStack => "empty stack"
  | missingLocal => "not enough locals on the stack"
  | shortStack count height => s!"return drops {count} objects from a stack of {height}"
  | noClass id => s!"no class #{String.ofList (Hex.shortest Hex.upperDigit id.toNat)}"
  | classless receiver => s!"{receiver} has no class"
  | notUnderstood hash receiver =>
    s!"message {Hex.upper 16 hash.toNat} not understood by {receiver}"
  | overflow method => s!"stack overflow in {Utf8.toString method}"
  | unsetVariable name holder => s!"variable {Utf8.toString name} of {holder} is not initialized"
  | unsetGlobal id =>
    s!"global #{String.ofList (Hex.shortest Hex.upperDigit id.toNat)} is not initialized"
  | notANumber => "not a number"
  | inexact number => s!"{number} has no exact value"
  | looseVariable name => s!"variable {Utf8.toString name} outside a class"
  | looseMethod name => s!"method {Utf8.toString name} outside a class"
  | openMethod name => s!"method {Utf8.toString name} is never closed"
  | looseEnd => "EndMethod without BeginMethod"
  | nothingToInherit parent hash =>
    s!"{Utf8.toString parent} has no method {Hex.upper 16 hash.toNat} to inherit"

structure Panic where
  cause : Cause
  frames : List Frame
  deriving DecidableEq, Repr, Inhabited

namespace Panic

def message (p : Panic) : String := p.cause.message

def error (p : Panic) : String := "panic: " ++ p.message

def render (p : Panic) : String := p.error ++ String.join (p.frames.map ("\n  " ++ ·.render))

def print (color : Bool) (p : Panic) : String :=
  let head :=
    if color then
      Style.alarm.paint true " PANIC " ++ " " ++ Style.red.paint true p.message ++ "\n"
    else "PANIC: " ++ p.message ++ "\n"
  head ++ String.join (p.frames.map fun f =>
    Style.yellow.paint color (Utf8.toString f.className) ++ " " ++
      Style.yellow.paint color (Utf8.toString f.methodName) ++ "\n  " ++
      Style.grey.paint color ("(" ++ f.callsite ++ ")") ++ "\n")

end Panic

inductive Fault where
  | panic (p : Panic)
  /-- A value of a kind that no class was marked as. -/
  | unmarked (m : Mark)
  /-- A lazy value that another machine made. -/
  | foreign
  | unfinished
  deriving Repr

def Fault.message : Fault → String
  | panic p => p.error
  | unmarked m => "runtime not initialized: no class is marked as " ++ m.name
  | foreign => "lazy value of another machine"
  | unfinished => "unfinished"

inductive Body where
  | code (is : List Instruction)
  | getter (variable_ : UInt64) (name : Bytes)
  | setter (variable_ : UInt64)
  deriving Inhabited

def Body.length : Body → Nat
  | code is => is.length
  | _ => 0

structure Method where
  name : Bytes
  body : Body
  deriving Inhabited

structure Class where
  ref : ClassRef
  /-- By the hashes of their selectors; the first of a hash counts. -/
  methods : List (UInt64 × Method)
  deriving Inhabited

def Class.method? (c : Class) (hash : UInt64) : Option Method := c.methods.lookup hash

def Class.addMethod (c : Class) (hash : UInt64) (m : Method) : Class :=
  { c with methods := (hash, m) :: c.methods }

/-- A variable comes with the methods `name` and `name:`. -/
def Class.addVariable (c : Class) (id : UInt64) (name : Bytes) : Class :=
  let full := c.ref.name ++ 35 :: name
  (c.addMethod (Selector.hash name) ⟨full, .getter id name⟩).addMethod
    (Selector.hash (name ++ [58])) ⟨full ++ [58], .setter id⟩

/-- What a lazy value is: work still to be done on values taken along, or its result. -/
inductive Cell where
  | waiting (body : List Instruction) (captured : List Object) (calls : Calls)
  | done (value : Object)
  deriving Inhabited

inductive Event where
  | classMade (name : Bytes)
  | panicked (p : Panic)
  deriving Repr

structure State where
  classes : List (UInt64 × Class)
  globals : List (UInt64 × Object)
  stack : List Object
  /-- The methods at work. -/
  calls : Calls
  cells : Array Cell
  marks : List (Mark × ClassRef)
  declaring : Option UInt64
  maxDepth : Nat
  halted : Bool
  made : Nat
  events : List Event
  deriving Inhabited

def defaultMaxDepth : Nat := 10000

def State.fresh (maxDepth : Nat) : State :=
  { classes := []
    globals := []
    stack := []
    calls := .none
    cells := #[]
    marks := []
    declaring := none
    maxDepth
    halted := false
    made := 0
    events := [] }

def State.panics (s : State) : List Panic :=
  s.events.reverse.filterMap fun
    | .panicked p => some p
    | _ => none

inductive Want where
  | panic
  | call (hash : UInt64) (uri : Bytes) (line character : Nat)
  | receiver (n : Native)
  | operand (n : Native) (receiver : Object)
  | result

/-- Each task keeps the calls that are at work while it is the first. -/
inductive Task where
  /-- Code to run. If it stands below other code, that was called from here. -/
  | run (code : List Instruction) (calls : Calls)
  /-- What a cell works out comes back here. -/
  | await (cell : Nat) (want : Want) (calls : Calls)

def Task.calls : Task → Calls
  | .run _ calls | .await _ _ calls => calls

inductive Next where
  | go (tasks : List Task)
  | finish (result : Option Object)

inductive Move where
  | ahead (tasks : List Task)
  | back
  | finish (result : Option Object)

abbrev Step := EStateM Fault State

def panic {α : Type} (calls : Calls) (cause : Cause) : Step α :=
  throw (.panic ⟨cause, calls.frames.reverse⟩)

def push (o : Object) : Step Unit := modify fun s => { s with stack := o :: s.stack }

def pop (calls : Calls) : Step Object := do
  let s ← get
  match s.stack with
  | [] => panic calls .emptyStack
  | o :: stack =>
    set { s with stack }
    return o

def without? {α : Type} : Nat → List α → Option (List α)
  | 0, xs => some xs
  | _ + 1, [] => none
  | n + 1, _ :: xs => without? n xs

def make (cls : Option ClassRef) (p : Payload) : Step Object := do
  let s ← get
  set { s with made := s.made + 1 }
  return .mk s.made cls p []

def box (m : Mark) (p : Payload) : Step Object := do
  match (← get).marks.lookup m with
  | some c => make (some c) p
  | none => throw (.unmarked m)

def boxed (p : Payload) : Step Object := do
  match p.kind with
  | .marked m => box m p
  | _ => make none p

def classOf (calls : Calls) (id : UInt64) : Step Class := do
  match (← get).classes.lookup id with
  | some c => return c
  | none => panic calls (.noClass id)

def replaceClass (c : Class) : List (UInt64 × Class) → List (UInt64 × Class)
  | [] => [(c.ref.id, c)]
  | e :: es => if e.1 == c.ref.id then (c.ref.id, c) :: es else e :: replaceClass c es

def putClass (c : Class) : Step Unit := modify fun s => { s with classes := replaceClass c s.classes }

/-! ### Control -/

def resume (x : Task) : Step Unit := modify fun s => { s with calls := x.calls }

def resumeFirst : List Task → Step Unit
  | [] => return
  | x :: _ => resume x

/-- Goes on after code has come to its end, with the calls of the task below. A call in a program that
was halted ends the code around it too. -/
def leave : List Task → Step Next
  | [] => return .finish none
  | .run code calls :: tasks => do
    resume (.run code calls)
    if (← get).halted then leave tasks else return .go (.run code calls :: tasks)
  | .await cell want calls :: tasks => do
    resume (.await cell want calls)
    return .go (.await cell want calls :: tasks)

def Move.onto (rest : List Task) : Move → Step Next
  | ahead tasks => do
    resumeFirst tasks
    return .go (tasks ++ rest)
  | back => leave rest
  | finish result => return .finish result

/-- Leaves the value on top in place of `count` values below it. -/
def leaveValue (calls : Calls) (count : Nat) : Step Unit := do
  let o ← pop calls
  let s ← get
  match without? count s.stack with
  | some rest => set { s with stack := o :: rest }
  | none => panic calls (.shortStack count s.stack.length)

def enter (receiver : Object) (m : Method) (calls : Calls) : Step Move := do
  match m.body with
  | .code is => return .ahead [.run is calls]
  | .getter id name =>
    let _ ← pop calls
    match receiver.held? id with
    | some v => push v
    | none => panic calls (.unsetVariable name receiver.render)
    return .back
  | .setter id =>
    let _ ← pop calls
    let v ← pop calls
    let s ← get
    set { s with made := s.made + 1, stack := receiver.set s.made id v :: s.stack }
    return .back

def send (hash : UInt64) (uri : Bytes) (line character : Nat) (receiver : Object) (calls : Calls) :
    Step Move := do
  match receiver.cls with
  | none => panic calls (.classless receiver.render)
  | some c =>
    match (← classOf calls c.id).method? hash with
    | none => panic calls (.notUnderstood hash receiver.render)
    | some m =>
      if calls.depth ≥ (← get).maxDepth then panic calls (.overflow m.name)
      push receiver
      enter receiver m (calls.push ⟨c.name, m.name, uri, line, character⟩)

def compute (n : Native) (receiver operand : Object) (calls : Calls) : Step Object := do
  let number (op : Operation) : Step Object := do
    match operate op receiver.payload operand.payload with
    | .ok p => boxed p
    | .error .notANumber => panic calls .notANumber
    | .error (.inexact p) => panic calls (.inexact (Object.mk 0 none p []).render)
  match n with
  | .plus => number .plus
  | .minus => number .minus
  | .equal => box (if receiver.same operand then .true else .false) .plain

def force (o : Object) (want : Want) (calls : Calls) (forced : Step Move) : Step Move := do
  match o.payload with
  | .lazy cell =>
    match (← get).cells[cell]? with
    | some (.waiting body captured context) =>
      modify fun s => { s with stack := captured.reverse ++ s.stack }
      return .ahead [.run body context, .await cell want calls]
    | some (.done v) =>
      push v
      return .ahead [.await cell want calls]
    | none => throw .foreign
  | _ => forced

def supplyOperand (n : Native) (receiver o : Object) (calls : Calls) : Step Move :=
  force o (.operand n receiver) calls do
    push (← compute n receiver o calls)
    return .ahead []

/-- Hands a value on to what it is wanted for. The first operand of a native method asks for the
second. -/
def supply (want : Want) (o : Object) (calls : Calls) : Step Move :=
  match want with
  | .panic => force o want calls (panic calls (.raised o.render))
  | .call hash uri line character => force o want calls (send hash uri line character o calls)
  | .receiver n => force o want calls do supplyOperand n o (← pop calls) calls
  | .operand n receiver => supplyOperand n receiver o calls
  | .result => force o want calls (return .finish (some o))

def require (want : Want) (calls : Calls) : Step Move := do supply want (← pop calls) calls

/-- Keeps what a cell worked out, which is on top, and hands it on. -/
def settle (cell : Nat) (want : Want) (calls : Calls) : Step Move := do
  let v ← pop calls
  modify fun s => { s with cells := s.cells.setIfInBounds cell (.done v) }
  push v
  require want calls

/-! ### Instructions -/

def perform (calls : Calls) (i : Instruction) : Step Unit := do
  match i with
  | .declareClass id name =>
    let s ← get
    if (s.classes.lookup id).isSome then set { s with declaring := some id }
    else
      set { s with
        classes := s.classes ++ [(id, Class.mk ⟨id, name⟩ [])]
        declaring := some id
        events := .classMade name :: s.events }
  | .declareVariable id name =>
    match (← get).declaring with
    | none => panic calls (.looseVariable name)
    | some c => putClass ((← classOf calls c).addVariable id name)
  | .endMethod => panic calls .looseEnd
  | .inheritMethod source target hash =>
    let parent ← classOf calls source
    let heir ← classOf calls target
    match parent.method? hash with
    | none => panic calls (.nothingToInherit parent.ref.name hash)
    | some m => if (heir.method? hash).isNone then putClass (heir.addMethod hash m)
  | .loadObject id => push (← make (some (← classOf calls id).ref) .plain)
  | .loadLocal index =>
    match (← get).stack[index.toNat]? with
    | some o => push o
    | none => panic calls .missingLocal
  | .dropLocal index =>
    let s ← get
    match without? (index.toNat + 1) s.stack with
    | some rest => set { s with stack := s.stack.take index.toNat ++ rest }
    | none => panic calls .missingLocal
  | .storeGlobal id =>
    let o ← pop calls
    modify fun s => { s with globals := (id, o) :: s.globals.filter (·.1 != id) }
  | .loadGlobal id =>
    match (← get).globals.lookup id with
    | some o => push o
    | none => panic calls (.unsetGlobal id)
  | .loadLazy arity body =>
    let captured ← (List.replicate arity.toNat ()).mapM fun _ => pop calls
    let s ← get
    set { s with cells := s.cells.push (.waiting body captured.reverse calls) }
    push (← make none (.lazy s.cells.size))
  | .markClass m id =>
    let c ← classOf calls id
    modify fun s => { s with marks := (m, c.ref) :: s.marks }
  | .constString v => push (← boxed (.string v))
  | .constSymbol v => push (← boxed (.symbol v))
  | .constCharacter c => push (← boxed (.character c))
  | .constInt w v => push (← boxed (.int w v))
  | .constF32 bits => push (← boxed (.f32 bits))
  | .constF64 bits => push (← boxed (.f64 bits))
  | .constFBig r => push (← boxed (.fBig r))
  | _ => return

def isEnd (i : Instruction) : Bool := i.op == .endMethod

def define (calls : Calls) (hash : UInt64) (name : Bytes) (code : List Instruction) :
    Step (List Instruction) := do
  match code.dropWhile (!isEnd ·) with
  | [] => panic calls (.openMethod name)
  | _ :: rest =>
    match (← get).declaring with
    | none => panic calls (.looseMethod name)
    | some c =>
      putClass ((← classOf calls c).addMethod hash ⟨name, .code (code.takeWhile (!isEnd ·))⟩)
      return rest

def step : List Task → Step Next
  | [] => return .finish none
  | .await cell want _ :: rest => do (← settle cell want (← get).calls).onto rest
  | .run [] _ :: rest => leave rest
  | .run (i :: is) own :: rest => do
    let calls := (← get).calls
    match i with
    | .halt =>
      modify fun s => { s with halted := true }
      leave rest
    | .panic => (← require .panic calls).onto (.run is own :: rest)
    | .beginMethod hash name => return .go (.run (← define calls hash name is) own :: rest)
    | .callMethod hash uri line character =>
      (← require (.call hash uri line.toNat character.toNat) calls).onto (.run is own :: rest)
    | .callNative n => (← require (.receiver n) calls).onto (.run is own :: rest)
    | .return_ n | .returnLazy n =>
      leaveValue calls n.toNat
      leave rest
    | i =>
      perform calls i
      return .go (.run is own :: rest)

/-! ### Runs -/

/-- Ends all tasks, one after the other; each has its calls back before it ends. -/
def unwound (tasks : List Task) (s : State) : State := tasks.foldl (fun s x => { s with calls := x.calls }) s

def unwinding {α : Type} (tasks : List Task) (r : Step α) : Step α := fun s =>
  match r s with
  | .error e s => .error e (unwound tasks s)
  | r => r

def iterate (step : List Task → Step Next) : Nat → List Task → Step (Option Object)
  | 0, tasks => unwinding tasks (throw .unfinished)
  | fuel + 1, tasks => do
    match ← unwinding tasks (step tasks) with
    | .go tasks => iterate step fuel tasks
    | .finish result => return result

def patience : Nat := Nat.pow 2 62

/-- A panic is noted and leaves nothing on the stack and nothing at work. -/
def report {α : Type} (r : Step α) : Step α := fun s =>
  match r s with
  | .error (.panic p) s =>
    .error (.panic p) { s with stack := [], calls := .none, events := .panicked p :: s.events }
  | r => r

def eval (code : List Instruction) : Step Unit := do
  modify fun s => { s with halted := false }
  let calls := (← get).calls
  let _ ← report (iterate step patience [.run code calls])

/-- Takes the value on top and works it out, by steps of some kind, if it is lazy. -/
def popBy (step : List Task → Step Next) : Step (Option Object) :=
  report do
    match ← (require .result (← get).calls >>= Move.onto []) with
    | .go tasks => iterate step patience tasks
    | .finish result => return result

def evalPop : Step (Option Object) := popBy step

end Parlance.Machine
