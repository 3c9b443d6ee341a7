import Parlance.Instruction.Assembly
import Parlance.Typing
/-!
Programs as instructions. A frame follows the values the machine will hold, so that locals can be
addressed by their distance from the top. Arguments that take work are passed as lazy values.
-/
namespace Parlance.Lowering

/-- Why a program cannot be lowered. Something is missing, or it is not of the kind it has to be; one
that passes all checks never is. -/
inductive Cause where
  | noTree (uri : Uri)
  | selfOutside
  | emptyTuple
  | incompleteSend
  | panicWithoutMessage
  | referenceToNothing
  | parameterNotHeld
  | bindingNotHeld
  | variableOutside
  | noCascadeReceiver
  | cascadeNotHeld
  | incompleteLet
  | emptyBinding
  | declarationNotHeld (id : UInt64)
  | captureNotHeld (id : UInt64)
  | emptyStatement
  | notAnExpression (shape : Shape)
  | partialClass
  | notAValue (shape : Shape)
  | noClassName
  | noVariableName
  | noMethodSelector
  | noInitializerSelector
  | noMessageSelector
  | noPattern
  | arity (n : Nat)
  | captures
  | notANumberClass (name : String)
  | doesNotFit (value : Int) (name : String)
  | floatTyped (name : String)
  | callsiteLine (n : Nat)
  | callsiteCharacter (n : Int)
  deriving Repr

def Cause.isMissing : Cause → Bool
  | noTree _ | selfOutside | emptyTuple | incompleteSend | panicWithoutMessage | referenceToNothing
  | parameterNotHeld | bindingNotHeld | variableOutside | noCascadeReceiver | cascadeNotHeld
  | incompleteLet | emptyBinding | declarationNotHeld _ | captureNotHeld _ | emptyStatement => true
  | _ => false

def Cause.kind (c : Cause) : String := if c.isMissing then "traversal failure" else "invalid node"

def Cause.message : Cause → String
  | noTree uri => s!"no tree for {uri}"
  | selfOutside => "self outside of a class"
  | emptyTuple => "empty tuple"
  | incompleteSend => "incomplete message send"
  | panicWithoutMessage => "panic without a message"
  | referenceToNothing => "reference to nothing"
  | parameterNotHeld => "parameter is not on the stack"
  | bindingNotHeld => "let binding is not on the stack"
  | variableOutside => "variable outside of a class"
  | noCascadeReceiver => "cascade without a receiver"
  | cascadeNotHeld => "cascade receiver is not on the stack"
  | incompleteLet => "incomplete let expression"
  | emptyBinding => "let binding without an expression"
  | declarationNotHeld id => s!"declaration {Instruction.idText id} is not on the stack"
  | captureNotHeld id => s!"captured {Instruction.idText id} is not on the stack"
  | emptyStatement => "empty expression statement"
  | notAnExpression s => s!"{s.name} is not an expression"
  | partialClass => "reference to a partial class"
  | notAValue s => s!"{s.name} cannot be referenced as a value"
  | noClassName => "class without a name"
  | noVariableName => "variable without a name"
  | noMethodSelector => "method without a selector"
  | noInitializerSelector => "initializer without a selector"
  | noMessageSelector => "message without a selector"
  | noPattern => "no message pattern"
  | arity n => s!"arity {n}: out of range"
  | captures => "too many captured values: out of range"
  | notANumberClass name => s!"`{name}` is not a number class"
  | doesNotFit v name => s!"{v} does not fit in `{name}`"
  | floatTyped name => s!"float literal typed as `{name}`"
  | callsiteLine n => s!"callsite line {n}: out of range"
  | callsiteCharacter n => s!"callsite column {n}: out of range"

def handle (n : Node) : UInt64 := (n.id + 1).toUInt64

structure Error where
  cause : Cause
  node : Option Node
  deriving Repr

def Error.message (e : Error) : String :=
  match e.node with
  | none => s!"{e.cause.kind}: {e.cause.message}"
  | some n =>
    s!"{e.cause.kind} at {n.span.uri}:{n.span.start.render} (node {Instruction.idText (handle n)}, " ++
      s!"{n.shape.name}): {e.cause.message}"

/-- What a frame holds: a value known by a node, or `self`. -/
inductive Slot where
  | value (id : Nat)
  | self
  deriving DecidableEq, Repr

abbrev Frame := List Slot

def Frame.index? (f : Frame) (s : Slot) : Option UInt16 :=
  (f.idxOf? s).bind fun i => if i < 65536 then some i.toUInt16 else none

structure Shown where
  type : Ty
  behaviours : Option (List Behaviour)
  deriving Repr

structure State where
  memo : Memo
  frame : Frame
  shown : List Shown

abbrev Gen := ExceptT Error (StateM State)

def fail {α : Type} (n : Node) (c : Cause) : Gen α := throw ⟨c, some n⟩

def need {α : Type} (n : Node) (c : Cause) : Option α → Gen α
  | some a => return a
  | none => fail n c

def typing {α : Type} (t : Typing α) : Gen α := do
  let s ← get
  let (a, memo) := t.run s.memo
  set { s with memo }
  return a

def setFrame (f : Frame) : Gen Unit := modify ({ · with frame := f })
def reframe (change : Frame → Frame) : Gen Unit := modify fun s => { s with frame := change s.frame }
def push (n : Node) : Gen Unit := reframe (.value n.id :: ·)
def drop (count : Nat) : Gen Unit := reframe (List.drop count)

def nameTop (n : Node) : Gen Unit := do drop 1; push n

def index (at_ : Node) (c : Cause) (s : Slot) : Gen UInt16 := do need at_ c ((← get).frame.index? s)

def hashOf (selector : String) : UInt64 := Selector.hash (Bytes.ofString selector)

def call (selector : String) (n : Node) : Gen Instruction := do
  let l := n.span.start
  if l.line ≥ Nat.pow 2 32 then fail n (.callsiteLine l.line)
  if l.character < 0 || l.character ≥ Nat.pow 2 32 then fail n (.callsiteCharacter l.character)
  return .callMethod (hashOf selector) (Bytes.ofString n.span.uri) l.line.toUInt32
    (.ofInt l.character)

/-! ### Literals -/

def intWidth (c : NumberClass) : IntWidth :=
  match c.isSigned, c.bits with
  | false, some 8 => .u8
  | false, some 16 => .u16
  | false, some 32 => .u32
  | false, some 64 => .u64
  | false, some _ => .u128
  | false, none => .uBig
  | true, some 8 => .i8
  | true, some 16 => .i16
  | true, some 32 => .i32
  | true, some 64 => .i64
  | true, some _ => .i128
  | true, none => .iBig

variable (p : Program)

def literalClass? (n : Node) : Gen (Option NumberClass) := do
  match ← typing (p.expressionType n) with
  | .object name id _ =>
    let qualified := ((p.node? id).bind p.qualifiedName?).getD name
    if qualified == libraryNamespace ++ "/Object" then return none
    match NumberClass.ofName? qualified with
    | some c => return some c
    | none => fail n (.notANumberClass name)
  | _ => return none

def floatConst (c : NumberClass) (v : Rat) : Instruction :=
  match c.bits with
  | some 32 => .constF32 (Binary.round .single v).toUInt32
  | some _ => .constF64 (Binary.round .double v).toUInt64
  | none => .constFBig v

/-- A literal that nothing gives a class is of the narrowest one that holds it, from 32 bits on. -/
def integer (n : Node) (v : Int) : Gen Instruction := do
  let c :=
    match ← literalClass? p n with
    | none => NumberClass.narrowestInteger v true
    | some c =>
      if !c.isAbstract then c
      else if c.isFloat then NumberClass.narrowestFloat v
      else NumberClass.narrowestInteger v c.isSigned
  if c.isFloat then return floatConst c v
  if !c.fits v then fail n (.doesNotFit v c.name)
  return .constInt (intWidth c) v

def float (n : Node) (v : Rat) : Gen Instruction := do
  match ← literalClass? p n with
  | none => return floatConst (NumberClass.narrowestFloat v) v
  | some c =>
    if c.isAbstract && c.acceptsFloats then return floatConst (NumberClass.narrowestFloat v) v
    if !c.isFloat then fail n (.floatTyped c.name)
    return floatConst c v

/-! ### Expressions -/

def reference (n : Node) : Gen (List Instruction) := do
  let d ← need n .referenceToNothing (p.declaration? n .value)
  let code ←
    match d.shape with
    | .classNode isPartial =>
      if isPartial then fail n .partialClass
      let id := if p.hasClassObject d then Instruction.classObjectId (handle d) else handle d
      pure [Instruction.loadObject id]
    | .parameter => pure [.loadLocal (← index n .parameterNotHeld (.value d.id))]
    | .letBinding =>
      match (← get).frame.index? (.value d.id) with
      | some i => pure [.loadLocal i]
      | none =>
        if p.isGlobalBinding d then pure [.loadGlobal (handle d)] else fail n .bindingNotHeld
    | .variableNode _ =>
      let name ← need d .noVariableName (p.nameOf? d)
      let i ← index n .variableOutside .self
      pure [.loadLocal i, ← call name n]
    | s => fail d (.notAValue s)
  push n
  return code

def isCompound : Shape → Bool
  | .tuple | .send | .cascade | .panicExpression => true
  | _ => false

def dropDeclaration (at_ n : Node) : Gen (List Instruction) := do
  let i ← index at_ (.declarationNotHeld (handle n)) (.value n.id)
  reframe (·.eraseIdx i.toNat)
  return [.dropLocal i]

mutual

def expressionIn (p : Program) : Nat → Node → Gen (List Instruction)
  | 0, n => fail n (.notAnExpression n.shape)
  | fuel + 1, n => do
    let constant (i : Instruction) : Gen (List Instruction) := do
      push n
      return [i]
    match n.shape with
    | .selfReference => constant (.loadLocal (← index n .selfOutside .self))
    | .reference => reference p n
    | .tuple => expressionIn p fuel (← need n .emptyTuple (p.value? n))
    | .send =>
      let receiver ← need n .incompleteSend (p.value? n)
      let message ← need n .incompleteSend (p.part? Shape.isMessage n)
      sendIn p fuel n message (expressionIn p fuel receiver)
    | .cascade => cascadeIn p fuel n
    | .letExpression => letIn p fuel n
    | .panicExpression =>
      let code ← expressionIn p fuel (← need n .panicWithoutMessage (p.value? n))
      nameTop n
      return code ++ [.panic]
    | .string _ v => constant (.constString (Bytes.ofString v))
    | .character _ v => constant (.constCharacter (Char.ofNat v).val)
    | .symbolLiteral _ v => constant (.constSymbol (Bytes.ofString v))
    | .integer _ v => constant (← integer p n v)
    | .float _ v => constant (← float p n v)
    | s => fail n (.notAnExpression s)

/-- The arguments, the last one first, then the receiver and the call. -/
def sendIn (p : Program) : Nat → Node → Node → Gen (List Instruction) → Gen (List Instruction)
  | 0, site, _, _ => fail site .incompleteSend
  | fuel + 1, site, message, receiver => do
    let selector ← need message .noMessageSelector (p.selector? message)
    let args := p.arguments message
    let before ← args.reverse.mapM fun a =>
      if isCompound a.shape then lazyIn p fuel a else expressionIn p fuel a
    let code ← receiver
    let i ← call selector message
    drop (args.length + 1)
    push site
    return before.flatten ++ code ++ [i]

/-- The receiver is kept below; of the results only the last one is. -/
def cascadeIn (p : Program) : Nat → Node → Gen (List Instruction)
  | 0, n => fail n .noCascadeReceiver
  | fuel + 1, n => do
    let receiver ← need n .noCascadeReceiver (p.value? n)
    let code ← expressionIn p fuel receiver
    nameTop n
    let messages := (p.children n).filter (·.shape.isMessage)
    if messages.isEmpty then return code
    let again : Gen (List Instruction) := do
      let i ← index n .cascadeNotHeld (.value n.id)
      push receiver
      return [.loadLocal i]
    let sends ← messages.mapIdxM fun i m => do
      let code ← sendIn p fuel m m again
      if i + 1 < messages.length then
        drop 1
        return code ++ [.dropLocal 0]
      return code
    let last ← dropDeclaration n n
    nameTop n
    return code ++ sends.flatten ++ last

def letIn (p : Program) : Nat → Node → Gen (List Instruction)
  | 0, n => fail n .incompleteLet
  | fuel + 1, n => do
    let binding ← need n .incompleteLet (p.part? (· == .letBinding) n)
    let body ← need n .incompleteLet (p.value? n)
    let value ← need binding .emptyBinding (p.value? binding)
    let before ← expressionIn p fuel value
    nameTop binding
    let code ← expressionIn p fuel body
    let last ← dropDeclaration n binding
    nameTop n
    return before ++ code ++ last

/-- A lazy value takes the locals it uses with it, and `self` behind them. -/
def lazyIn (p : Program) : Nat → Node → Gen (List Instruction)
  | 0, n => fail n (.notAnExpression n.shape)
  | fuel + 1, n => do
    let locals := p.crossing n
    let captures ← locals.mapM fun d => do
      let i ← index n (.captureNotHeld (handle d)) (.value d.id)
      push d
      return Instruction.loadLocal i
    let withSelf := p.selfCrosses n
    let selfCapture ←
      if withSelf then
        let i ← index n .selfOutside .self
        push n
        pure [Instruction.loadLocal i]
      else pure []
    let count := captures.length + selfCapture.length
    if count ≥ 65536 then fail n .captures
    let outer := (← get).frame
    let inner := locals.reverse.map fun d => Slot.value d.id
    setFrame (if withSelf then .self :: inner else inner)
    let body ← expressionIn p fuel n
    setFrame (.value n.id :: outer.drop count)
    let arity := count.toUInt16
    return captures ++ selfCapture ++ [.loadLazy arity (body ++ [.returnLazy arity])]

end

/-- More steps than lead from a node to one of its leaves. -/
def expression (n : Node) : Gen (List Instruction) :=
  expressionIn p (4 * p.nodes.size + 1) n

/-! ### Declarations -/

def marks : List (String × Mark) :=
  [("Loa/True", .true), ("Loa/False", .false), ("Loa/String", .string),
    ("Loa/Character", .character), ("Loa/Symbol", .symbol), ("Loa/UInt8", .int .u8),
    ("Loa/UInt16", .int .u16), ("Loa/UInt32", .int .u32), ("Loa/UInt64", .int .u64),
    ("Loa/UInt128", .int .u128), ("Loa/BigNatural", .int .uBig), ("Loa/Int8", .int .i8),
    ("Loa/Int16", .int .i16), ("Loa/Int32", .int .i32), ("Loa/Int64", .int .i64),
    ("Loa/Int128", .int .i128), ("Loa/BigInteger", .int .iBig), ("Loa/Float32", .f32),
    ("Loa/Float64", .f64), ("Loa/BigFloat", .fBig)]

def declare (n : Node) (name : String) : Instruction :=
  .declareClass (handle n) (Bytes.ofString name)

def declareClassObject (n : Node) (name : String) : Instruction :=
  .declareClass (Instruction.classObjectId (handle n)) (Bytes.ofString (name ++ " class"))

def classHead (c : Node) : Gen (List Instruction) := do
  let name ← need c .noClassName (p.nameOf? c)
  let mark := ((p.qualifiedName? c).bind fun q => marks.lookup q).map fun m => Instruction.markClass m (handle c)
  return declare c name :: mark.toList ++
    if p.hasClassObject c then [declareClassObject c name] else []

/-- The frame of a call: the parameters, the last one first, and `self` on top. -/
def enterMember (member : Node) : Gen Unit :=
  setFrame (.self :: (p.parameters member).map fun d => .value d.id)

def arity (p : Program) (member : Node) : Gen UInt16 := do
  let n ← need member .noPattern (p.methodArity? member)
  if n < 65536 then return n.toUInt16 else fail member (.arity n)

def unimplemented (name : String) : List Instruction :=
  [.constString (Bytes.ofString (name ++ " is not implemented.")), .panic]

def method (m : Node) : Gen (List Instruction) := do
  let selector ← need m .noMethodSelector (p.methodSelector? m)
  let name := (p.qualifiedMethodName? m).getD ""
  let code ←
    if m.shape.isNative then
      match Native.ofMethod? name with
      | some native => pure [Instruction.callNative native, .return_ 0]
      | none => pure (unimplemented name)
    else
      match p.body? m with
      | none => pure (unimplemented name)
      | some body =>
        let n ← arity p m
        enterMember p m
        let code ← expression p body
        pure (code ++ [.return_ n])
  return .beginMethod (hashOf selector) (Bytes.ofString name) :: code ++ [.endMethod]

/-- An initializer takes the instance of the class and sends it a setter for each assignment. -/
def initializer (c i : Node) : Gen (List Instruction) := do
  let selector ← need i .noInitializerSelector (p.initializerSelector? i)
  let n ← arity p i
  let name := (p.qualifiedMethodName? i).getD ""
  enterMember p i
  let assignments := p.assignments i
  let values ← assignments.reverse.mapM fun a => expression p a.value
  push c
  let setters ← assignments.mapM fun a => do
    let i ← call (a.name ++ ":") a.keyword
    reframe (·.eraseIdx 1)
    return i
  return .beginMethod (hashOf selector) (Bytes.ofString name) :: values.flatten ++
    .loadObject (handle c) :: setters ++ [.return_ n, .endMethod]

def classMembers (c : Node) : Gen (List Instruction) := do
  let name := (p.nameOf? c).getD ""
  let held ← (p.memberVariables c).mapM fun v => do
    let name ← need v .noVariableName (p.nameOf? v)
    return Instruction.declareVariable (handle v) (Bytes.ofString name)
  let methods ← (p.methods c).mapM (method p)
  let own := declare c name :: held ++ methods.flatten
  if !p.hasClassObject c then return own
  let initializers ← (p.initializers c).mapM (initializer p c)
  return own ++ declareClassObject c name :: initializers.flatten

/-- Every method a class answers to without declaring it is taken from the class that does. -/
def inheritLinks (c : Node) : Gen (List Instruction) := do
  match ← typing (p.declarationType c) with
  | .object name id args =>
    let bs ← typing (p.behaviours (.object name id args))
    return bs.filterMap fun b => do
      let owner ← p.closestClass? (← p.node? b.method)
      if owner.id == c.id || owner.shape == .classNode true then none
      else some (.inheritMethod (handle owner) (handle c) (hashOf b.selector))
  | _ => return []

def globalBinding (n : Node) : Gen (List Instruction) := do
  let e ← need n .emptyBinding (p.value? n)
  setFrame []
  let code ← expression p e
  drop 1
  return code ++ [.storeGlobal (handle n)]

/-- All classes are known before their members, those before what is inherited, and bindings are
worked out last. -/
def declarations (ds : List Node) : Gen (List Instruction) := do
  let classes := ds.filter (·.shape == .classNode false)
  let heads ← classes.mapM (classHead p)
  let members ← classes.mapM (classMembers p)
  let links ← classes.mapM (inheritLinks p)
  let bindings ← (ds.filter (·.shape == .letBinding)).mapM (globalBinding p)
  return heads.flatten ++ members.flatten ++ links.flatten ++ bindings.flatten

/-! ### Lines -/

def show_ (s : Shown) : Gen Unit := modify fun st => { st with shown := s :: st.shown }

def directive (word : String) (e : Node) : Gen Unit := do
  let t ← typing (p.expressionType e)
  if word == "t" || word == "type" then show_ ⟨t, none⟩
  else if word == "b" || word == "behaviours" then show_ ⟨t, some (← typing (p.behaviours t))⟩

/-- A statement that is no declaration in front of which `export` stands. -/
def plainStatement (n : Node) : Gen (List Instruction) := do
  setFrame []
  match n.shape with
  | .letBinding => globalBinding p n
  | .lineExpression => expression p (← need n .emptyStatement (p.value? n))
  | .lineDirective word =>
    if let some e := p.value? n then directive p word.name e
    return []
  | s => if s.isExpression then expression p n else return []

/-- However often `export` stands in front of a declaration, it is the declaration that counts. -/
def statement (n : Node) : Gen (List Instruction) :=
  match (p.within n).find? (·.shape != .exported) with
  | some d => plainStatement p d
  | none => return []

def line (n : Node) : Gen (List Instruction) := do
  let classes := (p.lineDeclarations n).filter (·.shape.isClass)
  let before ← declarations p classes
  let code ← (p.children n).mapM (statement p)
  return before ++ code.flatten

def moduleDeclarations (p : Program) (n : Node) : List Node := (p.moduleDeclarations n).map (·.2)

def source (uri : Uri) : Gen (List Instruction) := do
  match p.root? uri with
  | none => throw ⟨.noTree uri, none⟩
  | some root =>
    if root.shape == .lineRoot then line p root else declarations p (moduleDeclarations p root)

/-- The code of a whole program: what modules declare, then the lines in the order they were read. -/
def whole : Gen (List Instruction) := do
  let before ← declarations p (p.modules.flatMap (moduleDeclarations p))
  let lines ← (p.lines.mergeSort fun a b => a.id ≤ b.id).mapM (line p)
  return before ++ lines.flatten ++ [.halt]

structure Outcome where
  code : Except Error (List Instruction)
  shown : List Shown
  memo : Memo

def run (g : Gen (List Instruction)) (memo : Memo) : Outcome :=
  let (code, s) := (ExceptT.run g).run ⟨memo, [], []⟩
  ⟨code, s.shown.reverse, s.memo⟩

end Parlance.Lowering
