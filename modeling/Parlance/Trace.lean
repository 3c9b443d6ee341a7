import Parlance.Text.Digit
import Parlance.Text.Json
import Parlance.Text.Moment
import Parlance.Text.Quoted
/-!
Traces: what a command does, as spans that begin and end and points in between.
-/
namespace Parlance.Trace

inductive Level where
  | off
  | error
  | phase
  | detail
  | debug
  deriving DecidableEq, Repr, Inhabited

namespace Level

def all : List Level := [off, error, phase, detail, debug]

def name : Level → String
  | off => "off"
  | error => "error"
  | phase => "phase"
  | detail => "detail"
  | debug => "debug"

def ofName? (s : String) : Option Level := all.find? fun l => Text.isWord l.name s

def refusal (s : String) : String :=
  s!"invalid trace level {Quoted.writeString s} (expected off|error|phase|detail|debug)"

end Level

inductive Scope where
  | driver
  | pass
  | module
  | node
  deriving DecidableEq, Repr, Inhabited

namespace Scope

def all : List Scope := [driver, pass, module, node]

def name : Scope → String
  | driver => "driver"
  | pass => "pass"
  | module => "module"
  | node => "node"

def ofName? (s : String) : Option Scope := all.find? (·.name == s)

end Scope

def isErrorPoint (name : String) : Bool := name == "panic" || name == "cache_put_failed"

def Level.allows (l : Level) (scope : Scope) (name : String) : Bool :=
  match l with
  | off => false
  | error => isErrorPoint name
  | phase => scope == .driver || scope == .pass
  | detail => scope != .node
  | debug => true

inductive Kind where
  | begin
  | finish
  | point
  | heartbeat
  deriving DecidableEq, Repr, Inhabited

namespace Kind

def all : List Kind := [begin, finish, point, heartbeat]

def name : Kind → String
  | begin => "begin"
  | finish => "end"
  | point => "point"
  | heartbeat => "heartbeat"

def ofName? (s : String) : Option Kind := all.find? (·.name == s)

def mark : Kind → String
  | begin => "→ "
  | finish => "← "
  | point => "• "
  | heartbeat => "♡ "

end Kind

inductive Mode where
  | stream
  | ring
  deriving DecidableEq, Repr, Inhabited

namespace Mode

def name : Mode → String
  | stream => "stream"
  | ring => "ring"

def lower (c : Char) : Char := if c.toNat = 0x130 then 'i' else c.toLower

def ofName? (s : String) : Option Mode :=
  match String.ofList (s.toList.map lower) with
  | "stream" => some stream
  | "ring" => some ring
  | _ => none

def refusal (s : String) : String :=
  s!"invalid trace mode {Quoted.writeString s} (expected stream|ring)"

end Mode

inductive Format where
  | text
  | lines
  deriving DecidableEq, Repr

/-- An event. Spans have numbers from 1 on; 0 stands for none. -/
structure Event where
  kind : Option Kind
  scope : Option Scope
  span : Nat
  parent : Nat
  name : String
  detail : String
  extra : List (String × String)
  deriving DecidableEq, Repr, Inhabited

structure Reading where
  time : Int
  micros : Int
  deriving DecidableEq, Repr, Inhabited

structure Stamp where
  seq : Nat
  reading : Option Reading
  deriving DecidableEq, Repr, Inhabited

def Stamp.time (s : Stamp) : String := (s.reading.map fun r => Moment.timestamp r.time).getD "_"

def Stamp.duration (s : Stamp) : String := (s.reading.map fun r => Moment.duration r.micros).getD "_"

def Stamp.micros (s : Stamp) : Int := (s.reading.map (·.micros)).getD 0

def numbered (es : List Event) : List (Event × Stamp) := es.mapIdx fun i e => (e, ⟨i + 1, none⟩)

def Event.kindName (e : Event) : String := (e.kind.map Kind.name).getD "unknown"

def Event.scopeName (e : Event) : String := (e.scope.map Scope.name).getD "unknown"

def Event.json (e : Event) (s : Stamp) : JsonValue :=
  let text := JsonValue.ofString
  let number (key : String) (n : Int) : List (String × JsonValue) :=
    if n = 0 then [] else [(key, .int n)]
  .record <|
    [("time", text s.time), ("seq", .int s.seq),
      ("kind", text e.kindName), ("scope", text e.scopeName)] ++
    number "span_id" e.span ++ number "parent_id" e.parent ++ [("name", text e.name)] ++
    (if e.detail.isEmpty then [] else [("detail", text e.detail)]) ++
    number "duration_us" s.micros ++
    if e.extra.isEmpty then [] else [("extra", .record (e.extra.map fun (k, v) => (k, text v)))]

abbrev Depths := List (Nat × Nat)

def Event.depth (e : Event) (open_ : Depths) : Nat :=
  if e.parent = 0 then 0 else (open_.lookup e.parent).getD 0 + 1

def Event.follow (e : Event) (open_ : Depths) : Depths :=
  match e.kind with
  | some .begin => (e.span, e.depth open_) :: open_.filter (·.1 != e.span)
  | some .finish => open_.filter (·.1 != e.span)
  | _ => open_

def Event.text (e : Event) (s : Stamp) (depth : Nat) : String :=
  Text.copies ' ' (2 * depth) ++ ((e.kind.map Kind.mark).getD "") ++ e.name ++
    (if e.kind == some .finish then " " ++ s.duration else "") ++
    (if e.detail.isEmpty then "" else s!" ({e.detail})") ++
    (if e.extra.isEmpty then ""
      else " \x7b" ++ ", ".intercalate (e.extra.map fun (k, v) => k ++ "=" ++ v) ++ "\x7d")

/-- What has been written of a trace, the last line first, and how deep the open spans are. -/
structure Writer where
  format : Format
  open_ : Depths
  lines : List String

namespace Writer

def start (format : Format) : Writer := ⟨format, [], []⟩

def write (w : Writer) : Event × Stamp → Writer
  | (e, s) =>
    let line :=
      match w.format with
      | .text => e.text s (e.depth w.open_)
      | .lines => (e.json s).compact
    ⟨w.format, e.follow w.open_, line :: w.lines⟩

def text (w : Writer) : List String := w.lines.reverse

end Writer

def defaultRingSize : Nat := 4096

/-- Slots for the newest events. The next one goes to the head; when that has come round once the ring is
full, and the oldest event stands at the head. -/
structure Ring (α : Type) where
  slots : Array α
  head : Nat
  full : Bool
  head_lt : head < slots.size

namespace Ring

variable {α σ : Type}

def slotsFor (size : Int) : Nat := if size ≤ 0 then defaultRingSize else size.toNat

theorem slotsFor_pos (size : Int) : 0 < slotsFor size := by
  unfold slotsFor defaultRingSize
  split <;> omega

def empty [Inhabited α] (size : Int) : Ring α where
  slots := .replicate (slotsFor size) default
  head := 0
  full := false
  head_lt := by simpa using slotsFor_pos size

def emit (r : Ring α) (a : α) : Ring α where
  slots := r.slots.set r.head a r.head_lt
  head := (r.head + 1) % r.slots.size
  full := r.full || (r.head + 1) % r.slots.size == 0
  head_lt := by simpa using Nat.mod_lt _ (Nat.zero_lt_of_lt r.head_lt)

def snapshot (r : Ring α) : List α :=
  if r.full then r.slots.toList.drop r.head ++ r.slots.toList.take r.head else r.slots.toList.take r.head

def close (r : Ring α) (write : σ → α → σ) (w : σ) : σ := r.snapshot.foldl write w

end Ring

def record (level : Level) (mode : Mode) (format : Format) (size : Int)
    (es : List (Event × Stamp)) : List String :=
  match level, mode with
  | .off, _ => []
  | _, .stream => (es.foldl Writer.write (.start format)).text
  | _, .ring => ((es.foldl Ring.emit (.empty size)).close Writer.write (.start format)).text

/-- The events that a level lets through. Spans are numbered anew as they begin, and a span that was
not let through is nobody's parent. -/
def select (level : Level) (es : List Event) : List Event :=
  (es.foldl step ([], [], 1)).1.reverse
where
  step (acc : List Event × List (Nat × Nat) × Nat) (e : Event) :
      List Event × List (Nat × Nat) × Nat :=
    let (out, numbers, next) := acc
    if !((e.scope.map (level.allows · e.name)).getD false) then acc
    else
      let renumbered (numbers : List (Nat × Nat)) : Event :=
        { e with span := (numbers.lookup e.span).getD 0, parent := (numbers.lookup e.parent).getD 0 }
      if e.kind == some .begin then
        let numbers := (e.span, next) :: numbers
        (renumbered numbers :: out, numbers, next + 1)
      else (renumbered numbers :: out, numbers, next)

end Parlance.Trace
