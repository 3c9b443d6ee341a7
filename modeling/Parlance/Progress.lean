import Parlance.Lowering
import Parlance.Machine
/-!
What a build reports while it works.
-/
namespace Parlance.Progress

inductive Stage where
  | load
  | cache
  | parse
  | check
  | generate
  | run
  deriving DecidableEq, Repr, Inhabited

namespace Stage

def all : List Stage := [load, cache, parse, check, generate, run]

def name : Stage → String
  | load => "load"
  | cache => "cache"
  | parse => "parse"
  | check => "check"
  | generate => "generate"
  | run => "run"

def ofName? (s : String) : Option Stage := all.find? (·.name == s)

end Stage

inductive Status where
  | queued
  | working
  | done
  | error
  deriving DecidableEq, Repr, Inhabited

namespace Status

def all : List Status := [queued, working, done, error]

def name : Status → String
  | queued => "queued"
  | working => "working"
  | done => "done"
  | error => "error"

def ofName? (s : String) : Option Status := all.find? (·.name == s)

def isFinal (s : Status) : Bool := s == done || s == error

end Status

inductive Failure where
  | cancelled
  | diagnostics
  | lowering (e : Lowering.Error)
  | machine (f : Machine.Fault)
  deriving Repr

def Failure.message : Failure → String
  | cancelled => "context canceled"
  | diagnostics => "diagnostics reported errors"
  | lowering e => e.message
  | machine f => f.message

def Failure.kind : Failure → String
  | cancelled => "cancelled"
  | diagnostics => "diagnostics"
  | lowering e => e.cause.kind
  | machine (.panic _) => "panic"
  | machine _ => "not initialized"

structure Event where
  file : Uri
  stage : Stage
  status : Status
  failure : Option Failure := none
  deriving Repr

end Parlance.Progress
