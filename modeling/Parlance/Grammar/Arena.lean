import Parlance.Tree
/-!
Where the nodes of a text are kept while it is read. A node is known by its number, which is handed
out before the nodes below it are read.
-/
namespace Parlance

/-- A node that has been read and those below it. -/
inductive Twig where
  | node (id : Nat) (shape : Shape) (span : Span) (children : List Twig)

namespace Twig

def id : Twig → Nat
  | node i _ _ _ => i

def shape : Twig → Shape
  | node _ s _ _ => s

def span : Twig → Span
  | node _ _ s _ => s

def children : Twig → List Twig
  | node _ _ _ cs => cs

end Twig

structure Arena.Node where
  parent : Option Nat
  shape : Shape
  span : Span
  children : List Nat

/-- What the numbers handed out so far stand for: some for no node yet, some for none any more. -/
abbrev Arena := Array (Option Arena.Node)

namespace Arena

def node? (a : Arena) (i : Nat) : Option Node := (a[i]?).join

def add (a : Arena) (i : Nat) (n : Node) : Arena := a.setIfInBounds i (some n)

def remove (a : Arena) (i : Nat) : Arena := a.setIfInBounds i none

def reparent (a : Arena) (up i : Nat) : Arena :=
  match a.node? i with
  | some n => a.add i { n with parent := some up }
  | none => a

def reparentAll (a : Arena) (up : Nat) (ts : List Twig) : Arena := ts.foldl (fun a t => a.reparent up t.id) a

mutual

/-- Takes a node out and all nodes below it. -/
def discard (a : Arena) : Twig → Arena
  | .node i _ _ children => (a.discardAll children).remove i

def discardAll (a : Arena) : List Twig → Arena
  | [] => a
  | t :: ts => (a.discard t).discardAll ts

end

/-- The tree found from a node on, of `depth` levels. -/
def tree (a : Arena) : Nat → Nat → Tree
  | 0, _ => default
  | depth + 1, i =>
    match a.node? i with
    | some n => .node n.shape n.span (n.children.map (a.tree depth))
    | none => default

end Arena

end Parlance
