import Parlance.Grammar.Document
/-!
All trees of a program laid out in one array. A node is known by its position, and the nodes below
it stand right behind it, so a subtree is a stretch of the array.
-/
namespace Parlance

structure Node where
  id : Nat
  stop : Nat
  parent : Option Nat
  shape : Shape
  span : Span
  children : List Nat
  deriving DecidableEq, Repr, Inhabited

namespace Node

def label (n : Node) : String := n.shape.name ++ " " ++ n.span.offsets

def reference (n : Node) : String := n.span.uri ++ " " ++ n.label

end Node

namespace Tree

def starts (first : Nat) : List Tree → List Nat
  | [] => []
  | t :: ts => first :: starts (first + t.size) ts

mutual

def place (parent : Option Nat) (nodes : Array Node) : Tree → Array Node
  | node shape span children =>
    let id := nodes.size
    let stop := id + 1 + sizeOf children
    placeAll (some id) (nodes.push ⟨id, stop, parent, shape, span, starts (id + 1) children⟩) children

def placeAll (parent : Option Nat) (nodes : Array Node) : List Tree → Array Node
  | [] => nodes
  | t :: ts => placeAll parent (place parent nodes t) ts

end

end Tree

structure Planted where
  document : Document
  root : Nat
  deriving Inhabited

structure Forest where
  nodes : Array Node
  /-- Sorted by the names of the sources, each of which occurs once. -/
  plants : List Planted
  deriving Inhabited

namespace Planted

def uri (p : Planted) : Uri := p.document.source.uri

end Planted

def placeBy {α : Type} (uri : α → Uri) (a : α) : List α → List α
  | [] => [a]
  | b :: bs =>
    if uri a < uri b then a :: b :: bs
    else if uri a = uri b then a :: bs
    else b :: placeBy uri a bs

namespace Forest

def empty : Forest := ⟨#[], []⟩

variable (f : Forest)

def plant (d : Document) : Forest :=
  ⟨d.tree.place none f.nodes, placeBy Planted.uri ⟨d, f.nodes.size⟩ f.plants⟩

def ofDocuments (ds : List Document) : Forest := ds.foldl plant empty

def node? (id : Nat) : Option Node := f.nodes[id]?

def uris : List Uri := f.plants.map (·.uri)

def planted? (uri : Uri) : Option Planted := f.plants.find? (·.uri == uri)

def document? (uri : Uri) : Option Document := (f.planted? uri).map (·.document)

def root? (uri : Uri) : Option Node := (f.planted? uri).bind fun t => f.node? t.root

def roots : List Node := f.plants.filterMap (f.node? ·.root)

def parent? (n : Node) : Option Node := n.parent.bind f.node?

def children (f : Forest) (n : Node) : List Node := n.children.filterMap f.node?

/-- The node and what stands above it, innermost first. Parents stand before their children. -/
def upFrom (f : Forest) (id : Nat) : List Node :=
  match f.node? id with
  | none => []
  | some n =>
    match n.parent with
    | none => [n]
    | some q => if q < id then n :: f.upFrom q else [n]
termination_by id

def upwards (n : Node) : List Node := f.upFrom n.id

def closest? (p : Shape → Bool) (n : Node) : Option Node :=
  (f.upwards n).find? (p ·.shape)

def rootOf (n : Node) : Node := (f.upwards n).getLastD n

def within (n : Node) : List Node := (f.nodes.extract n.id n.stop).toList

def all : List Node := f.roots.flatMap f.within

def matching (p : Shape → Bool) : List Node := f.all.filter (p ·.shape)

def walk (enter : Node → Bool) (ns : List Node) : List Node :=
  go 0 ns
where
  go (skip : Nat) : List Node → List Node
    | [] => []
    | n :: ns => if n.id < skip then go skip ns else n :: go (if enter n then 0 else n.stop) ns

def isWithin (needle haystack : Node) : Bool := haystack.id ≤ needle.id && needle.id < haystack.stop

def around (uri : Uri) (l : Location) : List Node :=
  match f.planted? uri with
  | none => []
  | some p => (p.document.tree.positionsAround uri l).filterMap fun i => f.node? (p.root + i)

def part? (p : Shape → Bool) (n : Node) : Option Node :=
  (f.children n).find? (p ·.shape)

end Forest

end Parlance
