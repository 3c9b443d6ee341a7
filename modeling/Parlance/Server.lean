import Parlance.Check
/-!
Open documents and questions about them, as an editor asks them. What is worked out for one question
is remembered until a document changes.
-/
namespace Parlance

/-- A line and a character as editors count them, from zero. -/
structure Position where
  line : Int
  character : Int
  deriving DecidableEq, Repr, Inhabited

namespace Position

def ofLocation (l : Location) : Position := ⟨l.line - 1, l.character - 1⟩

def locate (p : Position) (s : Source) : Location :=
  if p.line < 0 || p.character < 0 then s.locationAt 0
  else s.locationAt (s.offsetAt (p.line.toNat + 1) (p.character.toNat + 1))

end Position

structure Server where
  opened : List Document
  version : Nat
  max : Int
  analysis : Option (Program × Memo)

namespace Server

def unknownDocument (uri : Uri) : String := s!"unknown document: {uri}"

variable (s : Server)

def set (source : Source) : Server :=
  { s with
    opened := placeBy (·.source.uri) (source.parse none) s.opened
    version := s.version + 1
    analysis := none }

def start (library : List Source) (max : Int) : Server :=
  library.foldl set ⟨[], 0, max, none⟩

def sources : List Source := s.opened.map (·.source)

def source? (uri : Uri) : Option Source := s.sources.find? (·.uri == uri)

def replace (uri : Uri) (text : Bytes) : Option Server :=
  (s.source? uri).map fun source => s.set { source with code := text }

def change (uri : Uri) (start stop : Int) (text : Bytes) : Option Server :=
  (s.source? uri).map fun source =>
    let start := min start.toNat source.size
    let stop := min (Nat.max start stop.toNat) source.size
    s.set { source with code := source.code.take start ++ text ++ source.code.drop stop }

def changeRange (uri : Uri) (start stop : Position) (text : Bytes) : Option Server :=
  (s.source? uri).bind fun source =>
    s.change uri (start.locate source).offset (stop.locate source).offset text

def close (uri : Uri) : Server :=
  match s.source? uri with
  | none => s
  | some _ =>
    { s with opened := s.opened.filter (·.source.uri != uri), version := s.version + 1, analysis := none }

def documents : List Uri := (s.sources.map (·.uri)).filter (!Uri.isLibrary ·)

def locationAt (uri : Uri) (p : Position) : Option Location :=
  (s.source? uri).map p.locate

def ask {α : Type} (s : Server) (question : Program → Typing α) : α × Server :=
  let (p, memo) := s.analysis.getD
    (let p := Program.ofDocuments s.opened
    (p, Memo.fresh p))
  let (a, memo) := (question p).run memo
  (a, { s with analysis := some (p, memo) })

def usageAt (uri : Uri) (l : Location) : Option Usage × Server :=
  s.ask fun p => p.usageAround uri l

/-- All remarks by document; every open one has an entry. What was remarked when the documents were
read is taken in the order in which they come here. -/
def diagnosticsIn (order : List Document) : List (Uri × List Diagnostic) × Server :=
  let (found, s) := s.ask (Check.runAll Check.all)
  let ds := Diagnostic.sort (Diagnostic.cap s.max (order.flatMap (·.remarks) ++ found))
  (s.documents.map fun uri => (uri, ds.filter (·.uri == uri)), s)

def diagnostics : List (Uri × List Diagnostic) × Server := s.diagnosticsIn s.opened

end Server

end Parlance
