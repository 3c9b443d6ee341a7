import Parlance.Instruction.Canonical
import Parlance.Machine.Prelude
import Parlance.Main
import Parlance.Progress.View
import Parlance.Proofs.Agreement
import Parlance.Proofs.AssemblyRoundTrip
import Parlance.Proofs.CallStacks
import Parlance.Proofs.Endings
import Parlance.Proofs.Expansions
import Parlance.Proofs.GlobSegments
import Parlance.Proofs.IntegerKinds
import Parlance.Proofs.KeptPrograms
import Parlance.Proofs.Leftovers
import Parlance.Proofs.Likeness
import Parlance.Proofs.Lineage
import Parlance.Proofs.LoneWords
import Parlance.Proofs.MissingParts
import Parlance.Proofs.Nesting
import Parlance.Proofs.NumberRanges
import Parlance.Proofs.Numerals
import Parlance.Proofs.Places
import Parlance.Proofs.QuotedWords
import Parlance.Proofs.Repairs
import Parlance.Proofs.SessionLines
import Parlance.Proofs.Substitutability
import Parlance.Proofs.TraceWindow
import Parlance.Proofs.WireReaders
import Parlance.Token.Check
import Parlance.Proofs.ClassTables
import Parlance.Proofs.Dispatch
