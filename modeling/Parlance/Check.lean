import Parlance.Check.Names
import Parlance.Check.Numbers
import Parlance.Check.Types
/-!
The checks a program must pass, in the order they are made.
-/
namespace Parlance

structure Check where
  name : String
  run : Program → Typing (List Diagnostic)

namespace Check

def all : List Check :=
  [⟨"duplicate-declaration", fun p => return duplicates p⟩,
    ⟨"undefined-reference", fun p => undefined p .value .undefinedReference⟩,
    ⟨"undefined-type-reference", fun p => undefined p .type .undefinedType⟩,
    ⟨"undefined-behaviour", undefinedBehaviours⟩,
    ⟨"invalid-import", fun p => return imports p⟩,
    ⟨"valid-inherit", inherits⟩,
    ⟨"type-assignment", assignments⟩,
    ⟨"type-parameter-variance", variance⟩,
    ⟨"out-of-bounds-number", bounds⟩,
    ⟨"imprecise-float-literal", precision⟩,
    ⟨"private-methods", privateAccess⟩,
    ⟨"variable-initialization", fun p => return initializers p⟩,
    ⟨"wrong-number-of-type-arguments", fun p => return typeArgumentCounts p⟩]

def ofName? (name : String) : Option Check := all.find? (·.name == name)

def runAll (checks : List Check) (p : Program) : Typing (List Diagnostic) := do
  return (← checks.mapM (·.run p)).flatten

end Check

end Parlance
