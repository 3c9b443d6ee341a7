import Parlance.Instruction
/-!
Code that differs only in the numbers of its classes, variables and globals has one canonical form: numbers
count from 1 in the order they are first met.
-/
namespace Parlance.Instruction

/-- The bit that tells class objects from classes, which share a number otherwise. -/
def objectBit : UInt64 := 0x8000000000000000

def renumber (id : UInt64) : StateM (List UInt64) UInt64 := do
  let bare := id &&& 0x7fffffffffffffff
  if bare == 0 then return id
  if !(← get).contains bare then modify (· ++ [bare])
  return ((← get).idxOf bare + 1).toUInt64 ||| (id &&& objectBit)

mutual

def renumbered : Instruction → StateM (List UInt64) Instruction
  | declareClass id n => return declareClass (← renumber id) n
  | declareVariable id n => return declareVariable (← renumber id) n
  | inheritMethod a b h => return inheritMethod (← renumber a) (← renumber b) h
  | loadObject id => return loadObject (← renumber id)
  | storeGlobal id => return storeGlobal (← renumber id)
  | loadGlobal id => return loadGlobal (← renumber id)
  | markClass m id => return markClass m (← renumber id)
  | loadLazy n body => return loadLazy n (← renumberedAll body)
  | i => return i

def renumberedAll : List Instruction → StateM (List UInt64) (List Instruction)
  | [] => return []
  | i :: is => return (← renumbered i) :: (← renumberedAll is)

end

def canonical (is : List Instruction) : List Instruction := ((renumberedAll is).run []).1

end Parlance.Instruction
