import Parlance.Machine
/-!
Classes for all kinds of values the machine makes itself, each with the native methods, for code that
brings no library of its own.
-/
namespace Parlance.Machine

def preludeSelectors : List (String × Native) := [("+", .plus), ("-", .minus), ("==", .equal)]

def preludeId : UInt64 := 0x100

def preludeMethod (selector : String) (n : Native) : List Instruction :=
  [.beginMethod (Selector.hash (Bytes.ofString selector)) (Bytes.ofString ("Number#" ++ selector)),
    .callNative n, .return_ 0, .endMethod]

def preludeClass (id : UInt64) (m : Mark) : List Instruction :=
  .declareClass id (Bytes.ofString m.name) ::
    (preludeSelectors.map fun (s, _) =>
      Instruction.inheritMethod preludeId id (Selector.hash (Bytes.ofString s))) ++ [.markClass m id]

def prelude : List Instruction :=
  .declareClass preludeId (Bytes.ofString "Number") ::
    (preludeSelectors.flatMap fun (s, n) => preludeMethod s n) ++
    (Mark.all.mapIdx fun i m => preludeClass (preludeId + 1 + i.toUInt64) m).flatten

end Parlance.Machine
