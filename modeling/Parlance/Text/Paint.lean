import Parlance.Text.Pieces
/-!
Text in colours. A style is a list of attribute numbers of a terminal.
-/
namespace Parlance

abbrev Style := List Nat

namespace Style

def bold : Style := [1]
def red : Style := [31]
def green : Style := [32]
def yellow : Style := [33]
def cyan : Style := [36]
def grey : Style := [90]
def boldRed : Style := [31, 1]
def boldYellow : Style := [33, 1]
def boldBlue : Style := [34, 1]
def boldCyan : Style := [36, 1]

def alarm : Style := [1, 37, 41]

def off (number : Nat) : Nat := if number = 1 then 22 else 0

def code (numbers : List Nat) : String :=
  (Char.ofNat 27).toString ++ "[" ++ ";".intercalate (numbers.map toString) ++ "m"

def paint (style : Style) (wanted : Bool) (s : String) : String :=
  if wanted then code style ++ s ++ code (style.map off) else s

end Style

end Parlance
