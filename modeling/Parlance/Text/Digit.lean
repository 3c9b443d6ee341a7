import Parlance.Text.Ranges
/-!
Decimal digits (general category Nd) and white space.
-/
namespace Parlance.Text

def digitRanges : Ranges := .ofText
  ["30-9 627-9 87-9 c7-9 19d-9 77-9 77-9 77-9 77-9 77-9 77-9 77-9 77-9 77-9 61-9 77-9 47-9 117-9",
   "47-9 747-9 27-9 12d-9 81-9 a7-9 7-9 b7-9 57-9 87-9 7-9 89c7-9 2a7-9 27-9 c7-9 17-9 57-9 197-9",
   "5317-9 587-9 887-9 32d-9 81-9 3d-9 91-9 117-9 157-9 77-9 177-9 67-9 67-9 1a7-9 67-9 2f7-9 f7-9",
   "47-9 1a7-9 4b07-9 57-9 87-9 6c75-31 941-9 1a7-9 1f7-9 457-9 1297-9"]

def blankRanges : Ranges :=
  [(0x9, 0xd), (0x20, 0x20), (0x85, 0x85), (0xa0, 0xa0), (0x1680, 0x1680), (0x2000, 0x200a),
   (0x2028, 0x2029), (0x202f, 0x202f), (0x205f, 0x205f), (0x3000, 0x3000)]

def isDigit (c : Char) : Bool :=
  if c.toNat < 0x80 then c.isDigit else digitRanges.contains c

def isBlank (c : Char) : Bool := blankRanges.contains c

def fields (s : String) : List String :=
  ((s.toList.foldr step [[]]).filter (!·.isEmpty)).map String.ofList
where
  step (c : Char) (acc : List (List Char)) : List (List Char) :=
    if isBlank c then [] :: acc
    else match acc with
      | [] => [[c]]
      | w :: ws => (c :: w) :: ws

def trim (s : String) : String :=
  String.ofList (((s.toList.dropWhile isBlank).reverse.dropWhile isBlank).reverse)

def fold (c : Char) : Char :=
  if c.toNat = 0x17f then 's' else if c.toNat = 0x212a then 'k' else c.toLower

def isWord (word s : String) : Bool := s.toList.map fold == word.toList

end Parlance.Text
