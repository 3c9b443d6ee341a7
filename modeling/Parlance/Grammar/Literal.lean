import Parlance.Grammar.State
/-!
The values of literals.
-/
namespace Parlance

namespace Literal

def backslash : UInt8 := 92

def codePoint? (s : Bytes) : Option (Char × Bytes) :=
  match s with
  | 123 :: rest =>
    match cutAt 125 rest with
    | (digits, some after) =>
      if digits.isEmpty then none else do
      let n ← digits.foldlM (fun n b => (Hex.value? (Char.ofNat b.toNat)).map (n * 16 + ·)) 0
      if n.isValidChar then some (Char.ofNat n, after) else none
    | (_, none) => none
  | _ => none

/-- What an escaped byte and the text after it stand for, and the text after that. An escape that
means nothing special stands for the character itself. -/
def escape (e : UInt8) (rest : Bytes) : Char × Bytes :=
  if e = 110 then ('\n', rest)
  else if e = 116 then ('\t', rest)
  else if e = 114 then ('\r', rest)
  else if e = 48 then (Char.ofNat 0, rest)
  else if e = 117 then (codePoint? rest).getD ('u', rest)
  else let (c, n) := Utf8.decodeFrom e rest; (c, rest.drop n)

theorem length_cutAt {α : Type} [DecidableEq α] (sep : α) (s : List α) :
    ((cutAt sep s).2.getD []).length ≤ s.length := by
  fun_induction cutAt sep s with
  | case1 => simp
  | case2 => simp
  | case3 a as h before after hc ih => simp [hc] at ih ⊢; omega

theorem length_codePoint? {s rest : Bytes} {c : Char} (h : codePoint? s = some (c, rest)) :
    rest.length ≤ s.length := by
  unfold codePoint? at h
  split at h
  · rename_i r
    split at h
    · rename_i digits after hc
      have hl := length_cutAt (125 : UInt8) r
      rw [hc] at hl
      split at h
      · cases h
      · simp only [Option.bind_eq_bind, Option.bind_eq_some_iff, Option.getD_some] at h hl
        obtain ⟨n, _, h⟩ := h
        split at h
        · simp only [Option.some.injEq, Prod.mk.injEq] at h
          simp only [List.length_cons]
          rw [← h.2]
          omega
        · cases h
    · cases h
  · cases h

theorem length_escape (e : UInt8) (rest : Bytes) : (escape e rest).2.length ≤ rest.length := by
  unfold escape
  split; · simp
  split; · simp
  split; · simp
  split; · simp
  split
  · cases h : codePoint? rest with
    | none => simp
    | some p => exact length_codePoint? (c := p.1) (by rw [h]; rfl)
  · simp

def character (b : UInt8) (bs : Bytes) : Char × Bytes :=
  match b == backslash, bs with
  | true, e :: es => escape e es
  | _, _ => let (c, n) := Utf8.decodeFrom b bs; (c, bs.drop n)

theorem length_character (b : UInt8) (bs : Bytes) : (character b bs).2.length ≤ bs.length := by
  unfold character
  split
  · rename_i e es _
    have hl := length_escape e es
    simp only [List.length_cons]
    omega
  · simp

/-- The text up to the closing quote, and whether that is there and ends the literal. -/
def unquoteBody (quote : UInt8) : Bytes → List Char × Bool
  | [] => ([], false)
  | b :: bs =>
    if b = quote then ([], bs.isEmpty)
    else
      let (cs, closed) := unquoteBody quote (character b bs).2
      ((character b bs).1 :: cs, closed)
termination_by s => s.length
decreasing_by
  have hl := length_character b bs
  simp only [List.length_cons]
  omega

def unquote (quote : UInt8) (text : Bytes) : List Char × Bool :=
  match text with
  | b :: bs => if b = quote then unquoteBody quote bs else ([], false)
  | [] => ([], false)

end Literal

namespace Grammar

def number (word : Token) (digits : Bytes) (negative : Bool) : Reader Shape := do
  let n ← match Numeral.parse digits with
    | .ok n => pure (some n)
    | .error e => remark word.span (.number e); pure none
  if word.kind == .float then
    let value := (n.map Numeral.toRat).getD 0
    return .float word (if negative then -value else value)
  let value := (n.map Numeral.toInt).getD 0
  return .integer word (if negative then -value else value)

def literalShape (word : Token) : Reader Shape := do
  match word.kind with
  | .string =>
    let (cs, closed) := Literal.unquote Byte.quote word.text
    if !closed then remark word.span .openString
    return .string word ((← get).normal (String.ofList cs))
  | .character =>
    let (cs, closed) := Literal.unquote Byte.apostrophe word.text
    if !closed then remark word.span .openCharacter
    let value := ((← get).normal (String.ofList cs)).toList
    if closed && value.length != 1 then remark word.span .notOneCharacter
    return .character word ((value.head?.map Char.toNat).getD 0)
  | .symbolLiteral => return .symbolLiteral word (Utf8.toString (word.text.drop 1))
  | _ => number word word.text false

def literal (up : Nat) : Reader Twig := do
  let b ← openNode up
  let word ← advance
  let shape ← literalShape word
  close b shape []

def minusText : Bytes := Bytes.ofString "-"

/-- A minus right before a number belongs to it. -/
def isAtNegative : Reader Bool := do
  let minus ← peek
  let next ← ahead 1
  return minus.kind == .operator && minus.text == minusText &&
    (next.kind == .integer || next.kind == .float) &&
    next.span.start.offset == minus.span.stop.offset

def negativeNumber (up : Nat) : Reader Twig := do
  let b ← openNode up
  let minus ← advance
  let digits ← advance
  let word : Token :=
    ⟨digits.kind, minus.text ++ digits.text, ⟨minus.span.uri, minus.span.start, digits.span.stop⟩⟩
  let shape ← number word digits.text true
  close b shape []

end Grammar

end Parlance
