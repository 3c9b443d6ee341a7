/-!
Sequences cut at a separator, and the pieces put together again.
-/
namespace Parlance

def pieces {α : Type} [DecidableEq α] (sep : α) : List α → List (List α)
  | [] => [[]]
  | a :: as =>
    if a = sep then [] :: pieces sep as
    else match pieces sep as with
      | [] => [[a]]
      | piece :: rest => (a :: piece) :: rest

def cutAt {α : Type} [DecidableEq α] (sep : α) : List α → List α × Option (List α)
  | [] => ([], none)
  | a :: as =>
    if a = sep then ([], some as)
    else let (before, after) := cutAt sep as; (a :: before, after)

theorem cutAt_of_notMem {α : Type} [DecidableEq α] {sep : α} {s : List α} (h : sep ∉ s) : cutAt sep s = (s, none) := by
  induction s with
  | nil => rfl
  | cons a as ih =>
    obtain ⟨ha, has⟩ := List.ne_and_not_mem_of_not_mem_cons h
    rw [cutAt, if_neg (Ne.symm ha), ih has]

theorem cutAt_append {α : Type} [DecidableEq α] {sep : α} {s : List α} (h : sep ∉ s) (t : List α) :
    cutAt sep (s ++ sep :: t) = (s, some t) := by
  induction s with
  | nil => simp [cutAt]
  | cons a as ih =>
    obtain ⟨ha, has⟩ := List.ne_and_not_mem_of_not_mem_cons h
    rw [List.cons_append, cutAt, if_neg (Ne.symm ha), ih has]

theorem eq_of_cutAt {α : Type} [DecidableEq α] {sep : α} {s before after : List α}
    (h : cutAt sep s = (before, some after)) : s = before ++ sep :: after := by
  induction s generalizing before with
  | nil => cases h
  | cons a as ih =>
    rw [cutAt] at h
    split at h
    · rename_i ha
      cases h
      rw [ha, List.nil_append]
    · cases hcut : cutAt sep as with
      | mk b o =>
        rw [hcut] at h
        cases h
        rw [ih hcut, List.cons_append]

theorem pieces_eq_cutAt {α : Type} [DecidableEq α] (sep : α) (s : List α) :
    pieces sep s = (cutAt sep s).1 :: ((cutAt sep s).2.map (pieces sep)).getD [] := by
  induction s with
  | nil => rfl
  | cons a as ih =>
    rw [pieces, cutAt]
    split
    · rfl
    · rw [ih]

theorem pieces_ne_nil {α : Type} [DecidableEq α] (sep : α) (s : List α) : pieces sep s ≠ [] := by
  rw [pieces_eq_cutAt]
  exact List.cons_ne_nil _ _

theorem pieces_append {α : Type} [DecidableEq α] {sep : α} {s : List α} (h : sep ∉ s) (t : List α) :
    pieces sep (s ++ sep :: t) = s :: pieces sep t := by
  induction s with
  | nil => simp [pieces]
  | cons a as ih =>
    obtain ⟨ha, has⟩ := List.ne_and_not_mem_of_not_mem_cons h
    rw [List.cons_append, pieces, if_neg (Ne.symm ha), ih has]

namespace Text

def splitOn (sep : Char) (s : String) : List String := (pieces sep s.toList).map String.ofList

def join (sep : String) (parts : List String) : String := sep.intercalate parts

def dropPrefix? (head s : String) : Option String :=
  if head.toList.isPrefixOf s.toList then some (String.ofList (s.toList.drop head.length)) else none

def startsWith (s head : String) : Bool := head.toList.isPrefixOf s.toList

def endsWith (s tail : String) : Bool := tail.toList.isSuffixOf s.toList

def dropSuffix (s tail : String) : String :=
  if endsWith s tail then String.ofList (s.toList.take (s.length - tail.length)) else s

def copies (c : Char) (n : Nat) : String := String.ofList (List.replicate n c)

def padRight (s : String) (width : Nat) : String := s ++ copies ' ' (width - s.length)

def padLeft (s : String) (width : Nat) : String := copies ' ' (width - s.length) ++ s

def counted (n : Nat) (word : String) : String :=
  if n = 1 then "1 " ++ word else toString n ++ " " ++ word ++ "s"

end Text

end Parlance
