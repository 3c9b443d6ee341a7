import Parlance.Path.Glob
/-!
Patterns and names as rows of segments: a pattern accepts what its segments can be laid over.
-/
open List

namespace Parlance.Glob

/-- The segments of a pattern lie over those of a name. One that is `**` and has another behind it lies over
any number of segments, each other one over a single segment that it matches. -/
inductive Covers : List String → List String → Prop where
  | last {p n} (h : matchesSegment p n) : Covers [p] [n]
  | one {p q n ps ns} (hp : p ≠ "**") (h : matchesSegment p n) (hs : Covers (q :: ps) ns) :
    Covers (p :: q :: ps) (n :: ns)
  | any {q ps ns} (passed : List String) (hs : Covers (q :: ps) ns) : Covers ("**" :: q :: ps) (passed ++ ns)

variable {p q n : String} {ps ns : List String}

theorem not_covers_nil : ¬ Covers ps [] := by
  intro h
  generalize hname : ([] : List String) = name at h
  induction h with
  | last | one => cases hname
  | any passed _ ih => exact ih (append_eq_nil_iff.mp hname.symm).2.symm

theorem covers_any_iff : Covers ("**" :: q :: ps) (n :: ns) ↔
    Covers (q :: ps) (n :: ns) ∨ Covers ("**" :: q :: ps) ns := by
  constructor
  · intro h
    generalize hname : n :: ns = name at h
    cases h with
    | one hp => exact absurd rfl hp
    | any passed hs =>
      cases passed with
      | nil => exact .inl hs
      | cons m passed =>
        cases hname
        exact .inr (.any passed hs)
  · rintro (h | h)
    · exact .any [] h
    · generalize hpattern : "**" :: q :: ps = pattern at h
      cases h with
      | last => cases hpattern
      | one hp =>
        cases hpattern
        exact absurd rfl hp
      | any passed hs =>
        cases hpattern
        exact .any (n :: passed) hs

theorem covers_last_iff : Covers [p] (n :: ns) ↔ matchesSegment p n ∧ ns = [] := by
  constructor
  · rintro ⟨⟩
    exact ⟨‹_›, rfl⟩
  · rintro ⟨h, rfl⟩
    exact .last h

theorem covers_one_iff (hp : p ≠ "**") :
    Covers (p :: q :: ps) (n :: ns) ↔ matchesSegment p n ∧ Covers (q :: ps) ns := by
  constructor
  · intro h
    generalize hname : n :: ns = name at h
    cases h with
    | one _ h hs =>
      cases hname
      exact ⟨h, hs⟩
    | any => exact absurd rfl hp
  · rintro ⟨h, hs⟩
    exact .one hp h hs

def segments (s : List Char) : List String := (pieces '/' s).map String.ofList

theorem segments_eq {s before : List Char} {rest : Option (List Char)} (h : cutAt '/' s = (before, rest)) :
    segments s = .ofList before :: (rest.map segments).getD [] := by
  rw [segments, pieces_eq_cutAt, h]
  cases rest <;> rfl

theorem exists_segments (s : List Char) : ∃ q qs, segments s = q :: qs := ⟨_, _, segments_eq rfl⟩

theorem covers_iff_of_cutAt {pattern name p n : List Char} {ps ns : Option (List Char)}
    (hpattern : ∀ rest, pattern = '*' :: '*' :: '/' :: rest → False) (hp : cutAt '/' pattern = (p, ps))
    (hn : cutAt '/' name = (n, ns)) : Covers (segments pattern) (segments name) ↔
      matchesSegment (.ofList p) (.ofList n) ∧ (ps = none ∧ ns = none ∨
        ∃ ps' ∈ ps, ∃ ns' ∈ ns, Covers (segments ps') (segments ns')) := by
  rw [segments_eq hp, segments_eq hn]
  cases ps with
  | none =>
    rw [Option.map_none, Option.getD_none, covers_last_iff]
    cases ns with
    | none => simp
    | some ns =>
      obtain ⟨q, qs, hqs⟩ := exists_segments ns
      simp [hqs]
  | some ps =>
    have hne : String.ofList p ≠ "**" := fun he => by
      refine hpattern ps ?_
      rw [eq_of_cutAt hp, String.ofList_injective (he.trans (by rfl : _ = String.ofList ['*', '*']))]
      rfl
    obtain ⟨q, qs, hqs⟩ := exists_segments ps
    rw [Option.map_some, Option.getD_some, hqs, covers_one_iff hne]
    cases ns with
    | none => simp [not_covers_nil]
    | some ns => simp [hqs]

theorem acceptsChars_iff (pattern name : List Char) :
    acceptsChars pattern name ↔ Covers (segments pattern) (segments name) := by
  fun_induction acceptsChars pattern name with
  | case1 name rest ihrest ih =>
    have hstars : segments ('*' :: '*' :: '/' :: rest) = "**" :: segments rest := segments_eq rfl
    obtain ⟨q, qs, hqs⟩ := exists_segments rest
    rw [hstars, hqs] at ih
    rw [hqs] at ihrest
    rw [hstars, hqs, Bool.or_eq_true, ihrest]
    cases hcut : cutAt '/' name with
    | mk n ns =>
      rw [segments_eq hcut, covers_any_iff]
      cases ns with
      | none => simp [not_covers_nil]
      | some tail => simp [ih n tail hcut]
  | case2 name pattern hpattern p n hp hn => simp [covers_iff_of_cutAt hpattern hp hn]
  | case3 name pattern hpattern p ps n ns hp hn ih => simp [covers_iff_of_cutAt hpattern hp hn, ih]
  | case4 name pattern hpattern hnone hsome =>
    cases hp : cutAt '/' pattern with
    | mk p ps =>
      cases hn : cutAt '/' name with
      | mk n ns =>
        rw [covers_iff_of_cutAt hpattern hp hn]
        cases ps <;> cases ns <;> simp_all

/-- A pattern accepts a name if and only if its segments lie over those of the name. -/
theorem accepts_iff_covers (pattern name : String) :
    accepts pattern name = true ↔ Covers (Text.splitOn '/' pattern) (Text.splitOn '/' name) :=
  acceptsChars_iff pattern.toList name.toList

end Parlance.Glob
