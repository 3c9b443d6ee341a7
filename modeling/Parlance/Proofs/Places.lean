import Parlance.Proofs.Boundaries
/-!
A place between two characters is found again from its line and character. Between the two units of a
surrogate pair there is no place.
-/
open List

namespace Parlance

namespace Utf8

variable {s : Bytes} {k j : Nat}

/-- For each UTF-16 unit of a text, whether it is the second of a surrogate pair. -/
def seconds (s : Bytes) : List Bool := (chars s).flatMap fun c => false :: replicate (units16 c - 1) true

theorem runes_cons (b : UInt8) (bs : Bytes) :
    runes (b :: bs) = ((decodeFrom b bs).1, (decodeFrom b bs).2 + 1) :: runes (bs.drop (decodeFrom b bs).2) := by
  rw [runes, runes_go_cons, runes_go_drop]

theorem seconds_cons (b : UInt8) (bs : Bytes) : seconds (b :: bs) =
    false :: replicate (units16 (decodeFrom b bs).1 - 1) true ++ seconds (bs.drop (decodeFrom b bs).2) := by
  rw [seconds, chars, runes_cons]
  rfl

theorem seconds_take_cons (b : UInt8) (bs : Bytes) (k : Nat) : seconds ((b :: bs).take ((decodeFrom b bs).2 + 1 + k)) =
    false :: replicate (units16 (decodeFrom b bs).1 - 1) true ++ seconds ((bs.drop (decodeFrom b bs).2).take k) := by
  simp_all [Nat.add_right_comm, seconds_cons, decodeFrom_take, drop_take]

theorem units16_cases (c : Char) : units16 c = 1 ∨ units16 c = 2 := by
  unfold units16
  split <;> simp

end Utf8

namespace Source

open Utf8

variable {s : Bytes} {j k : Nat}

theorem bytesBefore_mono (h : j ≤ k) (rs : List (Char × Nat)) : bytesBefore j rs ≤ bytesBefore k rs := by
  induction rs generalizing j k with
  | nil => simp [bytesBefore]
  | cons r rs ih =>
    cases j with
    | zero => simp [bytesBefore]
    | succ j =>
      obtain ⟨k, rfl⟩ := Nat.exists_eq_add_of_le' (Nat.le_trans (Nat.le_add_left 1 j) h)
      rw [bytesBefore, bytesBefore]
      exact Nat.add_le_add_left (ih (Nat.sub_le_sub_right h _)) _

theorem bytesBefore_zero (rs : List (Char × Nat)) : bytesBefore 0 rs = 0 := by
  cases rs <;> rfl

theorem bytesBefore_boundary (h : Boundary s k) : bytesBefore (seconds (s.take k)).length (runes s) = k := by
  induction h with
  | start s => rw [take_zero]; exact bytesBefore_zero _
  | @next b bs k _ ih =>
    have hunits := units16_cases (decodeFrom b bs).1
    rw [seconds_take_cons, runes_cons]
    simp only [cons_append, length_cons, length_append, length_replicate, bytesBefore]
    grind

/-- Between two units that are not halves of one pair lies a place between characters. -/
theorem boundary_bytesBefore {s : Bytes} {j : Nat} (hj : j ≤ (seconds s).length)
    (hfirst : (seconds s)[j]? ≠ some true) :
    Boundary s (bytesBefore j (runes s)) ∧ (seconds (s.take (bytesBefore j (runes s)))).length = j := by
  match s, j with
  | s, 0 =>
    rw [bytesBefore_zero]
    exact ⟨.start s, rfl⟩
  | [], _ + 1 => cases hj
  | b :: bs, j + 1 =>
    have hunits := units16_cases (decodeFrom b bs).1
    rw [seconds_cons] at hj hfirst
    have hle : units16 (decodeFrom b bs).1 ≤ j + 1 := by
      rcases hunits with hone | htwo
      · omega
      · grind
    obtain ⟨i, hi⟩ := Nat.exists_eq_add_of_le hle
    obtain ⟨hboundary, hlen⟩ : Boundary (bs.drop (decodeFrom b bs).2)
      (bytesBefore i (runes (bs.drop (decodeFrom b bs).2))) ∧ _ :=
      boundary_bytesBefore (by simp at hj; omega) (by
        rw [hi, getElem?_append_right (by simp; omega)] at hfirst
        simpa [show units16 (decodeFrom b bs).1 + i - (units16 (decodeFrom b bs).1 - 1 + 1) = i by omega] using hfirst)
    rw [runes_cons, bytesBefore, hi, Nat.add_sub_cancel_left, seconds_take_cons]
    refine ⟨.next hboundary, ?_⟩
    simp [hlen]
    omega
termination_by s.length

end Source

/-! ### Lines -/

section

variable {α : Type} [DecidableEq α] {sep : α}

theorem length_pieces (s : List α) : (pieces sep s).length = s.count sep + 1 := by
  induction s with
  | nil => rfl
  | cons a as ih =>
    rw [pieces, count_cons]
    split <;> grind

theorem split_pieces {s l : List α} {ls more : List (List α)} (h : pieces sep s = ls ++ l :: more) :
    sep ∉ l ∧ (∀ k ∈ ls, sep ∉ k) ∧ ls.flatMap (· ++ [sep]) ++ l <+: s := by
  induction s generalizing ls l with
  | nil =>
    obtain ⟨rfl, hcons⟩ | ⟨_, _, hcons⟩ := cons_eq_append_iff.mp h
    · cases hcons
      simp
    · simp at hcons
  | cons a as ih =>
    rw [pieces] at h
    split at h
    · rename_i ha
      subst ha
      obtain ⟨rfl, hcons⟩ | ⟨ls, rfl, hcons⟩ := cons_eq_append_iff.mp h
      · cases hcons
        simp
      · simpa using ih hcons
    · rename_i ha
      cases hp : pieces sep as with
      | nil => exact absurd hp (pieces_ne_nil sep as)
      | cons p ps =>
        rw [hp] at h
        obtain ⟨rfl, hcons⟩ | ⟨ls, rfl, hcons⟩ := cons_eq_append_iff.mp h
        · cases hcons
          simpa [Ne.symm ha] using ih (show _ = [] ++ p :: more from hp)
        · simpa [Ne.symm ha] using ih (show _ = (p :: ls) ++ l :: more by rw [hp, hcons]; rfl)

end

namespace Location

open Utf8 Source

theorem boundary_newline {l : Bytes} (h : newline ∉ l) (s : Bytes) : Boundary (l ++ newline :: s) l.length := by
  have hlen : Scan.leadingBytes (· != newline) (l ++ newline :: s) = l.length := by
    induction l with
    | nil => rfl
    | cons b l ih => grind [Scan.leadingBytes]
  exact hlen ▸ Scan.boundary_comment _

theorem advance_line {s : Bytes} (h : newline ∉ s) (l : Location) :
    l.advance s = ⟨l.offset + s.length, l.line, l.character + (seconds s).length⟩ := by
  have hfold (rs : List (Char × Nat)) (hrs : ∀ r ∈ rs, r.1 ≠ '\n') (l : Location) :
      (rs.foldl (fun l r => l.step r.1 r.2) l).line = l.line ∧
      (rs.foldl (fun l r => l.step r.1 r.2) l).character = l.character +
        ((rs.map (·.1)).flatMap fun c => false :: replicate (units16 c - 1) true).length := by
    induction rs generalizing l with
    | nil => simp
    | cons r rs ih =>
      obtain ⟨c, n⟩ := r
      obtain ⟨hc, hrs⟩ := forall_mem_cons.mp hrs
      have hunits := units16_cases c
      have hstep : l.step c n = ⟨l.offset + n, l.line, l.character + units16 c⟩ := if_neg hc
      grind
  have hs : ∀ r ∈ runes s, r.1 ≠ '\n' := by
    intro r hr hn
    obtain ⟨b, hb, hbn⟩ := mem_of_mem_chars (mem_map_of_mem hr) (by rw [hn]; decide) (by rw [hn]; decide)
    rw [hn] at hbn
    obtain rfl : b = newline := UInt8.toNat_inj.mp hbn
    exact h hb
  have hline : (l.advance s).line = l.line := (hfold _ hs l).1
  calc l.advance s = ⟨(l.advance s).offset, (l.advance s).line, (l.advance s).character⟩ := rfl
    _ = _ := by rw [offset_advance, hline]; exact congrArg _ (hfold _ hs l).2

theorem advance_lines {ls : List Bytes} (h : ∀ l ∈ ls, newline ∉ l) (offset : Int) (line : Nat) (s : Bytes) :
    advance ⟨offset, line, 1⟩ (ls.flatMap (· ++ [newline]) ++ s) =
      advance ⟨offset + (ls.flatMap (· ++ [newline])).length, line + ls.length, 1⟩ s := by
  induction ls generalizing offset line with
  | nil => simp
  | cons l ls ih =>
    obtain ⟨hl, hls⟩ := forall_mem_cons.mp h
    generalize htext : ls.flatMap (· ++ [newline]) ++ s = text at ih
    have hruns := (boundary_newline hl text).runes_eq
    rw [take_left, drop_left] at hruns
    have hnewline (l : Location) : l.advance (newline :: text) = advance ⟨l.offset + 1, l.line + 1, 1⟩ text := by
      rw [advance, runes_cons, foldl_cons]
      rfl
    rw [flatMap_cons, append_assoc, append_assoc, htext, singleton_append, advance_append hruns, advance_line hl,
      hnewline, ih hls]
    simp [Int.add_assoc, Nat.add_assoc, Int.add_comm 1, Nat.add_comm 1]

end Location

namespace Source

open Utf8

variable {s : Source} {n k : Nat}

theorem drop_lines (h : n < s.lineCount) : s.lines.drop n = s.line (n + 1) :: s.lines.drop (n + 1) := by
  have hlt : n < s.lines.length := by rwa [lines, length_pieces]
  rw [drop_eq_getElem_cons hlt]
  simp [line, hlt]

theorem split_lines (h : n < s.lineCount) : newline ∉ s.line (n + 1) ∧ (∀ l ∈ s.lines.take n, newline ∉ l) ∧
    (s.lines.take n).flatMap (· ++ [newline]) ++ s.line (n + 1) <+: s.code :=
  split_pieces (by rw [← drop_lines h, take_append_drop]; rfl)

theorem lineStart_eq (h : n < s.lineCount) : s.lineStart (n + 1) =
    ((s.lines.take n).flatMap (· ++ [newline])).length := by
  have hfold (ls : List Bytes) (a : Nat) : ls.foldl (· + ·.length + 1) a =
    a + (ls.flatMap (· ++ [newline])).length := by
    induction ls generalizing a with
    | nil => rfl
    | cons l ls ih =>
      rw [foldl_cons, ih, flatMap_cons]
      simp
      omega
  have hle := (split_lines h).2.2.length_le
  rw [length_append] at hle
  rw [lineStart, hfold, Nat.add_sub_cancel, Nat.zero_add]
  exact Nat.min_eq_right (Nat.le_trans (Nat.le_add_right _ _) hle)

theorem lineStart_lt {m : Nat} (h : n < m) (hm : m < s.lineCount) :
    s.lineStart (n + 1) + (s.line (n + 1)).length < s.lineStart (m + 1) := by
  obtain ⟨d, rfl⟩ := Nat.exists_eq_add_of_lt h
  rw [lineStart_eq (Nat.lt_trans h hm), lineStart_eq hm, Nat.add_assoc, take_add, drop_lines (Nat.lt_trans h hm)]
  simp

theorem locationAt_line (h : n < s.lineCount) (hk : k ≤ (s.line (n + 1)).length) :
    s.locationAt (s.lineStart (n + 1) + k) =
      ⟨s.lineStart (n + 1) + k, n + 1, 1 + (seconds ((s.line (n + 1)).take k)).length⟩ := by
  obtain ⟨hl, hls, rest, hcode⟩ := split_lines h
  rw [locationAt, lineStart_eq h, ← hcode, append_assoc, take_length_add_append, take_append_of_le_length hk,
    Location.origin, Location.advance_lines hls, Location.advance_line fun hn => hl (mem_of_mem_take hn)]
  have hlen : (s.lines.take n).length = n := by
    have : n < s.lines.length := by rwa [lines, length_pieces]
    exact length_take_of_le (Nat.le_of_lt this)
  grind

/-- The places of a source between two characters of a line. -/
def Between (s : Source) (offset : Nat) : Prop :=
  ∃ n k, n < s.lineCount ∧ Boundary (s.line (n + 1)) k ∧ offset = s.lineStart (n + 1) + k

theorem offsetAt_line (h : n < s.lineCount) (character : Nat) :
    s.offsetAt (n + 1) character = s.lineStart (n + 1) + bytesBefore (character - 1) (runes (s.line (n + 1))) := by
  grind [offsetAt]

theorem places_found (s : Source) :
    (∀ o, s.Between o → ∃ c : Nat, (s.locationAt o).character = c ∧ s.offsetAt (s.locationAt o).line c = o) ∧
    (∀ o o', s.Between o → s.Between o' → o < o' → (s.locationAt o).line < (s.locationAt o').line ∨
      (s.locationAt o).line = (s.locationAt o').line ∧ (s.locationAt o).character < (s.locationAt o').character) ∧
    ∀ line c : Nat, 1 ≤ line → line ≤ s.lineCount → 1 ≤ c → c ≤ (seconds (s.line line)).length + 1 →
      (seconds (s.line line))[c - 1]? ≠ some true →
        s.Between (s.offsetAt line c) ∧
        (s.locationAt (s.offsetAt line c)).line = line ∧ (s.locationAt (s.offsetAt line c)).character = c := by
  refine ⟨?_, ?_, ?_⟩
  · rintro _ ⟨n, k, hn, hk, rfl⟩
    rw [locationAt_line hn hk.le_length]
    refine ⟨1 + (seconds ((s.line (n + 1)).take k)).length, by simp, ?_⟩
    rw [offsetAt_line hn, Nat.add_sub_cancel_left, bytesBefore_boundary hk]
  · rintro _ _ ⟨n, k, hn, hk, rfl⟩ ⟨m, l, hm, hl, rfl⟩ hlt
    rw [locationAt_line hn hk.le_length, locationAt_line hm hl.le_length]
    have hkn := hk.le_length
    have hlm := hl.le_length
    obtain hnm | rfl | hmn := Nat.lt_trichotomy n m
    · exact .inl (Nat.succ_lt_succ hnm)
    · refine .inr ⟨rfl, ?_⟩
      by_contra hge
      have := bytesBefore_mono (show (seconds ((s.line (n + 1)).take l)).length ≤
        (seconds ((s.line (n + 1)).take k)).length by
        simp only at hge; omega) (runes (s.line (n + 1)))
      rw [bytesBefore_boundary hk, bytesBefore_boundary hl] at this
      omega
    · have := lineStart_lt hmn hn
      omega
  · intro line c hline hcount hc hle hfirst
    obtain ⟨n, rfl⟩ := Nat.exists_eq_add_of_le' hline
    obtain ⟨c, rfl⟩ := Nat.exists_eq_add_of_le' hc
    rw [offsetAt_line hcount, Nat.add_sub_cancel]
    obtain ⟨hboundary, hlen⟩ := boundary_bytesBefore (Nat.le_of_succ_le_succ hle) hfirst
    refine ⟨⟨n, _, hcount, hboundary, rfl⟩, ?_⟩
    rw [locationAt_line hcount hboundary.le_length, hlen]
    exact ⟨rfl, by simp [Int.add_comm]⟩

end Source

end Parlance
