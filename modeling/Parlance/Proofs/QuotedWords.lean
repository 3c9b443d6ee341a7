import Parlance.Proofs.Boundaries
/-!
Quoted words are read in step with the scanner: each character of the value is a row of units that it took.
-/
open List

namespace Parlance

open Utf8

namespace Scan

variable {quote b : UInt8} {bs : Bytes} {m : Nat}

/-- How many bytes the scanner takes with the first one of a unit. -/
def unit (b : UInt8) : Bytes → Nat
  | [] => 0
  | e :: es => if b = Byte.backslash then (decodeFrom e es).2 + 1 else (decodeFrom b (e :: es)).2

/-- The units that the scanner takes up to the closing quote. -/
def units (quote : UInt8) : Bytes → List Bytes
  | [] => []
  | b :: bs => if b = quote then [] else (b :: bs.take (unit b bs)) :: units quote (bs.drop (unit b bs))
termination_by s => s.length
decreasing_by
  rw [length_drop, length_cons]
  omega

theorem unit_le (b : UInt8) (bs : Bytes) : unit b bs ≤ bs.length := by
  cases bs <;> grind [unit, length_decodeFrom]

theorem unit_take (h : unit b bs ≤ m) : unit b (bs.take m) = unit b bs := by
  cases bs <;> cases m <;> grind [unit, decodeFrom_take]

theorem quoted_go_skip (quote : UInt8) (skip : Nat) (escaped : Bool) (s : Bytes) (h : skip ≤ s.length) :
    quotedLength.go quote skip escaped s = skip + quotedLength.go quote 0 escaped (s.drop skip) := by
  induction s generalizing skip with
  | nil => grind
  | cons b bs ih => cases skip <;> grind [quotedLength.go]

theorem quotedLength_cons (quote b : UInt8) (bs : Bytes) : quotedLength quote (b :: bs) =
    if b = quote then 1 else unit b bs + 1 + quotedLength quote (bs.drop (unit b bs)) := by
  have hskip (e : UInt8) (es : Bytes) := quoted_go_skip quote (decodeFrom e es).2 false es (length_decodeFrom e es)
  cases bs <;> grind [quotedLength, quotedLength.go, unit]

/-- The scanner stops behind a quote that starts no unit, or else at the end. -/
theorem quotedLength_units (quote : UInt8) (s : Bytes) :
    (quotedLength quote s = s.length ∧ s = (units quote s).flatten) ∨
      ∃ more, s = (units quote s).flatten ++ quote :: more ∧
        quotedLength quote s = (units quote s).flatten.length + 1 := by
  fun_induction units quote s with
  | case1 => exact .inl ⟨rfl, rfl⟩
  | case2 bs => exact .inr ⟨bs, rfl, by rw [quotedLength_cons, if_pos rfl]; rfl⟩
  | case3 b bs hb ih =>
    have hle := unit_le b bs
    have hparts := take_append_drop (unit b bs) bs
    rw [quotedLength_cons, if_neg hb]
    rcases ih with ⟨hlen, hall⟩ | ⟨more, hall, hlen⟩
    · left
      grind
    · right
      exact ⟨more, by grind, by grind⟩

theorem units_take (quote : UInt8) (s : Bytes) : units quote (s.take (quotedLength quote s)) = units quote s := by
  fun_induction units quote s with
  | case1 => rw [take_nil, units]
  | case2 bs => rw [quotedLength_cons, if_pos rfl, take_succ_cons, units, if_pos rfl]
  | case3 b bs hb ih =>
    rw [quotedLength_cons, if_neg hb, Nat.add_right_comm, take_succ_cons, units, if_neg hb,
      unit_take (Nat.le_add_right _ _), take_take, Nat.min_eq_left (Nat.le_add_right _ _), drop_take,
      Nat.add_sub_cancel_left, ih]

theorem units_plain {ds : Bytes} (h : ∀ d ∈ ds, d < 0x80 ∧ d ≠ quote ∧ d ≠ Byte.backslash) (rest : Bytes) :
    units quote (ds ++ rest) = ds.map ([·]) ++ units quote rest := by
  induction ds with
  | nil => rfl
  | cons d ds ih =>
    obtain ⟨⟨hlt, hquote, hslash⟩, hds⟩ := forall_mem_cons.mp h
    have hunit : unit d (ds ++ rest) = 0 := by cases ds ++ rest <;> grind [unit, decodeFrom_of_lt]
    rw [cons_append, units, if_neg hquote, hunit, take_zero, drop_zero, ih hds, map_cons, cons_append]

/-- The bytes are a row of whole units, whatever follows them. -/
def IsRow (quote : UInt8) (s rest : Bytes) : Prop :=
  (units quote s).flatten = s ∧ units quote (s ++ rest) = units quote s ++ units quote rest

theorem isRow_unit (hb : b ≠ quote) (bs : Bytes) : IsRow quote (b :: bs.take (unit b bs)) (bs.drop (unit b bs)) := by
  have hone : units quote (b :: bs.take (unit b bs)) = [b :: bs.take (unit b bs)] := by
    grind [units, unit_take]
  rw [IsRow, hone, cons_append, take_append_drop, units, if_neg hb]
  simp

end Scan

namespace Literal

open Scan

variable {quote b : UInt8} {bs s rest : Bytes} {c : Char}

theorem cutAt_eq {digits : Bytes} (h : cutAt 125 s = (digits, some rest)) : s = digits ++ 125 :: rest := by
  fun_induction cutAt 125 s generalizing digits <;> grind

theorem hex_of_foldlM {digits : Bytes} {n v : Nat}
    (h : digits.foldlM (fun n b => (Hex.value? (Char.ofNat b.toNat)).map (n * 16 + ·)) n = some v) :
    ∀ d ∈ digits, (Hex.value? (Char.ofNat d.toNat)).isSome := by
  induction digits generalizing n with
  | nil => nofun
  | cons d ds ih =>
    obtain ⟨w, hw, hds⟩ := Option.bind_eq_some_iff.mp (foldlM_cons.symm.trans h)
    exact forall_mem_cons.mpr ⟨by simpa using Option.isSome_of_eq_some hw, ih hds⟩

theorem codePoint?_eq (h : codePoint? s = some (c, rest)) : ∃ digits : Bytes, s = 123 :: (digits ++ 125 :: rest) ∧
    ∀ d ∈ digits, (Hex.value? (Char.ofNat d.toNat)).isSome := by
  unfold codePoint? at h
  split at h
  · split at h
    · rename_i digits after hcut
      split at h
      · cases h
      · obtain ⟨v, hv, h⟩ := Option.bind_eq_some_iff.mp h
        split at h
        · cases h
          exact ⟨digits, by rw [cutAt_eq hcut], hex_of_foldlM hv⟩
        · cases h
    · cases h
  · cases h

theorem isPlain_hex {d : UInt8} (hq : quote = Byte.quote ∨ quote = Byte.apostrophe)
    (h : (Hex.value? (Char.ofNat d.toNat)).isSome ∨ d = 123 ∨ d = 125) : d < 0x80 ∧ d ≠ quote ∧ d ≠ Byte.backslash := by
  have hall : ∀ n < 256, (Hex.value? (Char.ofNat n)).isSome ∨ n = 123 ∨ n = 125 →
      n < 128 ∧ n ≠ 34 ∧ n ≠ 39 ∧ n ≠ 92 := by decide +kernel
  have hd := hall d.toNat d.toNat_lt (by simpa [← UInt8.toNat_inj] using h)
  rcases hq with rfl | rfl <;>
    simpa [UInt8.lt_iff_toNat_lt, ← UInt8.toNat_inj, Byte.quote, Byte.apostrophe, Byte.backslash] using by omega

/-- What is read as one character is a row of whole units. -/
theorem isRow_character (hq : quote = Byte.quote ∨ quote = Byte.apostrophe) (hb : b ≠ quote) (bs : Bytes) :
    ∃ tail, bs = tail ++ (character b bs).2 ∧ IsRow quote (b :: tail) (character b bs).2 := by
  have hone (h : (character b bs).2 = bs.drop (unit b bs)) :
      ∃ tail, bs = tail ++ (character b bs).2 ∧ IsRow quote (b :: tail) (character b bs).2 := by
    rw [h]
    exact ⟨_, (take_append_drop _ _).symm, isRow_unit hb bs⟩
  cases bs with
  | nil => exact hone (by grind [character])
  | cons e es =>
    by_cases hslash : b = backslash
    · subst hslash
      by_cases hpoint : e = 117 ∧ (codePoint? es).isSome
      · obtain ⟨rfl, hsome⟩ := hpoint
        obtain ⟨⟨c, rest⟩, hc⟩ := Option.isSome_iff_exists.mp hsome
        obtain ⟨digits, rfl, hdigits⟩ := codePoint?_eq hc
        have hrest : (character backslash (117 :: 123 :: (digits ++ 125 :: rest))).2 = rest := by
          simp [character, escape, hc]
        have hunits (more : Bytes) : units quote (backslash :: 117 :: (123 :: digits ++ [125] ++ more)) =
            [backslash, 117] :: ((123 :: digits ++ [125]).map ([·]) ++ units quote more) := by
          rw [← units_plain (fun d hd => isPlain_hex hq (by simp at hd; grind)), units, if_neg hb]
          rfl
        rw [hrest]
        refine ⟨117 :: (123 :: digits ++ [125]), by simp, ?_, ?_⟩
        · have hnil := hunits []
          rw [append_nil] at hnil
          rw [hnil]
          simp [units, ← flatMap_def, flatMap_singleton']
        · rw [cons_append, cons_append, hunits, ← append_nil (123 :: digits ++ [125]), hunits]
          simp [units]
      · refine hone ?_
        have hascii (h : e < 0x80) := decodeFrom_of_lt h es
        cases hc : codePoint? es <;> grind [character, escape, unit, Byte.backslash, backslash]
    · refine hone ?_
      grind [character, unit, Byte.backslash, backslash]

/-- The characters of a quoted text, each with the bytes that it is read from. -/
def parts (quote : UInt8) : Bytes → List (Char × Bytes)
  | [] => []
  | b :: bs =>
    if b = quote then []
    else ((character b bs).1, b :: bs.take (bs.length - (character b bs).2.length)) :: parts quote (character b bs).2
termination_by s => s.length
decreasing_by
  have hl := length_character b bs
  rw [length_cons]
  omega

/-- Reading gives the characters of the parts, which are made of the units that the scanner takes, and
finds the end where the units are followed by one quote and nothing else. -/
theorem unquoteBody_parts (hq : quote = Byte.quote ∨ quote = Byte.apostrophe) (s : Bytes) :
    (unquoteBody quote s).1 = (parts quote s).map (·.1) ∧
    ((unquoteBody quote s).2 ↔ s = (units quote s).flatten ++ [quote]) ∧
    ((parts quote s).map (·.2)).flatten = (units quote s).flatten ∧
    (parts quote s).flatMap (fun p => units quote p.2) = units quote s := by
  fun_induction parts quote s with
  | case1 => simp [unquoteBody, units]
  | case2 bs => simp [unquoteBody, units]
  | case3 b bs hb ih =>
    obtain ⟨hchars, hclosed, hbytes, hparts⟩ := ih
    obtain ⟨tail, hbs, hrow, hunits⟩ := isRow_character hq hb bs
    rw [unquoteBody, if_neg hb]
    generalize (character b bs).2 = rest, (character b bs).1 = c at *
    subst hbs
    rw [← cons_append, hunits, length_append, Nat.add_sub_cancel, take_left]
    simp [hchars, hclosed, hbytes, hrow, hparts]

end Literal

namespace Scan

variable {b : UInt8} {bs : Bytes} {k : Token.Kind} {n : Nat}

def isQuoted (k : Token.Kind) : Bool := k == .string || k == .character

theorem not_isQuoted_identifier (b : UInt8) (bs : Bytes) : isQuoted (identifier b bs).1 = false := by
  have hall : ∀ k ∈ Token.Kind.underscore :: .symbol :: keywordTexts.map (·.2), isQuoted k = false := by decide
  unfold identifier
  grind [identifierKind_mem, isQuoted]

theorem not_isQuoted_operator (b : UInt8) (bs : Bytes) : isQuoted (operator b bs).1 = false := by
  unfold operator
  split
  · rename_i k hk
    have hm := punctuation?_cases hk
    cases k <;> simp at hm <;> rfl
  · grind [isQuoted, operatorKind_cases]

theorem word_quoted (h : word b bs = (k, n)) (hk : isQuoted k) :
    b = (if k = .string then Byte.quote else Byte.apostrophe) ∧ n = quotedLength b bs := by
  have hidentifier := not_isQuoted_identifier b bs
  have hoperator := not_isQuoted_operator b bs
  have hnumber := number_kind b bs
  have hsymbol : isQuoted (symbolLiteral bs).1 = false := by cases bs <;> grind [symbolLiteral, isQuoted]
  unfold word at h
  repeat' split at h
  all_goals grind [isQuoted]

end Scan

/-- A quoted word is read as it was scanned. The reader gives one character for each of its parts, the parts are
what the scanner took between the quotes and each is made of whole units, so no quote behind a backslash ends the
reading. The reader finds the word closed exactly when the scanner stopped behind a closing quote; otherwise
the scanner came to the end of the source. -/
theorem Source.unquote_in_step {s : Source} {before after : List Token} {t : Token}
    (h : s.tokens = before ++ t :: after) (hk : Scan.isQuoted t.kind = true) :
    ∃ quote body, quote = (if t.kind = .string then Byte.quote else Byte.apostrophe) ∧ t.text = quote :: body ∧
      body.length = Scan.quotedLength quote (body ++ after.flatMap (·.text)) ∧
      (Literal.unquote quote t.text).1 = (Literal.parts quote body).map (·.1) ∧
      let units := Scan.units quote (body ++ after.flatMap (·.text))
      ((Literal.parts quote body).map (·.2)).flatten = units.flatten ∧
      (Literal.parts quote body).flatMap (fun p => Scan.units quote p.2) = units ∧
      if (Literal.unquote quote t.text).2 then body = units.flatten ++ [quote]
      else body = units.flatten ∧ after.flatMap (·.text) = [] := by
  have heof : t.kind ≠ .eof := fun he => by
    rw [he] at hk
    cases hk
  obtain ⟨b, bs, n, hword, htext, hafter⟩ := Token.scanned_of_place h heof
  obtain ⟨hquote, rfl⟩ := Scan.word_quoted hword hk
  have hq : b = Byte.quote ∨ b = Byte.apostrophe := by grind
  have hunquote : Literal.unquote b t.text = Literal.unquoteBody b (bs.take (Scan.quotedLength b bs)) := by
    rw [htext, Literal.unquote, if_pos rfl]
  obtain ⟨hchars, hclosed, hbytes, hparts⟩ := Literal.unquoteBody_parts hq (bs.take (Scan.quotedLength b bs))
  rw [Scan.units_take] at hclosed hbytes hparts
  refine ⟨b, bs.take (Scan.quotedLength b bs), hquote, htext, ?_⟩
  rw [hafter, take_append_drop, hunquote]
  have hscan := Scan.quotedLength_units b bs
  generalize Scan.units b bs = units at *
  obtain ⟨hlen, hall⟩ | ⟨more, hall, hlen⟩ := hscan
  · have htake : bs.take (Scan.quotedLength b bs) = bs := by rw [hlen, take_length]
    refine ⟨by rw [htake, hlen], hchars, hbytes, hparts, ?_⟩
    rw [if_neg]
    · exact ⟨htake.trans hall, by rw [hlen, drop_length]⟩
    · rw [hclosed, htake, ← hall]
      simp
  · have htake : bs.take (Scan.quotedLength b bs) = units.flatten ++ [b] := by
      rw [hlen, hall, take_length_add_append]
      rfl
    refine ⟨by rw [htake, hlen, length_append, length_singleton], hchars, hbytes, hparts, ?_⟩
    rwa [if_pos (hclosed.mpr htake)]

/-- A word without an end: its last quote stands behind a backslash, after a broken code point and a stray byte. -/
def Source.openWord : Source := ⟨.module, "", [39, 92, 117, 123, 92, 39, 0xe2, 92, 39]⟩

theorem Source.unquote_in_step_openWord : openWord.tokens.map (·.kind) = [.character, .eof] ∧
    (Literal.unquote Byte.apostrophe openWord.code).2 = false ∧
    ∃ body, openWord.code = Byte.apostrophe :: body ∧ body = (Scan.units Byte.apostrophe body).flatten := by
  have h : openWord.tokens = [] ++ ⟨.character, openWord.code, ⟨"", .origin, openWord.endLocation⟩⟩ ::
      [⟨.eof, [], ⟨"", openWord.endLocation, openWord.endLocation⟩⟩] := by decide +kernel
  have hopen : (Literal.unquote Byte.apostrophe openWord.code).2 = false := by decide +kernel
  obtain ⟨_, body, rfl, htext, -, -, -, -, hend⟩ := unquote_in_step h rfl
  refine ⟨by rw [h]; rfl, hopen, body, htext, ?_⟩
  rw [if_neg (by simp [hopen])] at hend
  simpa using hend.1

end Parlance
