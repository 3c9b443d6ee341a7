import Parlance.Proofs.Progress
import Parlance.Proofs.Words
/-!
Words end between characters, so they cover the text of a source, and each stands where it would be placed.
-/
open List

namespace Parlance

namespace Utf8

variable {s : Bytes} {k m : Nat}

/-- The positions reached by reading whole characters from the start of a text. -/
inductive Boundary : Bytes → Nat → Prop where
  | start (s : Bytes) : Boundary s 0
  | next {b : UInt8} {bs : Bytes} {k : Nat} (h : Boundary (bs.drop (decodeFrom b bs).2) k) :
    Boundary (b :: bs) ((decodeFrom b bs).2 + 1 + k)

theorem Boundary.le_length (h : Boundary s k) : k ≤ s.length := by
  induction h with
  | start s => exact Nat.zero_le _
  | @next b bs k _ ih => grind [length_decodeFrom]

theorem Boundary.trans {j : Nat} (hj : Boundary s j) (hk : Boundary (s.drop j) k) : Boundary s (j + k) := by
  induction hj with
  | start s => simpa using hk
  | @next b bs j _ ih =>
    rw [Nat.add_assoc]
    refine .next (ih ?_)
    grind [drop_drop]

theorem Boundary.take (h : Boundary s k) (hm : k ≤ m) : Boundary (s.take m) k := by
  induction h generalizing m with
  | start s => exact .start _
  | @next b bs k _ ih =>
    obtain ⟨m, rfl⟩ : ∃ l, m = l + 1 := ⟨m - 1, by omega⟩
    have hd : decodeFrom b (bs.take m) = decodeFrom b bs := decodeFrom_take (by omega)
    have hrest : Boundary ((bs.take m).drop (decodeFrom b (bs.take m)).2) k := by
      rw [hd, drop_take]
      exact ih (by omega)
    have hall := Boundary.next hrest
    rwa [hd] at hall

theorem runes_go_drop (skip : Nat) (s : Bytes) : runes.go skip s = runes (s.drop skip) := by
  induction s generalizing skip with
  | nil => cases skip <;> rfl
  | cons b bs ih =>
    cases skip with
    | zero => rfl
    | succ skip => exact ih skip

theorem Boundary.runes_eq (h : Boundary s k) : runes s = runes (s.take k) ++ runes (s.drop k) := by
  induction h with
  | start s => rfl
  | @next b bs k _ ih =>
    have hd : decodeFrom b (bs.take ((decodeFrom b bs).2 + k)) = decodeFrom b bs :=
      decodeFrom_take (Nat.le_add_right _ _)
    rw [Nat.add_right_comm, take_succ_cons, drop_succ_cons, runes, runes, runes_go_cons,
      runes_go_cons, hd, runes_go_drop, runes_go_drop, ih, drop_take, drop_drop,
      Nat.add_sub_cancel_left, cons_append]

theorem Boundary.ascii {b : UInt8} (hb : b < 0x80) {bs : Bytes} (h : Boundary bs k) : Boundary (b :: bs) (k + 1) := by
  have hd := decodeFrom_of_lt hb bs
  have hrest : Boundary (bs.drop (decodeFrom b bs).2) k := by simpa [hd] using h
  have hall := Boundary.next hrest
  rwa [hd, Nat.zero_add, Nat.add_comm] at hall

end Utf8

namespace Scan

variable {b : UInt8} {base : Nat}

open Utf8

/-! ### Where scanners stop -/

theorem boundary_leadingBytes {p : UInt8 → Bool} (hp : ∀ b, p b → b < 0x80) (s : Bytes) :
    Boundary s (leadingBytes p s) := by
  induction s with
  | nil => exact .start _
  | cons b bs ih =>
    unfold leadingBytes
    split
    · rename_i hb
      exact ih.ascii (hp b hb)
    · exact .start _

theorem boundary_leading_go (p : Char → Bool) (skip : Nat) (s : Bytes) (h : skip ≤ s.length) :
    ∃ k, leading.go p skip s = skip + k ∧ Boundary (s.drop skip) k := by
  induction s generalizing skip with
  | nil =>
    obtain rfl : skip = 0 := Nat.le_zero.mp h
    exact ⟨0, rfl, .start _⟩
  | cons b bs ih =>
    cases skip with
    | succ skip =>
      obtain ⟨k, hk, hb⟩ := ih skip (Nat.le_of_succ_le_succ h)
      exact ⟨k, by rw [leading.go, hk]; omega, hb⟩
    | zero =>
      rw [leading_go_cons]
      split
      · obtain ⟨k, hk, hb⟩ := ih (decodeFrom b bs).2 (length_decodeFrom b bs)
        exact ⟨(decodeFrom b bs).2 + 1 + k, by rw [hk]; omega, .next hb⟩
      · exact ⟨0, rfl, .start _⟩

theorem boundary_leading (p : Char → Bool) (s : Bytes) : Boundary s (leading p s) := by
  obtain ⟨k, hk, hb⟩ := boundary_leading_go p 0 s (Nat.zero_le _)
  rw [leading, hk, Nat.zero_add]
  exact hb

/-- A comment ends before a newline, and no character has one among its further bytes. -/
theorem boundary_comment_go (skip : Nat) (s : Bytes) (h : ∀ b ∈ s.take skip, 128 ≤ b.toNat) (hs : skip ≤ s.length) :
    ∃ k, leadingBytes (· != Source.newline) s = skip + k ∧ Boundary (s.drop skip) k := by
  induction s generalizing skip with
  | nil =>
    obtain rfl : skip = 0 := Nat.le_zero.mp hs
    exact ⟨0, rfl, .start _⟩
  | cons b bs ih =>
    unfold leadingBytes
    cases skip with
    | succ skip =>
      have hb : (b != Source.newline) := by
        have hhigh := h b mem_cons_self
        rw [bne_iff_ne]
        rintro rfl
        revert hhigh
        decide
      obtain ⟨k, hk, hbs⟩ := ih skip (fun c hc => h c (mem_cons_of_mem b hc)) (Nat.le_of_succ_le_succ hs)
      exact ⟨k, by rw [if_pos hb, hk]; omega, hbs⟩
    | zero =>
      split
      · have hhigh : ∀ c ∈ bs.take (decodeFrom b bs).2, 128 ≤ c.toNat := by
          by_cases hlt : b < 0x80
          · simp [decodeFrom_of_lt hlt]
          · exact (isHigh_decodeFrom hlt bs).2
        obtain ⟨k, hk, hbs⟩ := ih (decodeFrom b bs).2 hhigh (length_decodeFrom b bs)
        exact ⟨(decodeFrom b bs).2 + 1 + k, by rw [hk]; omega, .next hbs⟩
      · exact ⟨0, rfl, .start _⟩

theorem boundary_comment (s : Bytes) : Boundary s (leadingBytes (· != Source.newline) s) := by
  obtain ⟨k, hk, hb⟩ := boundary_comment_go 0 s (by simp) (Nat.zero_le _)
  rw [hk, Nat.zero_add]
  exact hb

theorem boundary_quoted_go {quote : UInt8} (hq : quote < 0x80) (skip : Nat) (escaped : Bool) (s : Bytes)
    (h : skip ≤ s.length) : ∃ k, quotedLength.go quote skip escaped s = skip + k ∧ Boundary (s.drop skip) k := by
  induction s generalizing skip escaped with
  | nil =>
    obtain rfl : skip = 0 := Nat.le_zero.mp h
    exact ⟨0, rfl, .start _⟩
  | cons b bs ih =>
    cases skip with
    | succ skip =>
      obtain ⟨k, hk, hb⟩ := ih skip escaped (Nat.le_of_succ_le_succ h)
      exact ⟨k, by rw [quotedLength.go, hk]; omega, hb⟩
    | zero =>
      rw [quotedLength.go]
      split
      · rename_i hb
        rw [Bool.and_eq_true, beq_iff_eq] at hb
        exact ⟨1, rfl, (Boundary.start bs).ascii (hb.2 ▸ hq)⟩
      split
      · rename_i hb
        rw [Bool.and_eq_true, beq_iff_eq] at hb
        obtain ⟨k, hk, hbs⟩ := ih 0 true (Nat.zero_le _)
        exact ⟨k + 1, by rw [hk]; omega, Boundary.ascii (hb.2 ▸ by decide) hbs⟩
      · obtain ⟨k, hk, hbs⟩ := ih (decodeFrom b bs).2 false (length_decodeFrom b bs)
        exact ⟨(decodeFrom b bs).2 + 1 + k, by rw [hk]; omega, .next hbs⟩

theorem boundary_quoted {quote : UInt8} (hq : quote < 0x80) (s : Bytes) : Boundary s (quotedLength quote s) := by
  obtain ⟨k, hk, hb⟩ := boundary_quoted_go hq 0 false s (Nat.zero_le _)
  rw [quotedLength, hk, Nat.zero_add]
  exact hb

theorem lt_of_isOperator (h : Byte.isOperator b) : b < 0x80 := by
  have hall : Byte.operators.all (· < 0x80) := by decide
  simpa using all_eq_true.mp hall b (contains_iff_mem.mp h)

theorem lt_of_isDigit (h : Byte.isDigit b) : b < 0x80 := by grind [Byte.isDigit]

theorem lt_of_isLetter (h : Byte.isLetter b) : b < 0x80 := by grind [Byte.isLetter]

theorem lt_of_isSpace (h : Byte.isSpace b) : b < 0x80 := by grind [Byte.isSpace]

theorem lt_of_digitValue (hbase : base ≤ 36) (h : Byte.digitValue b < base) :
    b < 0x80 := by grind [Byte.digitValue, lt_of_isDigit]

theorem boundary_operatorTail (s : Bytes) : Boundary s (operatorTail s) := by
  fun_induction operatorTail s with
  | case1 => exact .start _
  | case2 b bs h hb ih => exact ih.ascii (lt_of_isOperator hb)
  | case3 => exact .start _
  | case4 => exact .start _

theorem le_of_readBase? {text : Bytes} (h : readBase? text = some base) : base ≤ 36 := by
  have hfold (l : Bytes) (n : Nat) (hn : n ≤ 36) (h : l.foldlM readBase?.step n = some base) : base ≤ 36 := by
    induction l generalizing n with
    | nil => simpa using (by simpa using h : n = base) ▸ hn
    | cons b bs ih => grind [readBase?.step]
  grind [readBase?, Option.filter_eq_some_iff]

theorem boundary_fraction {taken : Nat} (hbase : base ≤ 36) {s : Bytes}
    (h : Boundary s taken) : Boundary s (fraction base taken (s.drop taken)).2 := by
  unfold fraction
  split
  · rename_i c bs hs
    split
    · have hdigits := boundary_leadingBytes
        (p := fun b => decide (Byte.digitValue b < base) || b == Byte.underscore)
        (by grind [lt_of_digitValue, Byte.underscore]) (c :: bs)
      rw [Nat.add_assoc, Nat.add_comm 1]
      apply h.trans
      rw [hs]
      exact hdigits.ascii (by decide)
    · exact h
  · exact h

theorem boundary_number (bs : Bytes) : Boundary bs (number b bs).2 := by
  have hdigits := boundary_leadingBytes (p := fun b => Byte.isDigit b || b == Byte.underscore)
    (by grind [lt_of_isDigit, Byte.underscore]) bs
  unfold number
  simp only
  split
  · rename_i c cs hs
    split
    · have hbase : (readBase? (b :: bs.take
          (leadingBytes (fun b => Byte.isDigit b || b == Byte.underscore) bs))).getD 36 ≤ 36 := by
        cases hr : readBase? (b :: bs.take
            (leadingBytes (fun b => Byte.isDigit b || b == Byte.underscore) bs)) with
        | none => exact Nat.le_refl _
        | some base => exact le_of_readBase? hr
      have hrest := boundary_leadingBytes
        (p := fun b => Byte.isDigit b || Byte.isLetter b || b == Byte.underscore)
          (by grind [lt_of_isDigit, lt_of_isLetter, Byte.underscore]) (c :: cs)
      have hall := hdigits.trans (hs ▸ hrest.ascii (b := 35) (by decide))
      have hfraction := boundary_fraction hbase hall
      rw [← drop_drop, hs, drop_succ_cons] at hfraction
      rwa [Nat.add_right_comm, Nat.add_assoc]
    · grind [boundary_fraction]
  · exact boundary_fraction (by omega) hdigits

theorem boundary_identifier (b : UInt8) (bs : Bytes) : Boundary (b :: bs) ((identifier b bs).2 + 1) := by
  have hfirst : Boundary (b :: bs) ((decodeFrom b bs).2 + 1) := .next (.start _)
  unfold identifier
  simp only
  split
  · have hname := hfirst.trans (boundary_leading inIdentifier _)
    have hmarks := boundary_leadingBytes (p := (· == Byte.apostrophe)) (by grind [Byte.apostrophe])
      ((b :: bs).drop ((decodeFrom b bs).2 + 1 + leading inIdentifier (bs.drop (decodeFrom b bs).2)))
    rw [drop_succ_cons] at hname
    have hall := hname.trans hmarks
    grind
  · exact hfirst

theorem boundary_symbolLiteral (bs : Bytes) : Boundary bs (symbolLiteral bs).2 := by
  unfold symbolLiteral
  split
  · exact .start _
  · split
    · grind [boundary_leading]
    · split
      · exact boundary_leadingBytes (fun b => lt_of_isOperator) _
      · exact .start _

theorem boundary_operator (bs : Bytes) : Boundary (b :: bs) ((operator b bs).2 + 1) := by
  unfold operator
  split
  · rename_i k hk
    have hb : b < 0x80 := by
      rw [UInt8.lt_iff_toNat_lt]
      by_contra hge
      have hc := toNat_ofNat_ge (n := b.toNat) (by simpa using hge)
      unfold punctuation? at hk
      split at hk <;> first | (rename_i he; rw [he] at hc; revert hc; decide) | cases hk
    exact (Boundary.start bs).ascii hb
  · split
    · exact .next (.start _)
    · rename_i hb
      have hb : b < 0x80 := lt_of_isOperator (by simpa using hb)
      split
      · exact (Boundary.start bs).ascii hb
      · exact (boundary_operatorTail bs).ascii hb

theorem boundary_word (b : UInt8) (bs : Bytes) : Boundary (b :: bs) ((word b bs).2 + 1) := by
  unfold word
  split
  · rename_i hb
    exact (boundary_leadingBytes (fun b => lt_of_isSpace) bs).ascii (lt_of_isSpace hb)
  split
  · rename_i hb
    rw [Bool.and_eq_true, beq_iff_eq] at hb
    exact (boundary_comment bs).ascii (hb.1 ▸ by decide)
  split
  · rename_i hb
    exact (boundary_number bs).ascii (lt_of_isDigit hb)
  split
  · exact boundary_identifier b bs
  split
  · rename_i hb
    have hb : b < 0x80 := by rw [beq_iff_eq.mp hb]; decide
    exact (boundary_quoted hb bs).ascii hb
  split
  · rename_i hb
    have hb : b < 0x80 := by rw [beq_iff_eq.mp hb]; decide
    exact (boundary_quoted hb bs).ascii hb
  split
  · rename_i hb
    exact (boundary_symbolLiteral bs).ascii (by rw [beq_iff_eq.mp hb]; decide)
  · exact boundary_operator bs

def isPlain : Token.Kind → Bool
  | .eof | .integer | .float => false
  | _ => true

theorem isPlain_identifierKind (text : Bytes) : isPlain (identifierKind text) := by
  have hall : ∀ k ∈ Token.Kind.underscore :: .symbol :: keywordTexts.map (·.2), isPlain k := by decide
  exact hall _ (identifierKind_mem text)

theorem isPlain_operator (b : UInt8) (bs : Bytes) : isPlain (operator b bs).1 := by
  unfold operator
  split
  · rename_i k hk
    have hm := punctuation?_cases hk
    cases k <;> simp at hm <;> rfl
  · grind [isPlain, operatorKind_cases]

theorem word_kind (b : UInt8) (bs : Bytes) : Byte.isDigit b ∧ (word b bs).1 ≠ .eof ∨ isPlain (word b bs).1 := by
  unfold word
  split
  · exact .inr rfl
  split
  · exact .inr rfl
  split
  · grind [number_kind]
  right
  split
  · unfold identifier
    simp only
    split
    · exact isPlain_identifierKind _
    · rfl
  split
  · rfl
  split
  · rfl
  split
  · unfold symbolLiteral
    split
    · rfl
    · split
      · rfl
      · split <;> rfl
  · exact isPlain_operator b bs

theorem word_of_isDigit (hb : Byte.isDigit b) (bs : Bytes) : word b bs = number b bs := by
  have hspace : Byte.isSpace b = false := by
    refine Bool.eq_false_iff.mpr fun h => ?_
    simp only [Byte.isSpace, Bool.or_eq_true, beq_iff_eq, or_assoc] at h
    rcases h with rfl | rfl | rfl | rfl <;> cases hb
  have hsolidus : (b == Byte.solidus) = false := beq_eq_false_iff_ne.mpr (by rintro rfl; cases hb)
  grind [word]

theorem word_kind_ne_eof (b : UInt8) (bs : Bytes) : (word b bs).1 ≠ .eof := by
  obtain ⟨-, h⟩ | h := word_kind b bs
  · exact h
  · intro he
    rw [he] at h
    cases h

end Scan

/-! ### Words in their places -/

theorem Location.advance_append {l : Location} {s t : Bytes} (h : Utf8.runes (s ++ t) = Utf8.runes s ++ Utf8.runes t) :
    l.advance (s ++ t) = (l.advance s).advance t := by
  rw [advance, h, foldl_append, ← advance, ← advance]

namespace Source

theorem offset_locationAt (s : Source) {k : Nat} (h : k ≤ s.size) : (s.locationAt k).offset = k := by
  rw [locationAt, Location.offset_advance, length_take_of_le h]
  simp [Location.origin]

theorem advance_locationAt (s : Source) {k : Nat} (h : Utf8.Boundary s.code k) (n : Nat) :
    (s.locationAt k).advance ((s.code.drop k).take n) = s.locationAt (k + n) := by
  have hruns := (h.take (Nat.le_add_right k n)).runes_eq
  rw [take_take, Nat.min_eq_left (Nat.le_add_right k n), drop_take, Nat.add_sub_cancel_left] at hruns
  grind [locationAt, Location.advance_append]

end Source

namespace Token

/-- A word is what the source holds between two offsets, and its span is that of these offsets. -/
structure Stretches (s : Source) (t : Token) (start stop : Nat) : Prop where
  starts : t.span.start.offset = start
  stops : t.span.stop.offset = stop
  inside : start ≤ stop ∧ stop ≤ s.size
  span : t.span = s.span start stop
  text : t.text = s.slice start stop

theorem stretches_of_boundary {s : Source} {k n : Nat} (h : k + n ≤ s.size) (kind : Kind) :
    Stretches s ⟨kind, (s.code.drop k).take n, s.span k (k + n)⟩ k (k + n) where
  starts := s.offset_locationAt (by omega)
  stops := s.offset_locationAt h
  inside := ⟨by omega, h⟩
  span := rfl
  text := by
    unfold Source.slice
    grind

/-- The word that the scanners find at an offset of a source. -/
def Scanned (s : Source) (t : Token) (start stop : Nat) : Prop :=
  ∃ b bs, s.code.drop start = b :: bs ∧ Scan.word b bs = (t.kind, stop - start - 1)

theorem stretches_place {s : Source} {rest : Bytes} {k : Nat} (hrest : s.code.drop k = rest)
    (hk : Utf8.Boundary s.code k) {t : Token} (ht : t ∈ place s.uri (s.locationAt k) (lexemes rest)) :
    ∃ start stop, Stretches s t start stop ∧ (t.kind = .eof ∨ Scanned s t start stop) := by
  fun_induction lexemes rest generalizing k with
  | case1 =>
    rw [place, mem_singleton] at ht
    subst ht
    have hall := stretches_of_boundary (s := s) (n := 0) hk.le_length .eof
    rw [take_zero] at hall
    exact ⟨k, k, hall, .inl rfl⟩
  | case2 b bs kind n h ih =>
    have hword := Scan.boundary_word b bs
    rw [h, ← hrest] at hword
    have hend := hk.trans hword
    have htext : b :: bs.take n = (s.code.drop k).take (n + 1) := by rw [hrest, take_succ_cons]
    rw [place, htext, s.advance_locationAt hk] at ht
    rcases mem_cons.mp ht with rfl | ht
    · refine ⟨k, k + (n + 1), stretches_of_boundary hend.le_length kind, .inr ⟨b, bs, hrest, ?_⟩⟩
      rw [Nat.add_sub_cancel_left]
      exact h
    · refine ih ?_ hend ht
      rw [← drop_drop, hrest, drop_succ_cons]

theorem flatMap_text_place (uri : Uri) (start : Location) (ws : List Lexeme) :
    (place uri start ws).flatMap (·.text) = ws.flatMap (·.text) := by
  induction ws generalizing start with
  | nil => rfl
  | cons w ws ih => rw [place, flatMap_cons, flatMap_cons, ih]

theorem scanned_of_place {uri : Uri} {start : Location} {s : Bytes} {before after : List Token} {t : Token}
    (h : place uri start (lexemes s) = before ++ t :: after) (ht : t.kind ≠ .eof) :
    ∃ b bs n, Scan.word b bs = (t.kind, n) ∧ t.text = b :: bs.take n ∧ after.flatMap (·.text) = bs.drop n := by
  fun_induction lexemes s generalizing start before with
  | case1 =>
    obtain ⟨rfl, h⟩ | ⟨_, _, h⟩ := cons_eq_append_iff.mp h
    · cases h
      exact absurd rfl ht
    · simp at h
  | case2 b bs kind n hword ih =>
    rw [place] at h
    obtain ⟨rfl, hcons⟩ | ⟨rest, rfl, hrest⟩ := cons_eq_append_iff.mp h
    · grind [flatMap_text_place, flatMap_text_lexemes]
    · exact ih hrest

theorem head?_place (uri : Uri) (start : Location) (ws : List Lexeme) :
    (place uri start ws).head?.map (·.span.start) = some start := by
  cases ws <;> rfl

theorem isChain_place (uri : Uri) (start : Location) (ws : List Lexeme) :
    (place uri start ws).IsChain fun t u => t.span.stop = u.span.start := by
  induction ws generalizing start with
  | nil => exact .singleton _
  | cons w ws ih =>
    have htail := ih (start.advance w.text)
    rw [place]
    cases ws with
    | nil => exact .cons_cons rfl htail
    | cons v vs => exact .cons_cons rfl htail

theorem place_eq_append (uri : Uri) (start : Location) (ws : List Lexeme) :
    ∃ words last, place uri start ws = words ++ [last] ∧ last.kind = .eof ∧ last.text = [] ∧
      words.map (fun t => (⟨t.kind, t.text⟩ : Lexeme)) = ws := by
  induction ws generalizing start with
  | nil => exact ⟨[], _, rfl, rfl, rfl, rfl⟩
  | cons w ws ih =>
    obtain ⟨words, last, hplace, hkind, htext, hwords⟩ := ih (start.advance w.text)
    refine ⟨⟨w.kind, w.text, ⟨uri, start, start.advance w.text⟩⟩ :: words, last, ?_, hkind, htext, ?_⟩
    · rw [place, hplace]
      rfl
    · rw [map_cons, hwords]

end Token

/-- The words of a source, put together, are its text. They end with one mark of the end, which is
empty, and no other word is empty or such a mark. The first starts at offset 0 and each of the others
where the one before it stops. Each is the part of the text between the offsets of its span, and no
shorter or longer than what its scanner finds there. -/
theorem Source.tokens_cover (s : Source) : s.tokens.flatMap (·.text) = s.code ∧
    (∃ words last, s.tokens = words ++ [last] ∧ last.kind = .eof ∧ last.text = [] ∧
      ∀ t ∈ words, t.kind ≠ .eof ∧ t.text ≠ []) ∧ s.tokens.head?.map (·.span.start.offset) = some 0 ∧
    s.tokens.IsChain (fun t u => t.span.stop = u.span.start) ∧
    ∀ t ∈ s.tokens, ∃ start stop, t.Stretches s start stop ∧ (t.kind = .eof ∨ t.Scanned s start stop) := by
  refine ⟨?_, ?_, ?_, Token.isChain_place _ _ _, fun t ht => ?_⟩
  · rw [tokens, Token.flatMap_text_place, flatMap_text_lexemes]
  · obtain ⟨words, last, hplace, hkind, htext, hwords⟩ := Token.place_eq_append s.uri .origin (lexemes s.code)
    refine ⟨words, last, hplace, hkind, htext, fun t ht => ?_⟩
    have hmem : (⟨t.kind, t.text⟩ : Lexeme) ∈ lexemes s.code := hwords ▸ mem_map_of_mem ht
    obtain ⟨b, bs, n, hword, htext⟩ := lexemes_scanned s.code _ hmem
    have hne := Scan.word_kind_ne_eof b bs
    rw [hword] at hne
    exact ⟨hne, by simp only at htext; simp [htext]⟩
  · have hhead := congrArg (Option.map Location.offset) (Token.head?_place s.uri .origin (lexemes s.code))
    rwa [Option.map_map] at hhead
  · exact Token.stretches_place rfl (.start _) ht

end Parlance
