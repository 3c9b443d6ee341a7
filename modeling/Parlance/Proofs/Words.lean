import Parlance.Proofs.Characters
import Parlance.Selector
/-!
How words are spelled. The text of a selector tells how many arguments it takes.
-/
namespace Parlance

open List

/-! ### Bytes and characters -/

namespace Utf8

variable {b : UInt8} {s : Bytes} {skip : Nat} {r : Char × Nat}

theorem toNat_ofNat_ge {n : Nat} (h : 128 ≤ n) : (Char.ofNat n).toNat = 0 ∨ 128 ≤ (Char.ofNat n).toNat := by
  by_cases hv : n.isValidChar
  · rw [Char.ofNat, dif_pos hv]
    exact .inr h
  · rw [Char.ofNat, dif_neg hv]
    exact .inl rfl

theorem toNat_ofNat_of_lt (h : b < 0x80) : (Char.ofNat b.toNat).toNat = b.toNat := by
  have hlt : b.toNat < 128 := by simpa [UInt8.lt_iff_toNat_lt] using h
  unfold Char.ofNat
  rw [dif_pos (.inl (by omega))]
  rfl

theorem runes_go_cons (b : UInt8) (bs : Bytes) : runes.go 0 (b :: bs) =
      ((decodeFrom b bs).1, (decodeFrom b bs).2 + 1) :: runes.go (decodeFrom b bs).2 bs := rfl

theorem chars_cons (b : UInt8) (bs : Bytes) :
    chars (b :: bs) = (decodeFrom b bs).1 :: (runes.go (decodeFrom b bs).2 bs).map (·.1) := rfl

theorem mem_of_mem_runes (h : r ∈ runes.go skip s)
    (h0 : r.1.toNat ≠ 0) (hr : r.1.toNat < 128) : ∃ b ∈ s, b.toNat = r.1.toNat := by
  induction s generalizing skip with
  | nil => cases skip <;> cases h
  | cons b bs ih =>
    cases skip with
    | succ skip =>
      obtain ⟨x, hx, he⟩ := ih h
      exact ⟨x, mem_cons_of_mem b hx, he⟩
    | zero =>
      rw [runes_go_cons] at h
      rcases mem_cons.mp h with rfl | h
      · by_cases hb : b < 0x80
        · grind [decodeFrom_of_lt, toNat_ofNat_of_lt]
        · have hh := (isHigh_decodeFrom hb bs).1
          simp only at h0 hr
          omega
      · grind

theorem exists_of_mem_runes (h : r ∈ runes.go skip s) (hs : ∀ b ∈ s, b < 0x80) : ∃ b ∈ s, r.1 = Char.ofNat b.toNat := by
  induction s generalizing skip with
  | nil => cases skip <;> cases h
  | cons b bs ih =>
    have hbs : ∀ c ∈ bs, c < 0x80 := fun c hc => hs c (mem_cons_of_mem b hc)
    cases skip with
    | succ skip =>
      obtain ⟨x, hx, he⟩ := ih h hbs
      exact ⟨x, mem_cons_of_mem b hx, he⟩
    | zero => grind [runes_go_cons, decodeFrom_of_lt]

theorem mem_of_mem_chars {c : Char} (h : c ∈ chars s) (h0 : c.toNat ≠ 0)
    (hc : c.toNat < 128) : ∃ b ∈ s, b.toNat = c.toNat := by
  obtain ⟨r, hr, rfl⟩ := mem_map.mp h
  exact mem_of_mem_runes hr h0 hc

end Utf8

/-! ### Names and operators -/

namespace Selector

variable {s : String} {ss : List String}

def operatorChars : List Char := "+-*/\\=<>!%&|?~^@".toList

def isMark (c : Char) : Bool := c == ':' || c == '#' || c == '/'

/-- Whether a text could be a name: it starts like none of the operators and holds no mark. -/
def isName (s : String) : Bool :=
  match s.toList with
  | [] => false
  | c :: cs => !operatorChars.contains c && (c :: cs).all (!isMark ·)

def isOperator (s : String) : Bool :=
  match s.toList with
  | [] => false
  | c :: cs => (c :: cs).all operatorChars.contains

def arity (s : String) : Nat :=
  match s.toList with
  | [] => 0
  | c :: cs => if operatorChars.contains c then 1 else (c :: cs).count ':'

theorem isName_cases (h : isName s) :
    ∃ c cs, s.toList = c :: cs ∧ operatorChars.contains c = false ∧ s.toList.count ':' = 0 := by
  unfold isName at h
  split at h
  · cases h
  · rename_i c cs hs
    rw [Bool.and_eq_true, Bool.not_eq_true', all_eq_true] at h
    refine ⟨c, cs, hs, h.1, count_eq_zero.mpr fun hm => ?_⟩
    have hc := h.2 ':' (hs ▸ hm)
    revert hc
    decide

theorem arity_of_isName (h : isName s) : arity s = 0 := by grind [isName_cases, arity]

theorem arity_of_isOperator (h : isOperator s) : arity s = 1 := by grind [isOperator, arity]

theorem count_keywords (h : ∀ s ∈ ss, isName s) : (String.join (ss.map (· ++ ":"))).toList.count ':' = ss.length := by
  rw [String.toList_join]
  induction ss with
  | nil => rfl
  | cons s ss ih =>
    obtain ⟨c, cs, -, -, hs⟩ := isName_cases (h s mem_cons_self)
    simp_all

theorem arity_keywords (hne : ss ≠ []) (h : ∀ s ∈ ss, isName s) :
    arity (String.join (ss.map (· ++ ":"))) = ss.length := by
  have hcount := count_keywords h
  cases ss with
  | nil => contradiction
  | cons s ss =>
    obtain ⟨c, cs, hs, hc, -⟩ := isName_cases (h s mem_cons_self)
    have hl : ∃ ds, (String.join ((s :: ss).map (· ++ ":"))).toList = c :: ds := by
      rw [String.toList_join, map_cons, flatMap_cons, String.toList_append, hs]
      exact ⟨_, rfl⟩
    grind [arity]

theorem arity_keyword (h : isName s) : arity (s ++ ":") = 1 := by
  have ha : arity (String.join ([s].map (· ++ ":"))) = 1 := arity_keywords (by simp) (by simpa using h)
  simpa [String.join] using ha

end Selector

namespace Scan

variable {b : UInt8} {bs : Bytes} {k : Token.Kind} {n : Nat} {s text : Bytes}

theorem leading_go_cons (p : Char → Bool) (b : UInt8) (bs : Bytes) :
    leading.go p 0 (b :: bs) = if p (Utf8.decodeFrom b bs).1 then
      leading.go p (Utf8.decodeFrom b bs).2 bs + 1 else 0 := rfl

theorem mem_take_leading {p : Char → Bool} {skip : Nat} (h : ∀ b ∈ s.take skip, 128 ≤ b.toNat) :
    ∀ b ∈ s.take (leading.go p skip s), 128 ≤ b.toNat ∨ p (Char.ofNat b.toNat) := by
  induction s generalizing skip with
  | nil => simp
  | cons c cs ih =>
    cases skip with
    | succ skip =>
      have hc := h c mem_cons_self
      have hcs : ∀ b ∈ cs.take skip, 128 ≤ b.toNat := fun b hb => h b (mem_cons_of_mem c hb)
      intro b hb
      rcases mem_cons.mp hb with rfl | hb
      · exact .inl hc
      · exact ih hcs b hb
    | zero =>
      rw [leading_go_cons]
      by_cases hp : p (Utf8.decodeFrom c cs).1
      · rw [if_pos hp, take_succ_cons]
        intro b hb
        by_cases hc : c < 0x80
        · grind [Utf8.decodeFrom_of_lt]
        · have hh := (Utf8.isHigh_decodeFrom hc cs).2
          grind [UInt8.lt_iff_toNat_lt]
      · rw [if_neg hp]
        simp

theorem leadingBytes_split (p : UInt8 → Bool) (s : Bytes) : ∃ us rest, s = us ++ rest ∧
    leadingBytes p s = us.length ∧ ∀ b ∈ us, p b := by
  induction s with
  | nil => exact ⟨[], [], rfl, rfl, nofun⟩
  | cons b bs ih =>
    obtain ⟨us, rest, rfl, hlen, hus⟩ := ih
    by_cases hb : p b
    · grind [leadingBytes]
    · exact ⟨[], b :: (us ++ rest), rfl, by simp [leadingBytes, hb], nofun⟩

theorem mem_take_leadingBytes {p : UInt8 → Bool} : ∀ b ∈ s.take (leadingBytes p s), p b := by
  obtain ⟨us, rest, rfl, hlen, hus⟩ := leadingBytes_split p s
  rwa [hlen, take_left]

def Identifying (b : UInt8) : Prop :=
  128 ≤ b.toNat ∨ inIdentifier (Char.ofNat b.toNat) ∨ b = Byte.apostrophe

theorem identifier_bytes (h : identifier b bs = (k, n)) (hk : k ≠ .unknown) :
    startsIdentifier (Utf8.decodeFrom b bs).1 ∧ ∀ c ∈ b :: bs.take n, Identifying c := by
  unfold identifier at h
  simp only at h
  split at h
  · rename_i hs
    refine ⟨hs, ?_⟩
    simp only [Prod.mk.injEq] at h
    obtain ⟨-, rfl⟩ := h
    have hfirst : Identifying b := by
      by_cases hb : b < 0x80
      · rw [Utf8.decodeFrom_of_lt hb] at hs
        exact .inr (.inl (by simp [inIdentifier, hs]))
      · exact .inl (by simpa [UInt8.lt_iff_toNat_lt] using hb)
    have hdecoded : ∀ c ∈ bs.take (Utf8.decodeFrom b bs).2, Identifying c := by
      by_cases hb : b < 0x80
      · rw [Utf8.decodeFrom_of_lt hb]
        simp
      · exact fun c hc => .inl ((Utf8.isHigh_decodeFrom hb bs).2 c hc)
    intro c hc
    rcases mem_cons.mp hc with rfl | hc
    · exact hfirst
    rw [take_add, take_add, append_assoc] at hc
    rcases mem_append.mp hc with hc | hc
    · exact hdecoded c hc
    rcases mem_append.mp hc with hc | hc
    · exact (mem_take_leading (by simp) c hc).imp id .inl
    · exact .inr (.inr (by simpa using mem_take_leadingBytes c hc))
  · cases h
    exact absurd rfl hk

theorem operatorTail_bytes (bs : Bytes) : ∀ c ∈ bs.take (operatorTail bs), Byte.isOperator c := by
  fun_induction operatorTail bs with
  | case1 => simp
  | case2 b bs h hb ih => grind
  | case3 => simp
  | case4 => simp

theorem operatorKind_cases (text : Bytes) :
    operatorKind text ∈ [Token.Kind.slash, .openAngle, .arrow, .fatArrow, .operator] := by
  grind [operatorKind]

theorem punctuation?_cases (h : punctuation? b = some k) :
    k ∈ [Token.Kind.colon, .semicolon, .comma, .period, .openCurly, .closeCurly, .openParen,
      .closeParen] := by
  unfold punctuation? at h
  split at h <;> cases h <;> simp

theorem operator_bytes (h : operator b bs = (k, n)) :
    k ≠ .symbol ∧ (k.isBinaryOperator → ∀ c ∈ b :: bs.take n, Byte.isOperator c) := by
  unfold operator at h
  cases hp : punctuation? b with
  | some p =>
    rw [hp] at h
    cases h
    have hm := punctuation?_cases hp
    constructor
    · rintro rfl
      simp at hm
    · intro hk
      simp only [mem_cons, not_mem_nil, or_false] at hm
      rcases hm with rfl | rfl | rfl | rfl | rfl | rfl | rfl | rfl <;> cases hk
  | none =>
    rw [hp] at h
    simp only at h
    split at h
    · cases h
      exact ⟨nofun, nofun⟩
    · grind [operatorKind_cases, operatorTail_bytes]

theorem fraction_kind (base taken : Nat) (bs : Bytes) :
    (fraction base taken bs).1 = .float ∨ (fraction base taken bs).1 = .integer := by
  unfold fraction
  grind

theorem number_kind (b : UInt8) (bs : Bytes) :
    (number b bs).1 = .float ∨ (number b bs).1 = .integer := by grind [number, fraction_kind]

theorem word_cases (h : word b bs = (k, n)) : identifier b bs = (k, n) ∨ operator b bs = (k, n) ∨
      (k ≠ .symbol ∧ k.isBinaryOperator = false) := by
  unfold word at h
  split at h
  · cases h
    exact .inr (.inr ⟨by decide, rfl⟩)
  split at h
  · cases h
    exact .inr (.inr ⟨by decide, rfl⟩)
  split at h
  · have hk := number_kind b bs
    rw [h] at hk
    rcases hk with rfl | rfl <;> exact .inr (.inr ⟨by decide, rfl⟩)
  split at h
  · exact .inl h
  split at h
  · cases h
    exact .inr (.inr ⟨by decide, rfl⟩)
  split at h
  · cases h
    exact .inr (.inr ⟨by decide, rfl⟩)
  split at h
  · right
    right
    unfold symbolLiteral at h
    split at h
    · cases h
      exact ⟨by decide, rfl⟩
    · split at h
      · cases h
        exact ⟨by decide, rfl⟩
      · split at h <;> cases h <;> exact ⟨by decide, rfl⟩
  · exact .inr (.inl h)

theorem lookup_mem {α β : Type} [BEq α] {a : α} {b : β} {l : List (α × β)}
    (h : l.lookup a = some b) : b ∈ l.map (·.2) := by
  induction l with
  | nil => cases h
  | cons e l ih => grind

theorem identifierKind_mem (text : Bytes) :
    identifierKind text ∈ Token.Kind.underscore :: .symbol :: keywordTexts.map (·.2) := by
  unfold identifierKind
  split
  · exact mem_cons_self
  · cases hl : keywordTexts.lookup text with
    | none => simp
    | some k => exact mem_cons_of_mem _ (mem_cons_of_mem _ (lookup_mem hl))

theorem identifierKind_not_operator (text : Bytes) : (identifierKind text).isBinaryOperator = false := by
  have hall : ∀ k ∈ Token.Kind.underscore :: .symbol :: keywordTexts.map (·.2), k.isBinaryOperator = false := by decide
  exact hall _ (identifierKind_mem text)

theorem not_identifying_of_isMark {c : Char} (hc : Selector.isMark c) (hb : b.toNat = c.toNat) : ¬ Identifying b := by
  simp only [Selector.isMark, Bool.or_eq_true, beq_iff_eq, or_assoc] at hc
  rintro (h | h | h)
  · rcases hc with rfl | rfl | rfl <;> (rw [hb] at h; revert h; decide)
  · rw [hb, Char.ofNat_toNat] at h
    rcases hc with rfl | rfl | rfl <;> (revert h; decide)
  · rw [h] at hb
    rcases hc with rfl | rfl | rfl <;> (revert hb; decide)

theorem isName_of_identifying (hs : startsIdentifier (Utf8.decodeFrom b bs).1) (h : ∀ c ∈ b :: text, Identifying c) :
    Selector.isName (Utf8.toString (b :: text)) := by
  have hfirst : Selector.operatorChars.contains (Utf8.decodeFrom b text).1 = false := by
    -- The list is looked through, not the type of its elements.
    have hascii : Selector.operatorChars.all fun c =>
        c.toNat ≠ 0 ∧ c.toNat < 128 ∧ startsIdentifier c = false := by decide
    cases hc : Selector.operatorChars.contains (Utf8.decodeFrom b text).1 with
    | false => rfl
    | true =>
      obtain ⟨h0, hlt, hn⟩ := of_decide_eq_true (all_eq_true.mp hascii _ (contains_iff_mem.mp hc))
      by_cases hb : b < 0x80
      · grind [Utf8.decodeFrom_of_lt]
      · have hh := (Utf8.isHigh_decodeFrom hb text).1
        omega
  have hmarks : ∀ c ∈ Utf8.chars (b :: text), (!Selector.isMark c) := by
    intro c hc
    cases hm : Selector.isMark c with
    | false => rfl
    | true =>
      have hr : c.toNat ≠ 0 ∧ c.toNat < 128 := by
        simp only [Selector.isMark, Bool.or_eq_true, beq_iff_eq, or_assoc] at hm
        rcases hm with rfl | rfl | rfl <;> decide
      grind [Utf8.mem_of_mem_chars, not_identifying_of_isMark]
  grind [Utf8.chars_cons, Selector.isName, Utf8.toString, String.toList_ofList]

theorem isOperator_of_bytes (h : ∀ c ∈ b :: text, Byte.isOperator c) :
    Selector.isOperator (Utf8.toString (b :: text)) := by
  have hmem (c : UInt8) (hc : c ∈ b :: text) : c ∈ Byte.operators := contains_iff_mem.mp (h c hc)
  have hoperators : Byte.operators.all fun c => c < 0x80 ∧
      Selector.operatorChars.contains (Char.ofNat c.toNat) := by decide
  have hall (c : UInt8) (hc : c ∈ Byte.operators) : c < 0x80 ∧
      Selector.operatorChars.contains (Char.ofNat c.toNat) :=
    of_decide_eq_true (all_eq_true.mp hoperators c hc)
  have hchars : ∀ c ∈ Utf8.chars (b :: text), Selector.operatorChars.contains c := by
    intro c hc
    obtain ⟨r, hr, rfl⟩ := mem_map.mp hc
    obtain ⟨x, hx, he⟩ := Utf8.exists_of_mem_runes hr fun y hy => (hall y (hmem y hy)).1
    rw [he]
    exact (hall x (hmem x hx)).2
  grind [Utf8.chars_cons, Selector.isOperator, Utf8.toString, String.toList_ofList]

theorem isName_of_word (h : word b bs = (.symbol, n)) : Selector.isName (Utf8.toString (b :: bs.take n)) := by
  rcases word_cases h with h | h | h
  · obtain ⟨hs, hb⟩ := identifier_bytes h nofun
    exact isName_of_identifying hs hb
  · exact absurd rfl (operator_bytes h).1
  · exact absurd rfl h.1

theorem operator_bytes_of_word (h : word b bs = (k, n)) (hk : k.isBinaryOperator) :
    ∀ c ∈ b :: bs.take n, Byte.isOperator c := by
  rcases word_cases h with h | h | h
  · unfold identifier at h
    simp only at h
    split at h
    · grind [identifierKind_not_operator]
    · cases h
      cases hk
  · exact (operator_bytes h).2 hk
  · rw [h.2] at hk
    cases hk

end Scan

/-! ### The words of a source -/

/-- A word is spelled as its kind wants it to be. -/
structure Token.IsSpelled (t : Token) : Prop where
  name : t.kind = .symbol → Selector.isName t.name
  operator : t.kind.isBinaryOperator → ∀ b ∈ t.text, Byte.isOperator b
  text : t.kind ≠ .eof → t.text ≠ []

variable {t : Token}

theorem isSpelled_of_mem_place {uri : Uri} {start : Location} {ws : List Lexeme}
    (hw : ∀ w ∈ ws, ∃ b bs n, Scan.word b bs = (w.kind, n) ∧ w.text = b :: bs.take n)
    (h : t ∈ Token.place uri start ws) : t.IsSpelled := by
  induction ws generalizing start with
  | nil =>
    rw [Token.place, mem_singleton] at h
    subst h
    exact ⟨nofun, nofun, fun h => absurd rfl h⟩
  | cons w ws ih =>
    rw [Token.place] at h
    rcases mem_cons.mp h with rfl | h
    · obtain ⟨b, bs, n, hb, ht⟩ := hw w mem_cons_self
      refine ⟨fun hk => ?_, fun hk => ?_, fun _ => by simp [ht]⟩
      · grind [Token.name, Scan.isName_of_word]
      · grind [Scan.operator_bytes_of_word]
    · exact ih (fun v hv => hw v (mem_cons_of_mem w hv)) h

theorem lexemes_scanned (s : Bytes) :
    ∀ w ∈ lexemes s, ∃ b bs n, Scan.word b bs = (w.kind, n) ∧ w.text = b :: bs.take n := by
  fun_induction lexemes s with
  | case1 => simp
  | case2 b bs kind n h ih => grind

theorem isSpelled_of_mem_tokens {s : Source} (h : t ∈ s.tokens) : t.IsSpelled :=
  isSpelled_of_mem_place (lexemes_scanned s.code) h

end Parlance
