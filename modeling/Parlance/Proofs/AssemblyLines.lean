import Parlance.Instruction.Assembly
import Parlance.Instruction.Reading
import Parlance.Proofs.NumberTexts
import Parlance.Proofs.Quotation
import Parlance.Proofs.WireRoundTrip
/-!
Lines of assembly: words with blanks between them, and the operands that they stand for.
-/
namespace Parlance

namespace Instruction

mutual

def isSpeakable : Instruction → Bool
  | constCharacter c => decide c.toNat.isValidChar
  | constF32 bits => Binary.decode .single bits.toNat != .nan
  | constF64 bits => Binary.decode .double bits.toNat != .nan
  | loadLazy _ body => areSpeakable body
  | _ => true

def areSpeakable : List Instruction → Bool
  | [] => true
  | i :: is => isSpeakable i && areSpeakable is

end

mutual

theorem isProper_of_isSpeakable {i : Instruction} (h : i.isSpeakable) : i.isProper := by
  cases i with
  | constCharacter c => grind [isSpeakable, isProper, UInt32.lt_iff_toNat_lt]
  | loadLazy arity body =>
    rw [isSpeakable] at h
    rw [isProper]
    exact areProper_of_areSpeakable h
  | constF32 bits | constF64 bits => exact h
  | _ => rfl

theorem areProper_of_areSpeakable {is : List Instruction} (h : areSpeakable is) : areProper is := by
  cases is with
  | nil => rfl
  | cons i is =>
    rw [areSpeakable, Bool.and_eq_true] at h
    rw [areProper, isProper_of_isSpeakable h.1, areProper_of_areSpeakable h.2]
    rfl

end

end Instruction

namespace Assembly

open List Spelling Utf8

/-! ### Words -/

/-- Words stand between blanks: they are plain, or in quotes. -/
inductive IsWord : Bytes → Prop
  | plain {w : Bytes} (hne : w ≠ [])
      (h : ∀ b ∈ w, isGap b = false ∧ isComment b = false ∧ b ≠ 34 ∧ b ≠ 39 ∧ b ≠ 10) : IsWord w
  | quoted {b : UInt8} {bs v : Bytes} (hb : b = 34 ∨ b = 39)
      (h : ∀ rest, Quoted.read? (b :: (bs ++ rest)) = some (v, rest)) (hline : 10 ∉ b :: bs) : IsWord (b :: bs)

variable {w : Bytes} {ws : List Bytes} {fuel : Nat} {line : Bytes} {s : String} {cs : List Char} {c : Char}
  {i : Instruction}

theorem IsWord.newline_notMem (h : IsWord w) : 10 ∉ w := by
  cases h with
  | plain _ h => exact fun hmem => (h 10 hmem).2.2.2.2 rfl
  | quoted _ _ hline => exact hline

theorem IsWord.ne_nil (h : IsWord w) : w ≠ [] := by
  cases h with
  | plain hne _ => exact hne
  | quoted => exact cons_ne_nil _ _

theorem wordsFrom_blank (fuel : Nat) (s : Bytes) : wordsFrom fuel (32 :: s) = wordsFrom fuel s := by
  cases fuel <;> rfl

theorem wordsFrom_word (h : IsWord w) {rest : Bytes} (hrest : rest = [] ∨ ∃ t, rest = 32 :: t)
    (hws : wordsFrom fuel rest = .ok ws) : wordsFrom (fuel + 1) (w ++ rest) = .ok (w :: ws) := by
  cases h with
  | plain hne h =>
    obtain ⟨b, bs, rfl⟩ := exists_cons_of_ne_nil hne
    obtain ⟨hgap, hcomment, h34, h39, -⟩ := h b mem_cons_self
    have hall : ∀ b' ∈ b :: bs, (!isGap b' && !isComment b') := fun b' hb' => by grind
    have htake : ((b :: bs) ++ rest).takeWhile (fun b => !isGap b && !isComment b) = b :: bs := by
      rw [takeWhile_append_of_pos hall]
      rcases hrest with rfl | ⟨t, rfl⟩ <;> simp [isGap]
    have hdrop : ((b :: bs) ++ rest).dropWhile (fun b => !isGap b && !isComment b) = rest := by
      rw [dropWhile_append_of_pos hall]
      rcases hrest with rfl | ⟨t, rfl⟩ <;> simp [isGap]
    have hskip : ((b :: bs) ++ rest).dropWhile isGap = (b :: bs) ++ rest := by simp [hgap]
    rw [cons_append] at hskip htake hdrop ⊢
    simp only [wordsFrom, hskip, hcomment, beq_false_of_ne h34, beq_false_of_ne h39, htake, hdrop, hws]
    rfl
  | @quoted b bs v hb h _ =>
    have hgap : isGap b = false := by rcases hb with rfl | rfl <;> rfl
    have hcomment : isComment b = false := by rcases hb with rfl | rfl <;> rfl
    have hquote : (b == 34 || b == 39) := by rcases hb with rfl | rfl <;> rfl
    rw [cons_append, wordsFrom, dropWhile_cons_of_neg (by simp [hgap])]
    simp only [hcomment, hquote, Bool.false_eq_true, if_false, if_true, h rest, hws]
    rw [length_append, show bs.length + rest.length + 1 - rest.length = (b :: bs).length by simp; omega,
      ← cons_append, take_left]
    rfl

theorem wordsFrom_join (h : ∀ w ∈ ws, IsWord w) (hf : ws.length < fuel) (k : Nat) :
    wordsFrom fuel (List.replicate k 32 ++ [32].intercalate ws) = .ok ws := by
  induction k with
  | succ k ih => rw [replicate_succ, cons_append, wordsFrom_blank, ih]
  | zero =>
    rw [replicate_zero, nil_append]
    induction ws generalizing fuel with
    | nil =>
      obtain ⟨fuel, rfl⟩ := Nat.exists_eq_add_one.mpr hf
      rfl
    | cons w ws ih =>
      obtain ⟨hw, hws⟩ := forall_mem_cons.mp h
      obtain ⟨fuel, rfl⟩ := Nat.exists_eq_add_one.mpr (Nat.zero_lt_of_lt hf)
      have hrest := ih hws (Nat.lt_of_succ_lt_succ hf)
      cases ws with
      | nil =>
        have hword := wordsFrom_word hw (.inl rfl) hrest
        simp_all
      | cons w' ws => grind [intercalate_cons_cons, wordsFrom_word, wordsFrom_blank]

theorem length_le_intercalate (h : ∀ w ∈ ws, IsWord w) : ws.length ≤ ([32].intercalate ws).length := by
  induction ws with
  | nil => exact Nat.zero_le _
  | cons w ws ih =>
    obtain ⟨hw, hws⟩ := forall_mem_cons.mp h
    have hlen := length_pos_iff.mpr hw.ne_nil
    have hrest := ih hws
    cases ws with
    | nil => rwa [intercalate_singleton]
    | cons w' ws => grind [intercalate_cons_cons]

def IsLine (ws : List Bytes) (line : Bytes) : Prop := ∃ k, line = List.replicate k 32 ++ [32].intercalate ws

theorem words_line (hline : IsLine ws line) (h : ∀ w ∈ ws, IsWord w) : words line = .ok ws := by
  obtain ⟨k, rfl⟩ := hline
  refine wordsFrom_join h ?_ k
  grind [length_le_intercalate]

theorem newline_notMem_line (hline : IsLine ws line) (h : ∀ w ∈ ws, IsWord w) : 10 ∉ line := by
  obtain ⟨k, rfl⟩ := hline
  have hjoin : 10 ∉ [32].intercalate ws := by
    induction ws with
    | nil => exact not_mem_nil
    | cons w ws ih =>
      obtain ⟨hw, hws⟩ := forall_mem_cons.mp h
      cases ws with
      | nil =>
        rw [intercalate_singleton]
        exact hw.newline_notMem
      | cons w' ws =>
        rw [intercalate_cons_cons]
        simp only [mem_append, mem_singleton, not_or]
        exact ⟨⟨hw.newline_notMem, by decide⟩, ih hws⟩
  grind

theorem ofString_intercalate (sep : String) (ss : List String) :
    Bytes.ofString (sep.intercalate ss) = (Bytes.ofString sep).intercalate (ss.map Bytes.ofString) := by
  rw [Bytes.ofString, encode, String.toList_intercalate]
  induction ss with
  | nil => rfl
  | cons s ss ih =>
    cases ss with
    | nil => simp [Bytes.ofString, encode]
    | cons t ss =>
      simp only [map_cons, intercalate_cons_cons, flatMap_append] at ih ⊢
      rw [ih]
      rfl

theorem isLine_words {indent : String} (h : indent = "" ∨ indent = "  ") (name : String) (operands : List String) :
    IsLine ((name :: operands).map Bytes.ofString) (Bytes.ofString (indent ++ Instruction.words name operands)) := by
  rw [IsLine, ofString_append, Instruction.words, ofString_intercalate]
  rcases h with rfl | rfl
  · exact ⟨0, rfl⟩
  · exact ⟨2, rfl⟩

/-! ### Words that are written -/

def IsPlain (c : Char) : Prop := 33 ≤ c.toNat ∧ c.toNat < 127 ∧ c.toNat ∉ [34, 39, 59]

instance : DecidablePred IsPlain := fun c =>
  inferInstanceAs (Decidable (33 ≤ c.toNat ∧ c.toNat < 127 ∧ c.toNat ∉ [34, 39, 59]))

theorem isWord_plain (hne : s.toList ≠ []) (h : ∀ c ∈ s.toList, IsPlain c) : IsWord (Bytes.ofString s) := by
  have hbytes : Bytes.ofString s = s.toList.map fun c => c.toNat.toUInt8 :=
    encode_ascii fun c hc => by
      have := (h c hc).2.1
      omega
  refine .plain (by simpa [hbytes] using hne) fun b hb => ?_
  rw [hbytes] at hb
  obtain ⟨c, hc, rfl⟩ := mem_map.mp hb
  obtain ⟨hlow, hhigh, hspecial⟩ := h c hc
  simp only [mem_cons, not_mem_nil, or_false, not_or] at hspecial
  have hne (b : UInt8) (hb : c.toNat ≠ b.toNat) : c.toNat.toUInt8 ≠ b := by rwa [ne_eq, toUInt8_eq (by omega)]
  simp only [isGap, isComment, Bool.or_eq_false_iff, beq_eq_false_iff_ne]
  refine ⟨⟨⟨hne _ ?_, hne _ ?_⟩, hne _ ?_⟩, hne _ ?_, hne _ ?_, hne _ ?_, hne _ ?_⟩ <;>
    simp only [UInt8.reduceToNat] <;> omega

theorem isPlain_of_all (h : cs.all (fun c => decide (IsPlain c))) : ∀ c ∈ cs, IsPlain c :=
  fun c hc => of_decide_eq_true (all_eq_true.mp h c hc)

theorem isPlain_of_isDigit (h : IsDigit c) : IsPlain c := by
  obtain ⟨h1, h2⟩ := h
  refine ⟨by omega, by omega, ?_⟩
  simp only [mem_cons, not_mem_nil, or_false, not_or]
  omega

theorem isPlain_hex (h : Reading.IsHex cs) (hc : c ∈ cs) : IsPlain c := by
  have hall : ∀ n < 16, IsPlain (Hex.upperDigit n) := by decide
  obtain ⟨n, hn, rfl⟩ := h c hc
  exact hall n hn

theorem isWord_id (id : UInt64) : IsWord (Bytes.ofString (Instruction.idText id)) := by
  obtain ⟨hhex, -, -⟩ := Reading.hex_shortest id.toNat
  have htext : (Instruction.idText id).toList = ['#'] ++ Hex.shortest Hex.upperDigit id.toNat := by
    simp [Instruction.idText]
  refine isWord_plain ?_ ?_ <;> rw [htext]
  · exact append_ne_nil_of_left_ne_nil (by decide) _
  · intro c hc
    rcases mem_append.mp hc with hc | hc
    · obtain rfl := mem_singleton.mp hc
      decide
    · exact isPlain_hex hhex hc

theorem isWord_hash (hash : UInt64) : IsWord (Bytes.ofString (Instruction.hashText hash)) := by
  obtain ⟨hhex, -⟩ := Reading.hex_fixed 16 hash.toNat
  refine isWord_plain ?_ ?_ <;> rw [Instruction.hashText, Hex.upper, String.toList_ofList]
  · simp [Hex.fixed]
  · exact fun c hc => isPlain_hex hhex hc

theorem isWord_natural (n : Nat) : IsWord (Bytes.ofString (toString n)) :=
  isWord_plain (natural_ne_nil n) fun _ hc => isPlain_of_isDigit (isDigit_natural hc)

theorem int_chars (v : Int) : (toString v).toList ≠ [] ∧ ∀ c ∈ (toString v).toList, IsPlain c := by
  rw [toString_int]
  split
  · rw [String.toList_append]
    refine ⟨append_ne_nil_of_left_ne_nil (by decide) _, fun c hc => ?_⟩
    rcases mem_append.mp hc with hc | hc
    · obtain rfl := mem_singleton.mp hc
      decide
    · exact isPlain_of_isDigit (isDigit_natural hc)
  · grind [natural_ne_nil, isPlain_of_isDigit, isDigit_natural]

theorem isWord_rational (r : Rat) : IsWord (Bytes.ofString (Rational.render r)) := by
  obtain ⟨hne, hplain⟩ := int_chars r.num
  by_cases hden : r.den = 1
  · grind [Rational.render, isWord_plain]
  · refine isWord_plain ?_ ?_ <;> rw [Reading.toList_fraction hden]
    · exact append_ne_nil_of_left_ne_nil hne _
    · intro c hc
      rcases mem_append.mp hc with hc | hc
      · exact hplain c hc
      · rcases mem_cons.mp hc with rfl | hc
        · decide
        · exact isPlain_of_isDigit (isDigit_natural hc)

theorem isWord_binary (w : Binary.Width) (bits : Nat) : IsWord (Bytes.ofString (Binary.render w bits)) := by
  cases h : Binary.decode w bits with
  | nan =>
    have htext : Binary.render w bits = "NaN" := by rw [Binary.render, h]
    rw [htext]
    exact isWord_plain (by decide) (isPlain_of_all (by decide))
  | infinite negative =>
    have htext : Binary.render w bits = if negative then "-Inf" else "+Inf" := by rw [Binary.render, h]
    rw [htext]
    cases negative <;> exact isWord_plain (by decide) (isPlain_of_all (by decide))
  | finite negative m e =>
    obtain ⟨l, hl, -, htext, -⟩ := Reading.render_finite h
    have hall : ∀ c ∈ ['.', 'e', '+', '-'], IsPlain c := isPlain_of_all (by decide)
    refine isWord_plain ?_ ?_ <;> rw [htext, String.toList_ofList]
    · refine append_ne_nil_of_right_ne_nil _ ?_
      exact append_ne_nil_of_left_ne_nil hl.whole.2 _
    · grind [Reading.Layout.mem_text, isPlain_of_isDigit]

theorem isWord_quoted {v : Bytes} {q : Char} (hs : s.toList = q :: cs)
    (hq : Quoted.IsQuote q) (hread : ∀ rest, Quoted.read? (Bytes.ofString s ++ rest) = some (v, rest))
    (hline : '\n' ∉ s.toList) : IsWord (Bytes.ofString s) := by
  have hnewline := newline_notMem_ofString hline
  have hbytes : ∃ b bs, (b = 34 ∨ b = 39) ∧ Bytes.ofString s = b :: bs := by
    rcases hq with rfl | rfl
    · simp_all [encodeChar, Bytes.ofString, encode]
    · simp_all [encodeChar, Bytes.ofString, encode]
  obtain ⟨b, bs, hb, hbs⟩ := hbytes
  rw [hbs] at hread hnewline ⊢
  exact .quoted hb hread hnewline

theorem isWord_write (s : Bytes) : IsWord (Bytes.ofString (Quoted.write s)) :=
  isWord_quoted (String.toList_ofList ..) (.inl rfl) (Quoted.read?_write s) (Quoted.newline_notMem_write s)

theorem isWord_writeChar {code : Nat} (h : code.isValidChar) : IsWord (Bytes.ofString (Quoted.writeChar code)) :=
  isWord_quoted (String.toList_ofList ..) (.inr rfl) (Quoted.read?_writeChar h) (Quoted.newline_notMem_writeChar code)

/-! ### Operands -/

theorem id_text (n : UInt64) : id (Bytes.ofString (Instruction.idText n)) = .ok n := by
  obtain ⟨hhex, hworth, hne⟩ := Reading.hex_shortest n.toNat
  have htext : Bytes.ofString (Instruction.idText n) =
      35 :: Bytes.ofString (String.ofList (Hex.shortest Hex.upperDigit n.toNat)) := by
    rw [Instruction.idText, ofString_append]
    rfl
  rw [htext, id, natural, toString_ofString, Reading.natural_hex hhex hne hworth n.toNat_lt]
  simp

theorem hash_text (n : UInt64) : hash (Bytes.ofString (Instruction.hashText n)) = .ok n := by
  obtain ⟨hhex, hworth⟩ := Reading.hex_fixed 16 n.toNat
  rw [Nat.mod_eq_of_lt (show n.toNat < 16 ^ 16 from n.toNat_lt)] at hworth
  rw [hash, natural, toString_ofString, Instruction.hashText, Hex.upper,
    Reading.natural_hex hhex (by simp [Hex.fixed]) hworth n.toNat_lt]
  simp

theorem index_text (n : UInt16) : index (Bytes.ofString (toString n.toNat)) = .ok n := by
  rw [index, natural, toString_ofString, Reading.natural_decimal n.toNat_lt]
  simp

theorem position_text (n : UInt32) : position (Bytes.ofString (toString n.toNat)) = .ok n := by
  rw [position, natural, toString_ofString, Reading.natural_decimal n.toNat_lt]
  simp

theorem text_write (s : Bytes) : text (Bytes.ofString (Quoted.write s)) = .ok s := by
  rw [text, Quoted.value?_write]

theorem binary_text {w : Binary.Width} {bits : Nat} (hlt : bits < 2 * Binary.signBit w)
    (hnan : Binary.decode w bits ≠ .nan) : binary w (Bytes.ofString (Binary.render w bits)) = .ok bits := by
  rw [binary, toString_ofString, Reading.binary_render hlt hnan]

theorem native_name (n : Native) : Native.ofName? n.name = some n := by
  cases n <;> decide +kernel

theorem instruction_operands (body : Bytes → Except Error (List Instruction)) (line : Nat)
    (h : i.isSpeakable) (hl : i.op ≠ .loadLazy) :
    instruction body line i.op (i.operandTexts.map Bytes.ofString) = .ok i := by
  cases i with
  | loadLazy => exact absurd rfl hl
  | constCharacter c =>
    rw [Instruction.isSpeakable, decide_eq_true_eq] at h
    have hread : text (Bytes.ofString (Quoted.writeChar c.toNat)) = .ok (encodeChar (Char.ofNat c.toNat)) := by
      rw [text, Quoted.value?_writeChar h]
    have hchars : chars (encodeChar (Char.ofNat c.toNat)) = [Char.ofNat c.toNat] := by
      have hone := chars_encode [Char.ofNat c.toNat]
      rwa [flatMap_singleton] at hone
    have hval : (Char.ofNat c.toNat).val = c := UInt32.toNat_inj.mp (toNat_ofNat h)
    simp only [Instruction.operandTexts, Instruction.op, map_cons, map_nil, instruction, hread, bind,
      Except.bind, hchars, hval]
    rfl
  | constF32 bits =>
    rw [Instruction.isSpeakable, bne_iff_ne] at h
    have hread := binary_text (show bits.toNat < 2 * Binary.signBit .single from bits.toNat_lt) h
    simp_all [Instruction.operandTexts, Instruction.op, instruction]
  | constF64 bits =>
    rw [Instruction.isSpeakable, bne_iff_ne] at h
    have hread := binary_text (show bits.toNat < 2 * Binary.signBit .double from bits.toNat_lt) h
    simp_all [Instruction.operandTexts, Instruction.op, instruction]
  | _ =>
    simp only [Instruction.operandTexts, Instruction.op, map_cons, map_nil, instruction, id_text, hash_text,
      index_text, position_text, text_write, native_name, toString_ofString, Reading.integer?_toString,
      Reading.rational?_render]
    rfl

theorem isWord_operands (h : i.isSpeakable) : ∀ s ∈ i.operandTexts, IsWord (Bytes.ofString s) := by
  have hnative (n : Native) : IsWord (Bytes.ofString n.name) := by
    cases n <;> exact isWord_plain (by decide) (isPlain_of_all (by decide))
  have hint (v : Int) : IsWord (Bytes.ofString (toString v)) := isWord_plain (int_chars v).1 (int_chars v).2
  cases i with
  | constCharacter c => grind [Instruction.isSpeakable, Instruction.operandTexts, isWord_writeChar]
  | _ =>
    simp only [Instruction.operandTexts, forall_mem_cons, isWord_id, isWord_hash, isWord_natural, isWord_write,
      isWord_binary, isWord_rational, hnative, hint, true_and]
    nofun

end Assembly

end Parlance
