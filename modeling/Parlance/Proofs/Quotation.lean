import Parlance.Proofs.Spelling
/-!
Quoted texts are read back, whatever bytes they hold. No line ends within quotes.
-/
open List

namespace Parlance

namespace Utf8

variable {b : UInt8} {n : Nat}

theorem newline_notMem_ofString {s : String} (h : '\n' ∉ s.toList) : 10 ∉ Bytes.ofString s := by
  intro hmem
  obtain ⟨c, hc, hb⟩ := mem_flatMap.mp hmem
  have hcode := (eq_of_mem_encodeChar hb (by decide)).2
  have hline : c = '\n' := by rw [← Char.ofNat_toNat c, hcode]; rfl
  exact h (hline ▸ hc)

end Utf8

namespace Quoted

variable {n : Nat} {c quote : Char} {cs : List Char} {w code : Nat} {x : Char} {s : Bytes}

open Utf8

/-! ### Escapes -/

theorem value?_lowerDigit (h : n < 16) :
    (Hex.lowerDigit n).toNat < 0x80 ∧ Hex.lowerDigit n ≠ '\n' ∧ Hex.value? (Hex.lowerDigit n) = some n := by
  have hall : ∀ n < 16, (Hex.lowerDigit n).toNat < 0x80 ∧ Hex.lowerDigit n ≠ '\n' ∧
      Hex.value? (Hex.lowerDigit n) = some n := by decide
  exact hall n h

theorem mem_fixed (h : c ∈ Hex.fixed Hex.lowerDigit w n) : c.toNat < 0x80 ∧ c ≠ '\n' := by
  induction w generalizing n with
  | zero => cases h
  | succ w ih =>
    rcases mem_append.mp h with h | h
    · exact ih h
    · grind [value?_lowerDigit]

theorem length_fixed (w n : Nat) : (Hex.fixed Hex.lowerDigit w n).length = w := by
  induction w generalizing n with
  | zero => rfl
  | succ w ih => rw [Hex.fixed, length_append, ih, length_singleton]

theorem ofNat_toNat_toUInt8 (h : c.toNat < 0x80) : Char.ofNat c.toNat.toUInt8.toNat = c := by
  rw [toNat_toUInt8 (by omega), Char.ofNat_toNat]

theorem readHex_fixed (w n : Nat) (rest : Bytes) :
    readHex w ((Hex.fixed Hex.lowerDigit w n).flatMap encodeChar ++ rest) = some (n % 16 ^ w, rest) := by
  have hbytes := encode_ascii fun c (hc : c ∈ Hex.fixed Hex.lowerDigit w n) => (mem_fixed hc).1
  have hlen : ((Hex.fixed Hex.lowerDigit w n).map fun c => c.toNat.toUInt8).length = w := by
    rw [length_map, length_fixed]
  have hfold : ((Hex.fixed Hex.lowerDigit w n).map fun c => c.toNat.toUInt8).foldlM
      (fun v b => (Hex.value? (Char.ofNat b.toNat)).map (v * 16 + ·)) 0 = some (n % 16 ^ w) := by
    clear hbytes hlen
    induction w generalizing n with
    | zero => simp [Hex.fixed, Nat.mod_one]
    | succ w ih =>
      obtain ⟨hascii, -, hvalue⟩ := value?_lowerDigit (Nat.mod_lt n (by decide : 0 < 16))
      rw [Hex.fixed, map_append, foldlM_append, ih]
      simp only [map_cons, map_nil, foldlM_cons, foldlM_nil, Option.bind_eq_bind, Option.bind_some,
        ofNat_toNat_toUInt8 hascii, hvalue, Option.map_some, pure]
      rw [Nat.pow_succ', Nat.mod_mul]
      congr 1
      omega
  grind [readHex]

/-- One unit of a quoted text: the bytes `t` between the quotes stand for `v`. -/
def Spells (quote : UInt8) (t v : Bytes) : Prop :=
  ∃ b bs p, t = b :: bs ∧ b ≠ quote ∧ p.bytes = v ∧ ∀ rest, readPiece quote b (bs ++ rest) = some (p, rest)

def IsQuote (quote : Char) : Prop := quote = '"' ∨ quote = '\''

theorem spells_escape (hq : IsQuote quote) {p : Piece}
    (h : ∀ rest, readEscape quote.toNat.toUInt8 (cs.flatMap encodeChar ++ rest) = some (p, rest)) :
    Spells quote.toNat.toUInt8 (('\\' :: cs).flatMap encodeChar) p.bytes := by
  refine ⟨92, cs.flatMap encodeChar, p, rfl, ?_, rfl, fun rest => ?_⟩
  · rcases hq with rfl | rfl <;> decide
  · rcases hq with rfl | rfl <;> exact h rest

theorem spells_hex (hq : IsQuote quote) (h : n < 256) :
    Spells quote.toNat.toUInt8 (('\\' :: 'x' :: Hex.fixed Hex.lowerDigit 2 n).flatMap encodeChar) [n.toUInt8] := by
  refine spells_escape (p := .byte n.toUInt8) hq fun rest => ?_
  have hread := readHex_fixed 2 n rest
  rw [Nat.mod_eq_of_lt (by omega)] at hread
  exact congrArg (Option.map _) hread

theorem spells_unicode (hq : IsQuote quote) (c : Char)
    (hx : x = 'u' ∧ w = 4 ∨ x = 'U' ∧ w = 8) (hc : c.toNat < 16 ^ w) :
    Spells quote.toNat.toUInt8 (('\\' :: x :: Hex.fixed Hex.lowerDigit w c.toNat).flatMap encodeChar)
      (encodeChar c) := by
  refine spells_escape (p := .char c) hq fun rest => ?_
  have hread := readHex_fixed w c.toNat rest
  rw [Nat.mod_eq_of_lt hc] at hread
  have hbind : (some (c.toNat, rest)).bind (fun r =>
      if r.1.isValidChar then some (Piece.char (Char.ofNat r.1), r.2) else none) = some (.char c, rest) := by
    have hvalid : c.toNat.isValidChar := c.valid
    simp only [Option.bind_some, hvalid, if_true, Char.ofNat_toNat]
  rw [← hread] at hbind
  rcases hx with ⟨rfl, rfl⟩ | ⟨rfl, rfl⟩ <;> exact hbind

theorem toUInt8_inj {d : Char} (hc : c.toNat < 0x80) (hd : d.toNat < 0x80) (h : c.toNat.toUInt8 = d.toNat.toUInt8) :
    c = d := by
  rw [← ofNat_toNat_toUInt8 hc, h, ofNat_toNat_toUInt8 hd]

theorem spells_printable (hq : IsQuote quote) (hne : ¬ (c = quote ∨ c = '\\'))
    (hp : Text.isPrintable c) : Spells quote.toNat.toUInt8 (encodeChar c) (encodeChar c) := by
  obtain ⟨hquote, hslash⟩ := not_or.mp hne
  have hqlt : quote.toNat < 0x80 := by rcases hq with rfl | rfl <;> decide
  by_cases hc : c.toNat < 0x80
  · have hbytes : encodeChar c = [c.toNat.toUInt8] := by rw [encodeChar]; simp only [hc, if_true]
    have hne (d : Char) (hd : d.toNat < 0x80) (hcd : c ≠ d) : c.toNat.toUInt8 ≠ d.toNat.toUInt8 :=
      fun h => hcd (toUInt8_inj hc hd h)
    have hline : c ≠ '\n' := by
      rintro rfl
      exact absurd hp (by decide)
    refine ⟨c.toNat.toUInt8, [], .byte c.toNat.toUInt8, hbytes, hne quote hqlt hquote, hbytes.symm, fun rest => ?_⟩
    have hescape : c.toNat.toUInt8 ≠ 92 := hne '\\' (by decide) hslash
    rw [readPiece, if_neg, if_neg, if_neg hescape, List.nil_append]
    · grind [le_toUInt8]
    · simpa using ⟨hne quote hqlt hquote, hne '\n' (by decide) hline⟩
  · obtain ⟨b, bs, hbytes, -⟩ := decodeFrom_encodeChar c []
    have hb : 0x80 ≤ b := by
      refine UInt8.not_lt.mp fun hb => hc ?_
      rw [(eq_of_mem_encodeChar (hbytes ▸ List.mem_cons_self : b ∈ encodeChar c) hb).2]
      exact hb
    have hne {d : UInt8} (hd : d < 0x80) : b ≠ d := by
      rintro rfl
      exact absurd hd (UInt8.not_lt.mpr hb)
    have hquote8 : quote.toNat.toUInt8 < 0x80 := (toUInt8_lt (by omega) _).mpr hqlt
    refine ⟨b, bs, .char c, hbytes, hne hquote8, rfl, fun rest => ?_⟩
    obtain ⟨b', bs', hbytes', hdecode⟩ := decodeFrom_encodeChar c rest
    grind [readPiece]

def controls : List (Nat × Char) := [(7, 'a'), (8, 'b'), (9, 't'), (10, 'n'), (11, 'v'), (12, 'f'), (13, 'r')]

theorem spells_control (hq : IsQuote quote) (h : (c.toNat, x) ∈ controls) :
    Spells quote.toNat.toUInt8 (['\\', x].flatMap encodeChar) (encodeChar c) := by
  have hall : ∀ e ∈ controls, encodeChar (Char.ofNat e.1) = [e.1.toUInt8] ∧ ∀ q rest,
      readEscape q ([e.2].flatMap encodeChar ++ rest) = some (.byte e.1.toUInt8, rest) := by
    simp only [controls, List.forall_mem_cons]
    exact ⟨⟨rfl, fun _ _ => rfl⟩, ⟨rfl, fun _ _ => rfl⟩, ⟨rfl, fun _ _ => rfl⟩, ⟨rfl, fun _ _ => rfl⟩,
      ⟨rfl, fun _ _ => rfl⟩, ⟨rfl, fun _ _ => rfl⟩, ⟨rfl, fun _ _ => rfl⟩, nofun⟩
  obtain ⟨hbytes, hread⟩ := hall _ h
  rw [Char.ofNat_toNat] at hbytes
  rw [hbytes]
  exact spells_escape hq (hread _)

theorem spells_escaped (hq : IsQuote quote) (c : Char) :
    Spells quote.toNat.toUInt8 ((escaped c quote).flatMap encodeChar) (encodeChar c) := by
  unfold escaped
  simp only [Bool.or_eq_true, decide_eq_true_eq]
  split
  · rename_i h
    have hself : ∀ rest, readEscape quote.toNat.toUInt8 ([c].flatMap encodeChar ++ rest) =
        some (.byte c.toNat.toUInt8, rest) := by
      intro rest
      rcases hq with rfl | rfl <;> rcases h with rfl | rfl <;> rfl
    have hbytes : encodeChar c = [c.toNat.toUInt8] := by
      rcases hq with rfl | rfl <;> rcases h with rfl | rfl <;> rfl
    rw [hbytes]
    exact spells_escape hq hself
  · rename_i hne
    split
    · grind [spells_printable]
    · have hvalid : c.toNat < 0xd800 ∨ 0xdfff < c.toNat ∧ c.toNat < 0x110000 := c.valid
      split
      case h_8 =>
        grind [encodeChar, spells_hex, spells_unicode]
      all_goals
        rename_i hn
        exact spells_control hq (by rw [hn]; decide)

/-! ### Texts between quotes -/

theorem body_skip (quote : Char) (skip : Nat) (s : Bytes) : body quote skip s = body quote 0 (s.drop skip) := by
  induction s generalizing skip with
  | nil => cases skip <;> rfl
  | cons b bs ih =>
    cases skip with
    | zero => rfl
    | succ skip => exact ih skip

/-- Characters that stand for a text unit by unit. -/
inductive Units (quote : Char) : List Char → Bytes → Prop
  | nil : Units quote [] []
  | cons {cs ds : List Char} {v s : Bytes} (h : Spells quote.toNat.toUInt8 (cs.flatMap encodeChar) v)
      (hline : '\n' ∉ cs) (rest : Units quote ds s) : Units quote (cs ++ ds) (v ++ s)

theorem newline_notMem_escaped (hq : IsQuote quote) (c : Char) : '\n' ∉ escaped c quote := by
  have hquote : '\n' ≠ quote := by rcases hq with rfl | rfl <;> decide
  have hhex {w n : Nat} : '\n' ∉ Hex.fixed Hex.lowerDigit w n := fun h => (mem_fixed h).2 rfl
  unfold escaped
  split
  · grind
  split
  · rename_i hp
    rw [List.mem_singleton]
    rintro rfl
    exact absurd hp (by decide)
  grind

theorem units_body (hq : IsQuote quote) (s : Bytes) : Units quote (body quote 0 s) s := by
  induction hn : s.length using Nat.strongRecOn generalizing s with
  | ind n ih =>
    cases s with
    | nil => exact .nil
    | cons b bs =>
      rw [body]
      simp only [Bool.and_eq_true, decide_eq_true_eq]
      split
      · have hspells := spells_hex hq b.toNat_lt
        rw [toUInt8_toNat] at hspells
        have hrest := ih bs.length (by simp at hn; omega) bs rfl
        exact .cons (v := [b]) hspells (by simpa using fun h => (mem_fixed h).2 rfl) hrest
      · rename_i hstray
        obtain ⟨hle, hbytes⟩ := encodeChar_decodeFrom (Prod.mk.eta (p := decodeFrom b bs)).symm hstray
        rw [body_skip]
        have hparts : b :: bs = encodeChar (decodeFrom b bs).1 ++ bs.drop (decodeFrom b bs).2 := by
          rw [hbytes, List.cons_append, List.take_append_drop]
        rw [hparts]
        exact .cons (spells_escaped hq _) (newline_notMem_escaped hq _)
          (ih _ (by rw [List.length_drop]; simp at hn; omega) _ rfl)

theorem Units.newline_notMem (h : Units quote cs s) : '\n' ∉ cs := by
  induction h with
  | nil => exact List.not_mem_nil
  | cons _ hline _ ih => exact fun h => (List.mem_append.mp h).elim hline ih

theorem readPieces_units (h : Units '"' cs s) {fuel : Nat}
    (hfuel : (cs.flatMap encodeChar).length < fuel) (rest : Bytes) : ∃ ps,
    readPieces 34 fuel (cs.flatMap encodeChar ++ 34 :: rest) = some (ps, rest) ∧ ps.flatMap Piece.bytes = s := by
  induction h generalizing fuel with
  | nil =>
    obtain ⟨fuel, rfl⟩ : ∃ f, fuel = f + 1 := Nat.exists_eq_add_one.mpr hfuel
    exact ⟨[], rfl, rfl⟩
  | @cons cs ds v s hspells _ _ ih =>
    obtain ⟨b, bs, p, hbytes, hne, rfl, hread⟩ := hspells
    rw [flatMap_append, hbytes, cons_append, length_cons, length_append] at hfuel
    obtain ⟨fuel, rfl⟩ : ∃ f, fuel = f + 1 := ⟨fuel - 1, by omega⟩
    obtain ⟨ps, hps, rfl⟩ := ih (show (ds.flatMap encodeChar).length < fuel by omega)
    refine ⟨p :: ps, ?_, flatMap_cons⟩
    have hpiece : readPiece 34 b (bs ++ (ds.flatMap encodeChar ++ 34 :: rest)) = _ := hread _
    grind [readPieces]

theorem read?_write (s rest : Bytes) : read? (Bytes.ofString (write s) ++ rest) = some (s, rest) := by
  have hbytes : Bytes.ofString (write s) = 34 :: ((body '"' 0 s).flatMap encodeChar ++ [34]) := by
    rw [write, Bytes.ofString, encode, String.toList_ofList]
    simp only [List.cons_append, List.flatMap_cons, List.flatMap_append, List.flatMap_nil, List.append_nil]
    rfl
  have hfuel : ((body '"' 0 s).flatMap encodeChar).length <
      ((body '"' 0 s).flatMap encodeChar ++ [34] ++ rest).length + 1 := by
    simp only [List.length_append]
    omega
  obtain ⟨ps, hps, hvalue⟩ := readPieces_units (units_body (.inl rfl) s) hfuel rest
  grind [read?]

theorem value?_write (s : Bytes) : value? (Bytes.ofString (write s)) = some s := by
  have h := read?_write s []
  rw [List.append_nil] at h
  rw [value?, h]

theorem read?_writeChar (h : code.isValidChar) (rest : Bytes) :
    read? (Bytes.ofString (writeChar code) ++ rest) = some (encodeChar (Char.ofNat code), rest) := by
  have hchar : charOf code = Char.ofNat code := if_pos h
  obtain ⟨b, bs, p, hunit, hne, hp, hread⟩ := spells_escaped (.inr rfl : IsQuote '\'') (Char.ofNat code)
  have hbytes : Bytes.ofString (writeChar code) = 39 :: (b :: (bs ++ [39])) := by
    rw [writeChar, hchar, Bytes.ofString, encode, String.toList_ofList]
    simp only [List.cons_append, List.flatMap_cons, List.flatMap_append, List.flatMap_nil, List.append_nil, hunit]
    rfl
  have hpiece : readPiece 39 b (bs ++ 39 :: rest) = some (p, 39 :: rest) := hread _
  have hquote : b ≠ 39 := hne
  rw [hbytes, List.cons_append, List.cons_append, read?, if_pos (by decide), readPieces, if_neg hquote,
    List.append_assoc,
    List.singleton_append, hpiece]
  grind

theorem value?_writeChar (h : code.isValidChar) :
    value? (Bytes.ofString (writeChar code)) = some (encodeChar (Char.ofNat code)) := by
  have hread := read?_writeChar h []
  rw [List.append_nil] at hread
  rw [value?, hread]

theorem newline_notMem_write (s : Bytes) : '\n' ∉ (write s).toList := by
  have hbody := (units_body (.inl rfl : IsQuote '"') s).newline_notMem
  simp [write, hbody]

theorem newline_notMem_writeChar (code : Nat) : '\n' ∉ (writeChar code).toList := by
  have hbody := newline_notMem_escaped (.inr rfl : IsQuote '\'') (charOf code)
  simp [writeChar, hbody]

end Quoted

end Parlance
