import Mathlib.Logic.Basic
import Mathlib.Tactic.ByContra
import Parlance.Text.Utf8
/-!
Characters spelled out. A character is read from its bytes whatever follows them, and what is not read as a
stray byte is spelled by the bytes it was read from.
-/
open List

namespace Parlance.Utf8

variable {b : UInt8} {n m : Nat} {bs : Bytes} {c : Char}

theorem toNat_toUInt8 (h : n < 256) : n.toUInt8.toNat = n := by
  simp [Nat.toUInt8, UInt8.toNat_ofNat', Nat.mod_eq_of_lt h]

theorem toUInt8_toNat (b : UInt8) : b.toNat.toUInt8 = b := by simp [Nat.toUInt8]

theorem toUInt8_of_eq (h : n = b.toNat) : n.toUInt8 = b := h ▸ toUInt8_toNat b

theorem isContinuation_iff : isContinuation b ↔ 0x80 ≤ b.toNat ∧ b.toNat < 0xc0 := by
  simp only [isContinuation, Bool.and_eq_true, decide_eq_true_eq, UInt8.le_iff_toNat_le, UInt8.reduceToNat]
  omega

theorem toNat_ofNat (h : n < 0xd800 ∨ 0xdfff < n ∧ n < 0x110000) : (Char.ofNat n).toNat = n := by
  rw [Char.ofNat, dif_pos h]
  rfl

theorem toNat_trail (n : Nat) : (0x80 + n % 64).toUInt8.toNat = 0x80 + n % 64 := toNat_toUInt8 (by omega)

theorem decodeFrom_encodeChar (c : Char) (rest : Bytes) :
    ∃ b bs, encodeChar c = b :: bs ∧ decodeFrom b (bs ++ rest) = (c, bs.length) := by
  have hvalid : c.toNat < 0xd800 ∨ 0xdfff < c.toNat ∧ c.toNat < 0x110000 := c.valid
  have hback {k l : Nat} (h : k = c.toNat) : (Char.ofNat k, l) = (c, l) := by rw [h, Char.ofNat_toNat]
  unfold encodeChar
  generalize c.toNat = n at hvalid hback
  have hlead {k : Nat} (h : k < 256) := toNat_toUInt8 h
  simp only
  -- the first byte tells how many there are, and the conditions on the second one are met by valid characters
  split
  · refine ⟨_, _, rfl, ?_⟩
    simp only [decodeFrom, nil_append, UInt8.lt_iff_toNat_lt, hlead (show n < 256 by omega), UInt8.reduceToNat]
    rw [if_pos (by omega)]
    exact hback rfl
  split
  · refine ⟨_, _, rfl, ?_⟩
    simp only [decodeFrom, cons_append, UInt8.lt_iff_toNat_lt, isContinuation_iff, payload, UInt8.reduceToNat,
      hlead (show 0xc0 + n / 64 < 256 by omega), toNat_trail]
    rw [if_neg (by omega), if_neg (by omega), if_pos (by omega), if_pos (by omega)]
    exact hback (by omega)
  split
  · refine ⟨_, _, rfl, ?_⟩
    simp only [decodeFrom, cons_append, UInt8.lt_iff_toNat_lt, UInt8.le_iff_toNat_le, ← UInt8.toNat_inj,
      apply_ite UInt8.toNat, Bool.and_eq_true, decide_eq_true_eq, isContinuation_iff, payload, UInt8.reduceToNat,
      hlead (show 0xe0 + n / 4096 < 256 by omega), toNat_trail]
    rw [if_neg (by omega), if_neg (by omega), if_neg (by omega), if_pos (by omega),
      if_pos (by split <;> split <;> omega)]
    exact hback (by omega)
  · refine ⟨_, _, rfl, ?_⟩
    simp only [decodeFrom, cons_append, UInt8.lt_iff_toNat_lt, UInt8.le_iff_toNat_le, ← UInt8.toNat_inj,
      apply_ite UInt8.toNat, Bool.and_eq_true, decide_eq_true_eq, isContinuation_iff, payload, UInt8.reduceToNat,
      hlead (show 0xf0 + n / 262144 < 256 by omega), toNat_trail]
    rw [if_neg (by omega), if_neg (by omega), if_neg (by omega), if_neg (by omega), if_pos (by omega),
      if_pos (by split <;> split <;> omega)]
    exact hback (by omega)

/-- What is not read as a stray byte is spelled by the bytes that it is read from. -/
theorem encodeChar_decodeFrom (h : decodeFrom b bs = (c, n)) (hstray : ¬ (c = replacement ∧ n = 0)) :
    n ≤ bs.length ∧ encodeChar c = b :: bs.take n := by
  have hlt := b.toNat_lt
  simp only [decodeFrom, UInt8.lt_iff_toNat_lt, UInt8.le_iff_toNat_le, ← UInt8.toNat_inj, apply_ite UInt8.toNat,
    Bool.and_eq_true, decide_eq_true_eq, isContinuation_iff, UInt8.reduceToNat] at h
  have hstop (hr : (replacement, 0) = (c, n)) : n ≤ bs.length ∧ encodeChar c = b :: bs.take n := by
    cases hr
    exact absurd ⟨rfl, rfl⟩ hstray
  split at h
  · grind [encodeChar, toNat_ofNat, toUInt8_toNat]
  split at h
  · exact hstop h
  split at h
  · split at h
    · split at h
      · grind [encodeChar, payload, toNat_ofNat, toUInt8_of_eq]
      · exact hstop h
    · exact hstop h
  split at h
  · split at h
    · rename_i c1 c2 bs
      obtain ⟨⟨⟨hlow, hhigh⟩, hc⟩, h⟩ | ⟨-, h⟩ := ite_eq_iff.mp h
      · cases h
        refine ⟨by simp, ?_⟩
        have : 0x80 ≤ c1.toNat ∧ c1.toNat ≤ 0xbf ∧ (b.toNat = 0xe0 → 0xa0 ≤ c1.toNat) ∧
            (b.toNat = 0xed → c1.toNat ≤ 0x9f) := by
          split at hlow <;> split at hhigh <;> omega
        rw [encodeChar, payload, payload, toNat_ofNat (by omega), if_neg (by omega), if_neg (by omega),
          if_pos (by omega), toUInt8_of_eq (b := b) (by omega), toUInt8_of_eq (b := c1) (by omega),
          toUInt8_of_eq (b := c2) (by omega)]
        rfl
      · exact hstop h
    · exact hstop h
  split at h
  · split at h
    · rename_i c1 c2 c3 bs
      obtain ⟨⟨⟨⟨hlow, hhigh⟩, hc⟩, hd⟩, h⟩ | ⟨-, h⟩ := ite_eq_iff.mp h
      · cases h
        refine ⟨by simp, ?_⟩
        have : 0x80 ≤ c1.toNat ∧ c1.toNat ≤ 0xbf ∧ (b.toNat = 0xf0 → 0x90 ≤ c1.toNat) ∧
            (b.toNat = 0xf4 → c1.toNat ≤ 0x8f) := by
          split at hlow <;> split at hhigh <;> omega
        rw [encodeChar, payload, payload, payload, toNat_ofNat (by omega), if_neg (by omega), if_neg (by omega),
          if_neg (by omega), toUInt8_of_eq (b := b) (by omega), toUInt8_of_eq (b := c1) (by omega),
          toUInt8_of_eq (b := c2) (by omega), toUInt8_of_eq (b := c3) (by omega)]
        rfl
      · exact hstop h
    · exact hstop h
  · exact hstop h

/-- Bytes beyond those of characters in their own right do not look like them. -/
theorem eq_of_mem_encodeChar (h : b ∈ encodeChar c) (hb : b < 0x80) : encodeChar c = [b] ∧ c.toNat = b.toNat := by
  have hvalid : c.toNat < 0xd800 ∨ 0xdfff < c.toNat ∧ c.toNat < 0x110000 := c.valid
  unfold encodeChar at h ⊢
  generalize c.toNat = n at h hvalid ⊢
  simp only at h ⊢
  have hlarge {k : Nat} (hk : 0x80 ≤ k) (hk' : k < 256) : ¬ b = k.toUInt8 := by
    rintro rfl
    rw [UInt8.lt_iff_toNat_lt, toNat_toUInt8 hk'] at hb
    exact Nat.not_lt.mpr hk hb
  grind [toNat_toUInt8]

theorem decodeFrom_of_lt (h : b < 0x80) (bs : Bytes) : decodeFrom b bs = (Char.ofNat b.toNat, 0) := if_pos h

/-- A byte starts a character that it spells with the bytes behind it, or it is stray. -/
theorem decodeFrom_cases (b : UInt8) (bs : Bytes) : decodeFrom b bs = (replacement, 0) ∨
    ∃ c tail rest, bs = tail ++ rest ∧ encodeChar c = b :: tail ∧ decodeFrom b bs = (c, tail.length) := by
  cases hd : decodeFrom b bs with
  | mk c n =>
    by_cases h : c = replacement ∧ n = 0
    · exact .inl (Prod.ext h.1 h.2)
    · obtain ⟨hle, hc⟩ := encodeChar_decodeFrom hd h
      exact .inr ⟨c, _, _, (take_append_drop n bs).symm, hc, by rw [length_take_of_le hle]⟩

theorem decodeFrom_append {tail : Bytes} (h : encodeChar c = b :: tail) (rest : Bytes) :
    decodeFrom b (tail ++ rest) = (c, tail.length) := by
  obtain ⟨b', bs, hc, hd⟩ := decodeFrom_encodeChar c rest
  obtain ⟨rfl, rfl⟩ := cons.inj (h.symm.trans hc)
  exact hd

theorem length_decodeFrom (b : UInt8) (bs : Bytes) : (decodeFrom b bs).2 ≤ bs.length := by
  obtain h | ⟨c, tail, rest, rfl, -, h⟩ := decodeFrom_cases b bs <;> simp [h]

/-- Reading a character looks no further than its last byte, and a byte that spells none with what
follows spells none with less. -/
theorem decodeFrom_take (h : (decodeFrom b bs).2 ≤ m) : decodeFrom b (bs.take m) = decodeFrom b bs := by
  obtain hstray | ⟨c, tail, rest, rfl, hc, hd⟩ := decodeFrom_cases b bs
  · obtain hstray' | ⟨c, tail, rest, htake, hc, hd⟩ := decodeFrom_cases b (bs.take m)
    · rw [hstray, hstray']
    · rw [hd, ← decodeFrom_append hc (rest ++ bs.drop m), ← append_assoc, ← htake, take_append_drop]
  · rw [hd] at h
    rw [hd, take_append, take_of_length_le h, decodeFrom_append hc]

/-- A character beyond ASCII, or what stands in for one, has no ASCII among its further bytes. -/
theorem isHigh_decodeFrom (h : ¬ b < 0x80) (bs : Bytes) :
    128 ≤ (decodeFrom b bs).1.toNat ∧ ∀ c ∈ bs.take (decodeFrom b bs).2, 128 ≤ c.toNat := by
  obtain hstray | ⟨c, tail, rest, rfl, hc, hd⟩ := decodeFrom_cases b bs
  · rw [hstray]
    exact ⟨by decide, by simp⟩
  · rw [hd, take_left]
    refine ⟨?_, fun x hx => ?_⟩
    · by_contra hlt
      have hlt : c.toNat < 0x80 := by simpa using hlt
      rw [encodeChar, if_pos hlt] at hc
      obtain ⟨rfl, -⟩ := cons.inj hc
      rw [UInt8.lt_iff_toNat_lt, toNat_toUInt8 (by omega)] at h
      exact h hlt
    · by_contra hlt
      have heq := (eq_of_mem_encodeChar (hc ▸ mem_cons_of_mem b hx) (by simpa [UInt8.lt_iff_toNat_lt] using hlt)).1
      rw [hc] at heq
      cases heq
      cases hx

end Parlance.Utf8
