import Mathlib.Tactic.Ring
import Parlance.Proofs.Boundaries
/-!
Characters and decimal digits spelled out are read back.
-/
namespace Parlance

open List

namespace Utf8

theorem toUInt8_lt {n : Nat} (h : n < 256) (b : UInt8) : n.toUInt8 < b ↔ n < b.toNat := by
  rw [UInt8.lt_iff_toNat_lt, toNat_toUInt8 h]

theorem le_toUInt8 {n : Nat} (h : n < 256) (b : UInt8) : b ≤ n.toUInt8 ↔ b.toNat ≤ n := by
  rw [UInt8.le_iff_toNat_le, toNat_toUInt8 h]

theorem toUInt8_eq {n : Nat} (h : n < 256) (b : UInt8) : n.toUInt8 = b ↔ n = b.toNat := by
  rw [← UInt8.toNat_inj, toNat_toUInt8 h]

theorem runes_encodeChar (c : Char) (rest : Bytes) :
    runes (encodeChar c ++ rest) = (c, (encodeChar c).length) :: runes rest := by
  obtain ⟨b, bs, hc, hd⟩ := decodeFrom_encodeChar c rest
  grind [runes_go_cons, runes_go_drop]

theorem chars_encode (cs : List Char) : chars (cs.flatMap encodeChar) = cs := by
  induction cs with
  | nil => rfl
  | cons c cs ih => grind [chars, runes_encodeChar]

theorem toString_ofString (s : String) : toString (Bytes.ofString s) = s := by
  rw [toString, Bytes.ofString, encode, chars_encode, String.ofList_toList]

theorem ofString_injective : Function.Injective Bytes.ofString := fun s t h => by
  rw [← toString_ofString s, h, toString_ofString]

theorem ofString_append (s t : String) : Bytes.ofString (s ++ t) = Bytes.ofString s ++ Bytes.ofString t := by
  simp [Bytes.ofString, encode]

theorem encode_ascii {cs : List Char} (h : ∀ c ∈ cs, c.toNat < 0x80) :
    cs.flatMap encodeChar = cs.map fun c => c.toNat.toUInt8 := by
  induction cs with
  | nil => rfl
  | cons c cs ih => grind [encodeChar]

end Utf8

/-! ### Decimal digits -/

namespace Spelling

def IsDigit (c : Char) : Prop := 48 ≤ c.toNat ∧ c.toNat ≤ 57

instance : DecidablePred IsDigit := fun c => inferInstanceAs (Decidable (48 ≤ c.toNat ∧ c.toNat ≤ 57))

def worth (n : Nat) (cs : List Char) : Nat := cs.foldl (fun a c => 10 * a + (c.toNat - 48)) n

theorem worth_append (n : Nat) (cs ds : List Char) : worth n (cs ++ ds) = worth (worth n cs) ds :=
  foldl_append

theorem worth_zeros (n k : Nat) : worth n (List.replicate k '0') = n * 10 ^ k := by
  induction k generalizing n with
  | zero => simp [worth]
  | succ k ih =>
    change worth (10 * n + 0) (List.replicate k '0') = _
    rw [ih]
    ring

theorem toList_natural (n : Nat) : (toString n).toList = Nat.toDigits 10 n := by
  rw [Nat.toString_eq_repr, Nat.toList_repr]

theorem isDigit_natural {n : Nat} {c : Char} (h : c ∈ (toString n).toList) : IsDigit c := by
  rw [toList_natural] at h
  have hd := Nat.isDigit_of_mem_toDigits (by decide) (by decide) h
  simp only [Char.isDigit, Bool.and_eq_true, decide_eq_true_eq, ge_iff_le, UInt32.le_iff_toNat_le] at hd
  exact hd

theorem natural_ne_nil (n : Nat) : (toString n).toList ≠ [] := by
  rw [toList_natural]
  exact Nat.toDigits_ne_nil

theorem worth_natural (n : Nat) : worth 0 (toString n).toList = n := by
  rw [toList_natural]
  exact (Nat.ofDigitChars_eq_foldl ..).symm.trans (Nat.ofDigitChars_ten_toDigits)

theorem natural_leading {n : Nat} (h : 0 < n) : ∃ c cs, (toString n).toList = c :: cs ∧ c ≠ '0' := by
  simp only [toList_natural]
  induction n using Nat.strongRecOn with
  | ind n ih =>
    rw [Nat.toDigits_eq_if (by decide)]
    split
    · rename_i hlt
      have hall : ∀ n < 10, 0 < n → n.digitChar ≠ '0' := by decide
      exact ⟨_, _, rfl, hall n hlt h⟩
    · obtain ⟨c, cs, hcs, hc⟩ := ih (n / 10) (by omega) (by omega)
      grind

theorem toString_int (v : Int) : toString v = if v < 0 then "-" ++ toString v.natAbs else toString v.natAbs := by
  cases v with
  | ofNat n => rfl
  | negSucc n =>
    rw [if_pos (Int.negSucc_lt_zero n)]
    rfl

end Spelling
end Parlance
