import Parlance.Number.Shortest
import Parlance.Proofs.Rounding
/-!
The shortest decimals lie where they should: what is found among finer and finer powers of ten rounds to the
binary number again.
-/
namespace Parlance.Decimal

theorem ten_zpow_pos (k : Int) : (0 : ℚ) < 10 ^ k := zpow_pos (by norm_num) k

def value (d : Decimal) : ℚ := d.digits * 10 ^ d.exponent

theorem value_dropZeros (fuel n : Nat) (e : Int) : (dropZeros fuel n e).value = n * 10 ^ e := by
  induction fuel generalizing n e with
  | zero => rfl
  | succ fuel ih =>
    unfold dropZeros
    split
    · rename_i h
      simp only [Bool.and_eq_true, decide_eq_true_eq] at h
      have hn : (n : ℚ) = 10 * (n / 10 : Nat) := by exact_mod_cast (by omega : n = 10 * (n / 10))
      rw [ih, zpow_add_one₀ (by norm_num), hn]
      ring
    · rfl

theorem value_normalize (d : Decimal) : d.normalize.value = d.value := value_dropZeros _ _ _

/-! ### Intervals -/

theorem inTens_pos {num den : Nat} (h : 0 < den) (k : Int) : 0 < (inTens num den k).2 := by
  unfold inTens
  split
  · exact Nat.mul_pos h (Nat.pow_pos (by decide))
  · exact h

theorem inTens_eq (num den : Nat) (k : Int) :
    ((inTens num den k).1 : ℚ) / (inTens num den k).2 = (num : ℚ) / den / 10 ^ k := by
  unfold inTens
  split
  · rename_i hk
    obtain ⟨n, rfl⟩ := Int.eq_ofNat_of_zero_le hk
    simp only [Int.toNat_natCast, Nat.pow_eq, Nat.cast_mul, Nat.cast_pow, Nat.cast_ofNat, zpow_natCast]
    rw [div_mul_eq_div_div]
  · rename_i hk
    obtain ⟨n, hn⟩ := Int.eq_ofNat_of_zero_le (show 0 ≤ -k by omega)
    obtain rfl : k = -(n : Int) := by omega
    simp only [neg_neg, Int.toNat_natCast, Nat.pow_eq, Nat.cast_mul, Nat.cast_pow, Nat.cast_ofNat, zpow_neg,
      zpow_natCast, div_inv_eq_mul]
    ring

theorem inTens_snd (a b den : Nat) (k : Int) : (inTens a den k).2 = (inTens b den k).2 := by
  unfold inTens
  split <;> rfl

theorem inTens_le_iff {den : Nat} (hd : 0 < den) (a b n : Nat) (k : Int) :
    (inTens a den k).1 ≤ n * (inTens b den k).2 ↔ (a : ℚ) / den ≤ n * 10 ^ k := by
  have hpos : (0 : ℚ) < (inTens a den k).2 := by exact_mod_cast inTens_pos hd k
  rw [← div_le_iff₀ (ten_zpow_pos k), ← inTens_eq, div_le_iff₀ hpos, inTens_snd b a]
  exact_mod_cast Iff.rfl

theorem le_inTens_iff {den : Nat} (hd : 0 < den) (a b n : Nat) (k : Int) :
    n * (inTens b den k).2 ≤ (inTens a den k).1 ↔ (n : ℚ) * 10 ^ k ≤ (a : ℚ) / den := by
  have hpos : (0 : ℚ) < (inTens a den k).2 := by exact_mod_cast inTens_pos hd k
  rw [← le_div_iff₀ (ten_zpow_pos k), ← inTens_eq, le_div_iff₀ hpos, inTens_snd b a]
  exact_mod_cast Iff.rfl

namespace Target

variable {t : Target}

structure Proper (t : Target) : Prop where
  den : 0 < t.den
  low : t.low < t.mid
  high : t.mid < t.high

def Has (t : Target) (x : ℚ) : Prop :=
  (t.low : ℚ) / t.den < x ∧ x < (t.high : ℚ) / t.den ∨
    t.closed ∧ (t.low : ℚ) / t.den ≤ x ∧ x ≤ (t.high : ℚ) / t.den

theorem reaches_iff (hd : 0 < t.den) {n : Nat} {k : Int} : t.reaches n k ↔ t.Has (n * 10 ^ k) := by
  have hlow := inTens_le_iff hd t.low t.low n k
  have hhigh := le_inTens_iff hd t.high t.low n k
  have hlow' := (le_inTens_iff hd t.low t.low n k).not
  have hhigh' := (inTens_le_iff hd t.high t.low n k).not
  grind [reaches, Has]

theorem roundDiv_cases (n d : Nat) : Binary.roundDiv n d = n / d ∨ Binary.roundDiv n d = n / d + 1 := by
  grind [Binary.roundDiv]

theorem has_of_nearest? (ht : t.Proper) {n : Nat} {k : Int} (h : t.nearest? k = some n) : t.Has (n * 10 ^ k) := by
  obtain ⟨hd, hlow, hhigh⟩ := ht
  unfold nearest? at h
  simp only at h
  split at h
  · rename_i hmod
    have hmul : n * (inTens t.mid t.den k).2 = (inTens t.mid t.den k).1 := by
      rw [← Option.some.inj h]
      exact Nat.div_mul_cancel (Nat.dvd_of_mod_eq_zero hmod)
    have hmid : (n : ℚ) * 10 ^ k = (t.mid : ℚ) / t.den :=
      le_antisymm ((le_inTens_iff hd ..).mp hmul.le) ((inTens_le_iff hd ..).mp hmul.ge)
    have hdpos : (0 : ℚ) < t.den := by exact_mod_cast hd
    rw [hmid]
    exact .inl ⟨by gcongr, by gcongr⟩
  · split at h
    · rename_i hdown hup
      rcases roundDiv_cases (inTens t.mid t.den k).1 (inTens t.mid t.den k).2 with hr | hr
      · grind [reaches_iff]
      · rw [← Option.some.inj h, hr]
        exact (reaches_iff hd).mp hup
    · grind [reaches_iff]
    · rename_i _ hup
      rw [← Option.some.inj h]
      exact (reaches_iff hd).mp hup
    · cases h

/-- Once the step is no wider than the lower half of the interval, the multiple below the number is in it. -/
theorem nearest?_ne_none (ht : t.Proper) {k : Int} (hk : (10 : ℚ) ^ k ≤ ((t.mid : ℚ) - t.low) / t.den) :
    t.nearest? k ≠ none := by
  obtain ⟨hd, hlow, hhigh⟩ := ht
  have hdpos : (0 : ℚ) < t.den := by exact_mod_cast hd
  generalize hn : (inTens t.mid t.den k).1 / (inTens t.mid t.den k).2 = n
  have hle : (n : ℚ) * 10 ^ k ≤ (t.mid : ℚ) / t.den := by
    rw [← le_inTens_iff hd t.mid t.mid, ← hn]
    exact Nat.div_mul_le_self _ _
  have hlt : (t.mid : ℚ) / t.den < ((n + 1 : Nat) : ℚ) * 10 ^ k := by
    rw [← not_le, ← le_inTens_iff hd t.mid t.mid, ← hn, not_le]
    exact Nat.mul_comm _ _ ▸ Nat.lt_mul_div_succ _ (inTens_pos hd k)
  have hdown : t.reaches n k := by
    refine (reaches_iff hd).mpr (.inl ⟨?_, ?_⟩)
    · rw [sub_div] at hk
      push_cast at hlt
      linarith
    · have hmid : (t.mid : ℚ) / t.den < (t.high : ℚ) / t.den := by gcongr
      linarith
  grind [nearest?]

theorem has_search (ht : t.Proper) {fuel j : Nat} {k : Int} (hj : j < fuel)
    (hk : (10 : ℚ) ^ (k - j) ≤ ((t.mid : ℚ) - t.low) / t.den) : t.Has (t.search fuel k).value := by
  induction fuel generalizing j k with
  | zero => omega
  | succ fuel ih =>
    rw [search]
    cases h : t.nearest? k with
    | some n =>
      simp only
      rw [value_normalize]
      exact has_of_nearest? ht h
    | none =>
      simp only
      cases j with
      | zero => grind [nearest?_ne_none]
      | succ j =>
        refine ih (Nat.lt_of_succ_lt_succ hj) ?_
        grind

/-! ### Where the search begins -/

/-- Powers of two next to the powers of ten whose exponent is about three tenths as large. -/
theorem ten_pow_near_two_pow : ∀ l < 1200,
    10 ^ (l * 30103 / 100000) ≤ 1000 * 2 ^ l ∧ 2 ^ l ≤ 1000 * 10 ^ (l * 30103 / 100000) := by
  decide +kernel

theorem ten_zpow_le_two_zpow {l : Int} (h : l.natAbs < 1200) : (10 : ℚ) ^ (l * 30103 / 100000) ≤ 1000 * 2 ^ l := by
  obtain ⟨n, rfl | rfl⟩ := l.eq_nat_or_neg
  · have hn := (ten_pow_near_two_pow n (by simpa using h)).1
    rw [show (n : Int) * 30103 / 100000 = ((n * 30103 / 100000 : Nat) : Int) by omega]
    exact_mod_cast hn
  · have hn := (ten_pow_near_two_pow n (by simpa using h)).2
    have hfloor : -(n : Int) * 30103 / 100000 ≤ -((n * 30103 / 100000 : Nat) : Int) := by omega
    have hn : (2 : ℚ) ^ n ≤ 1000 * 10 ^ (n * 30103 / 100000) := by exact_mod_cast hn
    calc (10 : ℚ) ^ (-(n : Int) * 30103 / 100000)
        ≤ 10 ^ (-((n * 30103 / 100000 : Nat) : Int)) := zpow_le_zpow_right₀ (by norm_num) hfloor
      _ ≤ 1000 * 2 ^ (-(n : Int)) := by
        rw [zpow_neg, zpow_neg, zpow_natCast, zpow_natCast, inv_le_iff_one_le_mul₀ (by positivity)]
        rw [mul_assoc, mul_comm, mul_assoc, ← div_eq_inv_mul, one_le_div (by positivity)]
        linarith

/-- The search begins no higher than two places above the upper end. -/
theorem ten_zpow_lead (hd : 0 < t.den) (hhigh : 0 < t.high) (hl : (Binary.logTwo t.high t.den).natAbs < 1200) :
    (10 : ℚ) ^ t.lead ≤ 100 * ((t.high : ℚ) / t.den) := by
  have hpos : (0 : ℚ) < (t.high : ℚ) / t.den := div_pos (by exact_mod_cast hhigh) (by exact_mod_cast hd)
  have hlog := (Binary.logTwo_spec hhigh hd).1
  have hten := ten_zpow_le_two_zpow hl
  have hone (k : Int) (h : (inTens t.high t.den k).2 ≤ (inTens t.high t.den k).1) :
      (10 : ℚ) ^ k ≤ (t.high : ℚ) / t.den := by
    have hmul := (le_inTens_iff hd t.high t.high 1 k).mp (by rwa [Nat.one_mul])
    rwa [Nat.cast_one, one_mul] at hmul
  grind [lead, zpow_sub_one₀]

/-! ### The interval of a binary number -/

open Binary

variable {w : Width} {m : Nat} {e : Int}

theorem scale_one_pos (k : Int) : 0 < (scale 1 1 k).1 := by
  unfold scale
  split
  · exact Nat.mul_pos Nat.one_pos (Nat.pow_pos (by decide))
  · exact Nat.one_pos

theorem den_ofFinite (w : Width) (m : Nat) (e : Int) : 0 < (ofFinite w m e).den := scale_pos Nat.one_pos _

/-- A number of quarter steps in the fraction that the interval is written in. -/
theorem quarters_ofFinite (w : Width) (m : Nat) (e : Int) (a : Nat) :
    ((a * (scale 1 1 (e - 2)).1 : Nat) : ℚ) / (ofFinite w m e).den = (a / 4 : ℚ) * 2 ^ e := by
  have hscale := scale_eq 1 1 (e - 2)
  have hquarter : (2 : ℚ) ^ e = 4 * 2 ^ (e - 2) := by
    rw [show e = e - 2 + 2 by omega, zpow_add₀ (by norm_num)]
    norm_num
    ring
  change _ / ((scale 1 1 (e - 2)).2 : ℚ) = _
  grind

theorem proper_ofFinite (hm : 0 < m) : (ofFinite w m e).Proper := by
  have hone := scale_one_pos (e - 2)
  refine ⟨den_ofFinite w m e, ?_, ?_⟩
  · refine Nat.mul_lt_mul_of_pos_right ?_ hone
    split <;> omega
  · exact Nat.mul_lt_mul_of_pos_right (by omega) hone

theorem low_ofFinite (hm : 0 < m) : ((ofFinite w m e).low : ℚ) / (ofFinite w m e).den =
    (m - if m = 2 ^ (w.precision - 1) ∧ w.leastExponent < e then (1 / 4 : ℚ) else 1 / 2) * 2 ^ e := by
  refine (quarters_ofFinite w m e _).trans ?_
  simp only [Nat.pow_eq, Bool.and_eq_true, decide_eq_true_eq, gt_iff_lt]
  split
  · rw [Nat.cast_sub (by omega)]
    push_cast
    ring
  · rw [Nat.cast_sub (by omega)]
    push_cast
    ring

theorem mid_ofFinite (w : Width) (m : Nat) (e : Int) :
    ((ofFinite w m e).mid : ℚ) / (ofFinite w m e).den = m * 2 ^ e := by
  refine (quarters_ofFinite w m e _).trans ?_
  push_cast
  ring

theorem high_ofFinite (w : Width) (m : Nat) (e : Int) :
    ((ofFinite w m e).high : ℚ) / (ofFinite w m e).den = (m + 1 / 2) * 2 ^ e := by
  refine (quarters_ofFinite w m e _).trans ?_
  push_cast
  ring

theorem roundsTo_of_has (hm : 0 < m) {x : ℚ} (h : (ofFinite w m e).Has x) : RoundsTo w m e x := by
  unfold Has at h
  rw [low_ofFinite hm, high_ofFinite] at h
  have hclosed : (ofFinite w m e).closed = decide (m % 2 = 0) := rfl
  rw [hclosed, decide_eq_true_eq] at h
  exact h

theorem high_lt (hc : Canonical w m e) :
    ((ofFinite w m e).high : ℚ) / (ofFinite w m e).den < 2 ^ w.precision * 2 ^ e := by
  have hprecision : 2 ^ w.precision = 2 * 2 ^ (w.precision - 1) := by cases w <;> rfl
  have hm : (m : ℚ) + 1 ≤ 2 ^ w.precision := by
    have hdigits := hc.digits
    rw [← hprecision] at hdigits
    exact_mod_cast hdigits
  grind [high_ofFinite, mul_lt_mul_of_pos_right, two_zpow_pos]

theorem logTwo_ofFinite (hc : Canonical w m e) (hm : 0 < m) :
    (logTwo (ofFinite w m e).high (ofFinite w m e).den).natAbs < 1200 := by
  have ht := proper_ofFinite (w := w) (e := e) hm
  obtain ⟨hlow, hhigh⟩ := logTwo_spec (Nat.zero_lt_of_lt ht.high) ht.den
  have hbelow : e < logTwo (ofFinite w m e).high (ofFinite w m e).den + 1 := by
    refine (zpow_lt_zpow_iff_right₀ (by norm_num : (1 : ℚ) < 2)).mp (lt_of_le_of_lt ?_ hhigh)
    have hone : (1 : ℚ) ≤ m := by exact_mod_cast hm
    rw [high_ofFinite]
    nlinarith [two_zpow_pos e]
  have habove : logTwo (ofFinite w m e).high (ofFinite w m e).den < w.precision + e := by
    refine (zpow_lt_zpow_iff_right₀ (by norm_num : (1 : ℚ) < 2)).mp (lt_of_le_of_lt hlow ?_)
    rw [zpow_add₀ (by norm_num), zpow_natCast]
    exact high_lt hc
  obtain ⟨hleast, hmost⟩ := hc.exponent_range
  have hprecision : w.precision ≤ 53 := by cases w <;> decide
  omega

theorem has_shortest (hc : Canonical w m e) (hm : 0 < m) : (ofFinite w m e).Has (ofFinite w m e).shortest.value := by
  have ht := proper_ofFinite (w := w) (e := e) hm
  refine has_search ht (show 19 < 20 by decide) ?_
  have hlead := ten_zpow_lead ht.den (Nat.zero_lt_of_lt ht.high) (logTwo_ofFinite hc hm)
  have hhigh := high_lt hc
  have hprecision : (2 : ℚ) ^ w.precision ≤ 2 ^ 53 := by cases w <;> norm_num [Width.precision]
  have hpos := two_zpow_pos e
  -- The lower half is a quarter of a step wide at least.
  have hhalf : (2 : ℚ) ^ e / 4 ≤ (((ofFinite w m e).mid : ℚ) - (ofFinite w m e).low) / (ofFinite w m e).den := by
    rw [sub_div, mid_ofFinite, low_ofFinite hm]
    split <;> linarith
  refine le_trans ?_ hhalf
  rw [zpow_sub₀ (by norm_num), div_le_iff₀ (ten_zpow_pos _)]
  norm_num at hprecision ⊢
  nlinarith

end Target

theorem roundsTo_shortest {w : Binary.Width} {m : Nat} {e : Int} (hc : Binary.Canonical w m e) (hm : 0 < m) :
    Binary.RoundsTo w m e (shortest w m e).value := by
  grind [shortest, Target.roundsTo_of_has, Target.has_shortest]

end Parlance.Decimal
