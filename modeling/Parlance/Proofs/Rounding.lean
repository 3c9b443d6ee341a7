import Mathlib.Algebra.Order.Field.Power
import Mathlib.Tactic.FieldSimp
import Mathlib.Tactic.Linarith
import Mathlib.Tactic.NormNum
import Mathlib.Tactic.Positivity
import Mathlib.Tactic.Ring
import Parlance.Number.Binary
/-!
Rounding to binary numbers. What is rounded to `m * 2 ^ e` are the numbers nearer to it than half a step, with
the ends of that interval if `m` is even.
-/
namespace Parlance.Binary

variable {bits den num : Nat}

/-! ### Fractions -/

theorem two_zpow_pos (k : Int) : (0 : ℚ) < 2 ^ k := zpow_pos (by norm_num) k

theorem scale_pos (h : 0 < den) (k : Int) : 0 < (scale num den k).2 := by
  unfold scale
  split
  · exact h
  · exact Nat.mul_pos h (Nat.pow_pos (by decide))

theorem scale_eq (num den : Nat) (k : Int) :
    ((scale num den k).1 : ℚ) / (scale num den k).2 = (num : ℚ) / den * 2 ^ k := by
  unfold scale
  split
  · rename_i hk
    obtain ⟨n, rfl⟩ := Int.eq_ofNat_of_zero_le hk
    simp only [Int.toNat_natCast, Nat.pow_eq, Nat.cast_mul, Nat.cast_pow, Nat.cast_ofNat, zpow_natCast]
    ring
  · rename_i hk
    obtain ⟨n, hn⟩ := Int.eq_ofNat_of_zero_le (show 0 ≤ -k by omega)
    obtain rfl : k = -(n : Int) := by omega
    simp only [neg_neg, Int.toNat_natCast, Nat.pow_eq, Nat.cast_mul, Nat.cast_pow, Nat.cast_ofNat, zpow_neg,
      zpow_natCast]
    rw [div_mul_eq_div_div, div_eq_mul_inv]

theorem log2_spec {n : Nat} (h : 0 < n) : (2 : ℚ) ^ (n.log2 : Int) ≤ n ∧ (n : ℚ) < 2 ^ ((n.log2 : Int) + 1) := by
  have hlow := Nat.log2_self_le (Nat.ne_of_gt h)
  have hhigh := Nat.lt_log2_self (n := n)
  constructor
  · exact_mod_cast hlow
  · exact_mod_cast hhigh

theorem logTwo_spec (hn : 0 < num) (hd : 0 < den) :
    (2 : ℚ) ^ logTwo num den ≤ (num : ℚ) / den ∧ (num : ℚ) / den < 2 ^ (logTwo num den + 1) := by
  obtain ⟨hnlow, hnhigh⟩ := log2_spec hn
  obtain ⟨hdlow, hdhigh⟩ := log2_spec hd
  have hdpos : (0 : ℚ) < den := by exact_mod_cast hd
  -- The logarithms of numerator and denominator leave two places to choose from.
  have hlow : (2 : ℚ) ^ ((num.log2 : Int) - den.log2 - 1) ≤ (num : ℚ) / den := by
    rw [le_div_iff₀ hdpos]
    calc (2 : ℚ) ^ ((num.log2 : Int) - den.log2 - 1) * den
        ≤ 2 ^ ((num.log2 : Int) - den.log2 - 1) * 2 ^ ((den.log2 : Int) + 1) := by gcongr
      _ = 2 ^ (num.log2 : Int) := by rw [← zpow_add₀ (by norm_num)]; congr 1; omega
      _ ≤ num := hnlow
  have hhigh : (num : ℚ) / den < 2 ^ ((num.log2 : Int) - den.log2 + 1) := by
    rw [div_lt_iff₀ hdpos]
    calc (num : ℚ) < 2 ^ ((num.log2 : Int) + 1) := hnhigh
      _ = 2 ^ ((num.log2 : Int) - den.log2 + 1) * 2 ^ (den.log2 : Int) := by
        rw [← zpow_add₀ (by norm_num)]; congr 1; omega
      _ ≤ 2 ^ ((num.log2 : Int) - den.log2 + 1) * den := by gcongr
  have hscale := scale_eq num den (-((num.log2 : Int) - den.log2))
  have hspos : (0 : ℚ) < (scale num den (-((num.log2 : Int) - den.log2))).2 := by
    exact_mod_cast scale_pos hd _
  rw [zpow_neg, ← div_eq_mul_inv, div_eq_div_iff (ne_of_gt hspos) (ne_of_gt (two_zpow_pos _))] at hscale
  unfold logTwo
  simp only
  split
  · rename_i hle
    refine ⟨?_, hhigh⟩
    have hle : ((scale num den (-((num.log2 : Int) - den.log2))).2 : ℚ) ≤
        (scale num den (-((num.log2 : Int) - den.log2))).1 := by exact_mod_cast hle
    have hpos := two_zpow_pos ((num.log2 : Int) - den.log2)
    nlinarith
  · rename_i hlt
    refine ⟨hlow, ?_⟩
    have hlt : ((scale num den (-((num.log2 : Int) - den.log2))).1 : ℚ) <
        (scale num den (-((num.log2 : Int) - den.log2))).2 := by exact_mod_cast Nat.lt_of_not_le hlt
    have hpos := two_zpow_pos ((num.log2 : Int) - den.log2)
    rw [sub_add_cancel]
    nlinarith

theorem logTwo_eq {k : Int} (hd : 0 < den) (hlow : (2 : ℚ) ^ k ≤ (num : ℚ) / den)
    (hhigh : (num : ℚ) / den < 2 ^ (k + 1)) : logTwo num den = k := by
  have hn : 0 < num := by
    rcases Nat.eq_zero_or_pos num with rfl | h
    · grind [two_zpow_pos]
    · exact h
  obtain ⟨hl, hh⟩ := logTwo_spec hn hd
  have h1 : logTwo num den < k + 1 := (zpow_lt_zpow_iff_right₀ (by norm_num : (1 : ℚ) < 2)).mp (hl.trans_lt hhigh)
  have h2 : k < logTwo num den + 1 := (zpow_lt_zpow_iff_right₀ (by norm_num : (1 : ℚ) < 2)).mp (hlow.trans_lt hh)
  omega

/-! ### Whole numbers -/

/-- The number is rounded to the whole number: it is less than half a step away, or that much from an even one. -/
def Nears (m : Nat) (x : ℚ) : Prop :=
  (m : ℚ) - 1 / 2 < x ∧ x < m + 1 / 2 ∨ m % 2 = 0 ∧ (m : ℚ) - 1 / 2 ≤ x ∧ x ≤ m + 1 / 2

theorem roundDiv_eq {n d m : Nat} (hd : 0 < d) (h : Nears m ((n : ℚ) / d)) : roundDiv n d = m := by
  have hdpos : (0 : ℚ) < d := by exact_mod_cast hd
  have hends : 2 * (m * d) ≤ 2 * n + d ∧ 2 * n ≤ 2 * (m * d) + d ∧
      (m % 2 = 0 ∨ 2 * (m * d) < 2 * n + d ∧ 2 * n < 2 * (m * d) + d) := by
    rcases h with ⟨hlow, hhigh⟩ | ⟨heven, hlow, hhigh⟩
    · rw [lt_div_iff₀ hdpos] at hlow
      rw [div_lt_iff₀ hdpos] at hhigh
      have h1 : (2 * (m * d) : ℚ) < 2 * n + d := by linarith
      have h2 : (2 * n : ℚ) < 2 * (m * d) + d := by linarith
      norm_cast at h1 h2
      exact ⟨h1.le, h2.le, .inr ⟨h1, h2⟩⟩
    · rw [le_div_iff₀ hdpos] at hlow
      rw [div_le_iff₀ hdpos] at hhigh
      have h1 : (2 * (m * d) : ℚ) ≤ 2 * n + d := by linarith
      have h2 : (2 * n : ℚ) ≤ 2 * (m * d) + d := by linarith
      norm_cast at h1 h2
      exact ⟨h1, h2, .inl heven⟩
  obtain ⟨hlow, hhigh, htie⟩ := hends
  have hn : d * (n / d) + n % d = n := Nat.div_add_mod n d
  have hr : n % d < d := Nat.mod_lt n hd
  unfold roundDiv
  simp only
  generalize n / d = q at hn
  generalize n % d = r at hn hr
  -- The whole number is the quotient or the one behind it.
  have hm : m = q ∨ m = q + 1 := by
    have h1 : m < q + 2 := by
      by_contra hge
      have hmul := Nat.mul_le_mul_right d (Nat.le_of_not_lt hge)
      have hexp : (q + 2) * d = d * q + 2 * d := by ring
      omega
    have h2 : q < m + 1 := by
      by_contra hge
      have hmul := Nat.mul_le_mul_right d (Nat.le_of_not_lt hge)
      have hexp : (m + 1) * d = m * d + d := by ring
      have hcomm : q * d = d * q := Nat.mul_comm q d
      omega
    omega
  rcases hm with rfl | rfl
  · grind
  · grind

/-! ### Finite numbers -/

variable {w : Width} {m : Nat} {e : Int}

/-- The bits of `m * 2 ^ e` without the sign. -/
def magnitude (w : Width) (m : Nat) (e : Int) : Nat :=
  (e - w.leastExponent).toNat * 2 ^ (w.precision - 1) + m

/-- The number `m * 2 ^ e` has bits of its own: all digits count unless the exponent is the least one. -/
structure Canonical (w : Width) (m : Nat) (e : Int) : Prop where
  least : w.leastExponent ≤ e
  normal : w.leastExponent < e → 2 ^ (w.precision - 1) ≤ m
  digits : m < 2 * 2 ^ (w.precision - 1)
  finite : magnitude w m e < infinityBits w

theorem Canonical.exponent_range (hc : Canonical w m e) : -1074 ≤ e ∧ e ≤ 972 := by
  have hexponent : (e - w.leastExponent).toNat < 2 ^ w.exponentBits - 1 := by
    have hfinite : (e - w.leastExponent).toNat * 2 ^ (w.precision - 1) + m <
        (2 ^ w.exponentBits - 1) * 2 ^ (w.precision - 1) := hc.finite
    exact Nat.lt_of_mul_lt_mul_right (Nat.lt_of_le_of_lt (Nat.le_add_right _ _) hfinite)
  have hleast := hc.least
  cases w <;> simp only [Width.leastExponent, Width.exponentBits] at hexponent hleast <;> omega

theorem infinityBits_lt_signBit (w : Width) : infinityBits w < signBit w := by cases w <;> decide

theorem decode_finite {negative : Bool} (h : decode w bits = .finite negative m e) :
    Canonical w m e ∧ bits % signBit w = magnitude w m e ∧ negative = decide (signBit w ≤ bits) := by
  have hunit : 0 < 2 ^ (w.precision - 1) := Nat.pow_pos (by decide)
  unfold decode at h
  simp only [Nat.pow_eq] at h
  split at h
  · cases h
  · rename_i hinf
    split at h
    · cases h
    · rename_i hnan
      have hlt : bits % signBit w < infinityBits w := by omega
      generalize hmag : bits % signBit w = mag at *
      have hdiv := Nat.div_add_mod mag (2 ^ (w.precision - 1))
      have hmod := Nat.mod_lt mag hunit
      split at h
      · rename_i hfield
        cases h
        rw [hfield] at hdiv
        refine ⟨⟨le_refl _, fun h => absurd h (lt_irrefl _), by omega, ?_⟩, ?_, rfl⟩
        · simpa [magnitude] using hlt
        · simp [magnitude]
      · rename_i hfield
        cases h
        have hback : magnitude w (2 ^ (w.precision - 1) + mag % 2 ^ (w.precision - 1))
            (w.leastExponent + ((mag / 2 ^ (w.precision - 1) - 1 : Nat) : Int)) = mag := by
          obtain ⟨k, hk⟩ : ∃ k, mag / 2 ^ (w.precision - 1) = k + 1 := Nat.exists_eq_succ_of_ne_zero hfield
          rw [hk] at hdiv
          have hexp : 2 ^ (w.precision - 1) * (k + 1) = k * 2 ^ (w.precision - 1) + 2 ^ (w.precision - 1) := by ring
          simp only [magnitude, hk]
          rw [show (w.leastExponent + ((k + 1 - 1 : Nat) : Int) - w.leastExponent).toNat = k by omega]
          omega
        refine ⟨⟨by omega, fun _ => by omega, by omega, ?_⟩, hback.symm, rfl⟩
        rw [hback]
        exact hlt

theorem decode_infinite {negative : Bool} (h : decode w bits = .infinite negative) :
    bits % signBit w = infinityBits w ∧ negative = decide (signBit w ≤ bits) := by grind [decode]

/-- The number is rounded to `m * 2 ^ e`. The step below a power of two is only half as wide. -/
def RoundsTo (w : Width) (m : Nat) (e : Int) (x : ℚ) : Prop :=
  let low : ℚ := if m = 2 ^ (w.precision - 1) ∧ w.leastExponent < e then 1 / 4 else 1 / 2
  (m - low) * 2 ^ e < x ∧ x < (m + 1 / 2) * 2 ^ e ∨
    m % 2 = 0 ∧ (m - low) * 2 ^ e ≤ x ∧ x ≤ (m + 1 / 2) * 2 ^ e

theorem RoundsTo.bounds {x : ℚ} (hc : Canonical w m e) (hm : 0 < m) (h : RoundsTo w m e x) :
    (2 : ℚ) ^ (e - 1) ≤ x ∧ x < 2 ^ (e + 53) := by
  have hpos := two_zpow_pos (e - 1)
  have hdouble : (2 : ℚ) ^ e = 2 ^ (e - 1) * 2 := by
    rw [← zpow_add_one₀ (by norm_num), sub_add_cancel]
  have hlow : (if m = 2 ^ (w.precision - 1) ∧ w.leastExponent < e then (1 / 4 : ℚ) else 1 / 2) ≤ 1 / 2 := by
    split <;> norm_num
  have hm1 : (1 : ℚ) ≤ m := by exact_mod_cast hm
  have hm53 : (m : ℚ) + 1 ≤ 2 ^ 53 := by
    have hprecision : 2 * 2 ^ (w.precision - 1) ≤ 2 ^ 53 := by cases w <;> decide
    exact_mod_cast Nat.lt_of_lt_of_le hc.digits hprecision
  have habove : (2 : ℚ) ^ (e + 53) = 2 ^ (e - 1) * 2 * 2 ^ 53 := by
    rw [zpow_add₀ (by norm_num), ← hdouble]
    norm_cast
  rw [habove]
  unfold RoundsTo at h
  rw [hdouble] at h
  constructor
  · rcases h with ⟨h, -⟩ | ⟨-, h, -⟩ <;> nlinarith
  · rcases h with ⟨-, h⟩ | ⟨-, -, h⟩ <;> nlinarith

theorem roundMagnitude_of_exponent (hn : num ≠ 0) (hd : 0 < den)
    (he : max w.leastExponent (logTwo num den - (w.precision - 1 : Nat)) = e) (h : Nears m ((num : ℚ) / den / 2 ^ e)) :
    roundMagnitude w num den = min (magnitude w m e) (infinityBits w) := by
  have hround : roundDiv (scale num den (-e)).1 (scale num den (-e)).2 = m := by
    refine roundDiv_eq (scale_pos hd _) ?_
    rw [scale_eq, zpow_neg, ← div_eq_mul_inv]
    exact h
  unfold roundMagnitude
  simp only [hn, if_false, he, hround, Nat.pow_eq]
  rfl

theorem unit_mul_zpow (w : Width) (e : Int) :
    ((2 ^ (w.precision - 1) : Nat) : ℚ) * 2 ^ e = 2 ^ (e + (w.precision - 1 : Nat)) := by
  grind [zpow_add₀, zpow_natCast]

/-- Right below a power of two the steps are half as wide, and the last one leads up to it. -/
theorem roundMagnitude_below_unit (hl : w.leastExponent < e) (hd : 0 < den)
    (hlow : (((2 ^ (w.precision - 1) : Nat) : ℚ) - 1 / 4) * 2 ^ e ≤ (num : ℚ) / den)
    (hhigh : (num : ℚ) / den < ((2 ^ (w.precision - 1) : Nat) : ℚ) * 2 ^ e) :
    roundMagnitude w num den = min (magnitude w (2 ^ (w.precision - 1)) e) (infinityBits w) := by
  have hpos := two_zpow_pos (e - 1)
  have hdouble : (2 : ℚ) ^ e = 2 ^ (e - 1) * 2 := by
    rw [← zpow_add_one₀ (by norm_num), sub_add_cancel]
  have hone : (1 : ℚ) ≤ (2 ^ (w.precision - 1) : Nat) := by exact_mod_cast Nat.pow_pos (by decide)
  have hlog : logTwo num den = e - 1 + (w.precision - 1 : Nat) := by
    refine logTwo_eq hd ?_ ?_
    · rw [← unit_mul_zpow]
      nlinarith
    · grind [unit_mul_zpow]
  have hn : num ≠ 0 := by
    rintro rfl
    rw [Nat.cast_zero, zero_div] at hlow
    nlinarith
  have hnear : Nears (2 * 2 ^ (w.precision - 1)) ((num : ℚ) / den / 2 ^ (e - 1)) := by
    refine .inr ⟨Nat.mul_mod_right 2 _, ?_, ?_⟩
    · rw [le_div_iff₀ hpos, Nat.cast_mul, Nat.cast_ofNat]
      rw [hdouble] at hlow
      linarith
    · rw [div_le_iff₀ hpos, Nat.cast_mul, Nat.cast_ofNat]
      rw [hdouble] at hhigh
      linarith
  rw [roundMagnitude_of_exponent hn hd (by omega) hnear]
  have hsteps : (e - w.leastExponent).toNat = (e - 1 - w.leastExponent).toNat + 1 := by omega
  simp only [magnitude, hsteps]
  ring_nf

theorem roundMagnitude_eq (hc : Canonical w m e) (hm : 0 < m) (hd : 0 < den)
    (h : RoundsTo w m e ((num : ℚ) / den)) : roundMagnitude w num den = magnitude w m e := by
  obtain ⟨hleast, hnormal, hdigits, hfinite⟩ := hc
  have hpos := two_zpow_pos e
  have hunit := unit_mul_zpow w e
  -- The interval in steps of `2 ^ e`.
  obtain ⟨x, hx⟩ : ∃ x : ℚ, (num : ℚ) / den = x * 2 ^ e := ⟨(num : ℚ) / den / 2 ^ e, by field_simp⟩
  unfold RoundsTo at h
  rw [hx] at h
  simp only [mul_lt_mul_iff_of_pos_right hpos, mul_le_mul_iff_of_pos_right hpos] at h
  generalize hlow : (if m = 2 ^ (w.precision - 1) ∧ w.leastExponent < e then (1 / 4 : ℚ) else 1 / 2) = low at h
  have hlow2 : low ≤ 1 / 2 := by
    rw [← hlow]
    split <;> norm_num
  have hm1 : (1 : ℚ) ≤ m := by exact_mod_cast hm
  have hbelow : (m : ℚ) - low ≤ x := by rcases h with h | h <;> linarith
  have habove : x ≤ m + 1 / 2 := by rcases h with h | h <;> linarith
  have hn : num ≠ 0 := by
    rintro rfl
    rw [Nat.cast_zero, zero_div] at hx
    have hx0 : 0 < x * 2 ^ e := mul_pos (by linarith) hpos
    linarith
  have hxe : (num : ℚ) / den / 2 ^ e = x := by rw [hx]; field_simp
  have hmin : min (magnitude w m e) (infinityBits w) = magnitude w m e := Nat.min_eq_left hfinite.le
  have hnear : Nears m x := by
    rcases h with ⟨h1, h2⟩ | ⟨h0, h1, h2⟩
    · exact .inl ⟨by linarith, h2⟩
    · exact .inr ⟨h0, by linarith, h2⟩
  have hfull : x < 2 * (2 ^ (w.precision - 1) : Nat) := by
    have hlt : (m : ℚ) + 1 ≤ 2 * (2 ^ (w.precision - 1) : Nat) := by exact_mod_cast hdigits
    linarith
  by_cases hge : ((2 ^ (w.precision - 1) : Nat) : ℚ) ≤ x
  · have hlog : logTwo num den = e + (w.precision - 1 : Nat) := by
      refine logTwo_eq hd ?_ ?_
      · rw [hx, ← hunit]
        gcongr
      · rw [hx, zpow_add₀ (by norm_num), ← hunit, zpow_one]
        nlinarith
    grind [roundMagnitude_of_exponent]
  · have hlt := lt_of_not_ge hge
    rcases eq_or_lt_of_le hleast with hl | hl
    · have hlog : logTwo num den < e + (w.precision - 1 : Nat) := by
        have hspec := (logTwo_spec (Nat.pos_of_ne_zero hn) hd).1
        have hhigh : (num : ℚ) / den < 2 ^ (e + (w.precision - 1 : Nat)) := by
          rw [hx, ← hunit]
          gcongr
        exact (zpow_lt_zpow_iff_right₀ (by norm_num : (1 : ℚ) < 2)).mp (hspec.trans_lt hhigh)
      grind [roundMagnitude_of_exponent]
    · have hge := hnormal hl
      have hle : m < 2 ^ (w.precision - 1) + 1 := by
        have hle : (m : ℚ) < (2 ^ (w.precision - 1) : Nat) + 1 := by linarith
        exact_mod_cast hle
      obtain rfl : m = 2 ^ (w.precision - 1) := by omega
      rw [if_pos ⟨rfl, hl⟩] at hlow
      rw [← hmin]
      refine roundMagnitude_below_unit hl hd ?_ ?_
      · rw [hx, hlow]
        gcongr
      · rw [hx]
        gcongr

/-! ### Signs -/

theorem roundMagnitude_le (w : Width) (num den : Nat) : roundMagnitude w num den ≤ infinityBits w := by
  unfold roundMagnitude
  grind

theorem withSign_mod (h : m ≤ infinityBits w) (negative : Bool) : withSign w negative m % signBit w = m := by
  have hlt := infinityBits_lt_signBit w
  unfold withSign
  split
  · rw [Nat.add_mod_left, Nat.mod_eq_of_lt (by omega)]
  · exact Nat.mod_eq_of_lt (by omega)

theorem withSign_lt (h : m ≤ infinityBits w) (negative : Bool) :
    withSign w negative m < 2 * signBit w := by grind [infinityBits_lt_signBit, withSign]

theorem withSign_decode (h : bits < 2 * signBit w) :
    withSign w (decide (signBit w ≤ bits)) (bits % signBit w) = bits := by
  unfold withSign
  split
  · rename_i hs
    rw [decide_eq_true_eq] at hs
    rw [Nat.mod_eq_sub_mod hs, Nat.mod_eq_of_lt (by omega)]
    omega
  · simp_all [Nat.mod_eq_of_lt]

theorem decode_round_ne_nan (w : Width) (r : Rat) : decode w (round w r) ≠ .nan := by
  grind [roundMagnitude_le, decode, round, withSign_mod]

end Parlance.Binary
