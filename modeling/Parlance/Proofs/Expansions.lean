import Mathlib.Data.Nat.Factorization.Defs
import Parlance.Proofs.NumberTexts
/-!
Decimal expansions. A number whose denominator has no prime but two and five is written with nothing lost;
any other is rounded, and never from half way.
-/
namespace Parlance.Rational

open List Reading Spelling

/-! ### Texts with a point -/

/-- Where the point falls among the digits of a number of units. -/
def layout (places units : Nat) : Layout :=
  let ds := padZeros (places + 1) (toString units).toList
  ⟨ds.take (ds.length - places), if places = 0 then none else some (ds.drop (ds.length - places)), none⟩

variable {places units : Nat}

theorem le_length_padZeros (width : Nat) (ds : List Char) : width ≤ (padZeros width ds).length := by
  rw [padZeros, length_append, length_replicate]
  omega

theorem isDigit_padZeros {width : Nat} {c : Char} (h : c ∈ padZeros width (toString units).toList) : IsDigit c := by
  rcases mem_append.mp h with h | h
  · rw [eq_of_mem_replicate h]
    decide
  · exact isDigit_natural h

theorem digits_layout : (layout places units).digits = padZeros (places + 1) (toString units).toList := by
  unfold layout Layout.digits
  by_cases h : places = 0 <;> simp [h]

theorem worth_layout : worth 0 (layout places units).digits = units := by
  rw [digits_layout, padZeros, worth_append, worth_zeros, Nat.zero_mul, worth_natural]

theorem places_layout : (layout places units).places = places := by
  grind [le_length_padZeros, layout, Layout.places]

theorem proper_layout : (layout places units).Proper where
  whole := by
    have hlen := le_length_padZeros (places + 1) (toString units).toList
    grind [isDigit_padZeros, layout, length_take]
  fraction := fun c hc => by grind [layout, isDigit_padZeros]
  exponent := fun _ _ h => by cases h

theorem withPoint_eq : withPoint places units = String.ofList (layout places units).text := by
  unfold withPoint layout Layout.text Layout.tail
  by_cases h : places = 0 <;> simp [h]

theorem withPoint_zero (units : Nat) : withPoint 0 units = toString units := by
  have hnone : 1 - (toString units).toList.length = 0 :=
    Nat.sub_eq_zero_of_le (length_pos_iff.mpr (natural_ne_nil units))
  grind [withPoint, padZeros, String.ofList_toList]

/-- A number rounded to some places is read as that many units of the last of them. -/
theorem binaryValue?_fixed (places : Nat) (r : ℚ) : binaryValue? (fixed places r) =
    some (decide (r < 0), 10, (2 * (r.num.natAbs * 10 ^ places) + r.den) / (2 * r.den), 0, places) := by
  generalize hunits : (2 * (r.num.natAbs * 10 ^ places) + r.den) / (2 * r.den) = units
  have hread := Layout.binaryValue?_text (l := layout places units) proper_layout (decide (r < 0))
  rw [worth_layout, places_layout, String.ofList_append, ← withPoint_eq] at hread
  refine Eq.trans ?_ hread
  rw [fixed, ← hunits]
  by_cases h : r < 0 <;> simp [h]

/-! ### How many places -/

theorem factorOut_spec {p fuel n : Nat} (hp : 2 ≤ p) (hn : 0 < n) (hfuel : n < 2 ^ fuel) :
    n = p ^ (factorOut p fuel n).1 * (factorOut p fuel n).2 ∧ ¬ p ∣ (factorOut p fuel n).2 := by
  induction fuel generalizing n with
  | zero => omega
  | succ fuel ih =>
    rw [factorOut]
    split
    · rename_i h
      obtain ⟨m, rfl⟩ : p ∣ n := Nat.dvd_of_mod_eq_zero (by simpa [hn.ne'] using h)
      have hlt : m < 2 ^ fuel := by
        have := Nat.mul_le_mul_right m hp
        omega
      grind [Nat.mul_div_cancel_left]
    · grind [Nat.dvd_iff_mod_eq_zero]

theorem fixed_zero {r : ℚ} (h : r.den = 1) : fixed 0 r = toString r.num := by
  have hunits : (2 * (r.num.natAbs * Nat.pow 10 0) + r.den) / (2 * r.den) = r.num.natAbs := by
    rw [h]
    simp
    omega
  rw [fixed, hunits, withPoint_zero, toString_int]
  split <;> simp

/-- A number is written with as many places as its denominator has twos or fives, whichever are more,
unless there is more to it. -/
theorem decimal_eq (r : ℚ) : ∃ twos fives rest : Nat, r.den = 2 ^ twos * (5 ^ fives * rest) ∧ ¬ 2 ∣ rest ∧ ¬ 5 ∣ rest ∧
    decimal r = fixed (if rest = 1 then max twos fives else maxDecimals) r := by
  have hlt : r.den < 2 ^ r.den.log2.succ := Nat.lt_log2_self
  obtain ⟨h2, hnot2⟩ := factorOut_spec (p := 2) (by decide) r.den_pos hlt
  rw [decimal]
  generalize factorOut 2 r.den.log2.succ r.den = a at h2 hnot2 ⊢
  obtain ⟨twos, m⟩ := a
  have hm : 0 < m := Nat.pos_of_ne_zero fun h => r.den_ne_zero (h2.trans (by simp [h]))
  have hle : m ≤ r.den := Nat.le_of_dvd r.den_pos ⟨2 ^ twos, by rw [Nat.mul_comm]; exact h2⟩
  obtain ⟨h5, hnot5⟩ := factorOut_spec (p := 5) (by decide) hm (hle.trans_lt hlt)
  simp only
  generalize factorOut 5 r.den.log2.succ m = b at h5 hnot5 ⊢
  obtain ⟨fives, rest⟩ := b
  refine ⟨twos, fives, rest, h5 ▸ h2, fun h => hnot2 (h5 ▸ h.mul_left _), hnot5, ?_⟩
  split
  · rename_i h
    obtain ⟨htwos, rfl⟩ := mul_eq_one.mp (h2.symm.trans h)
    obtain ⟨hfives, rfl⟩ := mul_eq_one.mp h5.symm
    have htwos : twos = 0 := by simpa using htwos
    have hfives : fives = 0 := by simpa using hfives
    rw [if_pos rfl, htwos, hfives, Nat.max_self, fixed_zero h]
  · rfl

variable {r : ℚ} {twos fives rest k n : Nat}

theorem rest_eq_one_iff (hn : n ≠ 0) (h : n = 2 ^ twos * (5 ^ fives * rest)) (h2 : ¬ 2 ∣ rest) (h5 : ¬ 5 ∣ rest) :
    rest = 1 ↔ n.primeFactors ⊆ {2, 5} := by
  constructor
  · rintro rfl p hp
    obtain ⟨hprime, hdvd, -⟩ := Nat.mem_primeFactors.mp hp
    rw [h, Nat.mul_one, hprime.dvd_mul] at hdvd
    rcases hdvd with hdvd | hdvd
    · simp [(Nat.prime_dvd_prime_iff_eq hprime Nat.prime_two).mp (hprime.dvd_of_dvd_pow hdvd)]
    · simp [(Nat.prime_dvd_prime_iff_eq hprime Nat.prime_five).mp (hprime.dvd_of_dvd_pow hdvd)]
  · intro hsub
    by_contra hne
    obtain ⟨p, hprime, hdvd⟩ := Nat.exists_prime_and_dvd hne
    have hmem : p ∈ n.primeFactors := Nat.mem_primeFactors.mpr ⟨hprime, h ▸ (hdvd.mul_left _).mul_left _, hn⟩
    grind

theorem den_dvd (h : r.den ∣ r.num.natAbs * k) : r.den ∣ k := r.reduced.symm.dvd_of_dvd_mul_left h

theorem factorization_twos_fives (twos fives : ℕ) : (2 ^ twos * (5 ^ fives * 1)).factorization 2 = twos ∧
    (2 ^ twos * (5 ^ fives * 1)).factorization 5 = fives := by
  rw [Nat.factorization_mul (by simp) (by simp)]
  simp [Nat.prime_two.factorization, Nat.prime_five.factorization]

theorem max_factorization_le (h : ∃ z : ℤ, r * 10 ^ k = z) :
    max (r.den.factorization 2) (r.den.factorization 5) ≤ k := by
  obtain ⟨z, hz⟩ := h
  have hdvd : r.den ∣ 10 ^ k := by
    refine den_dvd ⟨z.natAbs, ?_⟩
    have hmul : (r.num * 10 ^ k : ℤ) = r.den * z := by
      rw [← r.num_div_den, div_mul_eq_mul_div, div_eq_iff (by simp)] at hz
      rw [mul_comm (r.den : ℤ)]
      exact_mod_cast hz
    simpa [Int.natAbs_mul, Int.natAbs_pow] using congrArg Int.natAbs hmul
  have hle := (Nat.factorization_le_iff_dvd r.den_ne_zero (by simp)).mpr hdvd
  obtain ⟨h2, h5⟩ := factorization_twos_fives k k
  rw [mul_one, ← mul_pow] at h2 h5
  exact max_le ((hle 2).trans_eq h2) ((hle 5).trans_eq h5)

/-! ### What is written -/

theorem abs_signed_sub (r : ℚ) (units places : Nat) : |((signed (decide (r < 0)) units : ℤ) : ℚ) / 10 ^ places - r| =
      |units - ((r.num.natAbs * 10 ^ places : ℕ) : ℚ) / r.den| / 10 ^ places := by
  have hcast (negative : Bool) (n : Nat) : ((signed negative n : ℤ) : ℚ) = (if negative then -1 else 1) * n := by
    cases negative <;> simp [signed]
  have hone (negative : Bool) : |(if negative then -1 else 1 : ℚ)| = 1 := by cases negative <;> simp
  have hr : ((signed (decide (r < 0)) r.num.natAbs : ℤ) : ℚ) / r.den = r := by
    rw [show decide (r < 0) = decide (r.num < 0) by simp, signed_natAbs, Rat.num_div_den]
  have hpow : (0 : ℚ) < 10 ^ places := by positivity
  rw [hcast] at hr ⊢
  calc |(if decide (r < 0) then -1 else 1) * (units : ℚ) / 10 ^ places - r|
      = |(if decide (r < 0) then -1 else 1) * (units : ℚ) / 10 ^ places -
          (if decide (r < 0) then -1 else 1) * (r.num.natAbs : ℚ) / r.den| := by rw [hr]
    _ = |(if decide (r < 0) then -1 else 1 : ℚ)| *
          (|(units : ℚ) - r.num.natAbs * 10 ^ places / r.den| / 10 ^ places) := by
      rw [← abs_of_pos hpow, ← abs_div, ← abs_mul, abs_of_pos hpow]
      congr 1
      field_simp
    _ = _ := by grind

/-- Rounding adds or takes away less than half a unit where no number of halves would be exact. -/
theorem rounded_near {d : Nat} (hd : 0 < d) (h : ¬ d ∣ 2 * n) :
    |(((2 * n + d) / (2 * d) : ℕ) : ℚ) - n / d| < 1 / 2 := by
  have hdiv := Nat.div_add_mod (2 * n + d) (2 * d)
  have hmod := Nat.mod_lt (2 * n + d) (Nat.mul_pos Nat.two_pos hd)
  have hne : (2 * n + d) % (2 * d) ≠ 0 := fun h0 => h <|
    (Nat.dvd_add_left (dvd_refl d)).mp ((dvd_mul_left d 2).trans (Nat.dvd_of_mod_eq_zero h0))
  generalize (2 * n + d) / (2 * d) = q at hdiv ⊢
  generalize (2 * n + d) % (2 * d) = m at hdiv hmod hne
  have hq : (2 * d * q + m : ℚ) = 2 * n + d := by exact_mod_cast hdiv
  have hm : (0 : ℚ) < m := by exact_mod_cast Nat.pos_of_ne_zero hne
  have hmd : (m : ℚ) < 2 * d := by exact_mod_cast hmod
  have hd' : (0 : ℚ) < d := by exact_mod_cast hd
  have heq : (q : ℚ) - n / d = (d - m) / (2 * d) := by
    field_simp
    linarith
  rw [heq, abs_div, abs_of_pos (by positivity : (0 : ℚ) < 2 * d), div_lt_iff₀ (by positivity), abs_lt]
  constructor <;> linarith

/-- Written out, a number is read as itself if its denominator has no prime but two and five; there are
then as many digits behind the point as the higher of their powers, and fewer would not do. Any other
number is read as the one nearest to it of those with forty digits behind the point. -/
theorem decimal_reads (r : ℚ) : ∃ places units : ℕ,
    binaryValue? (decimal r) = some (decide (r < 0), 10, units, 0, places) ∧ (r.den.primeFactors ⊆ {2, 5} →
      ((signed (decide (r < 0)) units : ℤ) : ℚ) / 10 ^ places = r ∧
      places = max (r.den.factorization 2) (r.den.factorization 5) ∧
      ∀ k : ℕ, (∃ z : ℤ, r * 10 ^ k = z) → places ≤ k) ∧ (¬ r.den.primeFactors ⊆ {2, 5} →
      places = 40 ∧ |((signed (decide (r < 0)) units : ℤ) : ℚ) / 10 ^ places - r| < 1 / 2 / 10 ^ places) := by
  obtain ⟨twos, fives, rest, hden, h2, h5, heq⟩ := decimal_eq r
  have hrest := rest_eq_one_iff r.den_ne_zero hden h2 h5
  rw [heq]
  refine ⟨_, _, binaryValue?_fixed _ r, fun hfinite => ?_, fun hinfinite => ?_⟩
  · obtain rfl := hrest.mpr hfinite
    obtain ⟨hfac2, hfac5⟩ := factorization_twos_fives twos fives
    rw [← hden] at hfac2 hfac5
    rw [if_pos rfl, ← hfac2, ← hfac5]
    refine ⟨?_, rfl, fun k hk => max_factorization_le hk⟩
    have hten : r.den ∣ 10 ^ max (r.den.factorization 2) (r.den.factorization 5) := by
      rw [hfac2, hfac5, hden, Nat.mul_one, show 10 = 2 * 5 from rfl, mul_pow]
      exact mul_dvd_mul (pow_dvd_pow 2 (le_max_left _ _)) (pow_dvd_pow 5 (le_max_right _ _))
    obtain ⟨q, hq⟩ := hten.mul_left r.num.natAbs
    have hexact : (2 * (r.den * q) + r.den) / (2 * r.den) = q := by
      have hpos := r.den_pos
      rw [← mul_assoc, Nat.mul_add_div (by omega), Nat.div_eq_of_lt (by omega), Nat.add_zero]
    rw [← sub_eq_zero, ← abs_eq_zero, abs_signed_sub, hq, hexact]
    simp [r.den_ne_zero]
  · rw [if_neg (mt hrest.mp hinfinite)]
    refine ⟨rfl, ?_⟩
    have hnot : ¬ r.den ∣ 2 * (r.num.natAbs * 10 ^ maxDecimals) := by
      intro hdvd
      rw [Nat.mul_left_comm] at hdvd
      have htwice : 2 * 10 ^ maxDecimals = 2 ^ 41 * (5 ^ 40 * 1) := by norm_num [maxDecimals]
      have hsub := (rest_eq_one_iff (by simp) htwice (by simp) (by simp)).mp rfl
      exact hinfinite ((Nat.primeFactors_mono (den_dvd hdvd) (by simp)).trans hsub)
    rw [abs_signed_sub]
    gcongr
    exact rounded_near r.den_pos hnot

end Parlance.Rational
