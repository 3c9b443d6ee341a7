import Parlance.Number.Rational
import Parlance.Number.Reading
import Parlance.Proofs.Decimals
import Parlance.Proofs.Spelling
/-!
Numbers written as text are read back. Of binary numbers the shortest decimal is read, and rounding it gives
the number.
-/
open List

namespace Parlance.Reading

variable {base n : Nat} {cs : List Char} {c : Char} {bits d : Nat}

open Spelling

/-! ### Digits -/

theorem digit?_of_isDigit (hb : 10 ≤ base) (h : IsDigit c) : digit? base c = some (c.toNat - 48) := by
  have hlow : '0' ≤ c := h.1
  have hhigh : c ≤ '9' := h.2
  have hlt : c.toNat - 48 < base := by have := h.2; omega
  unfold digit?
  grind

theorem le_foldl_digits {α : Type} (hb : 0 < base) (f : α → Nat) (n : Nat) (cs : List α) :
    n ≤ cs.foldl (fun a c => a * base + f c) n := by
  induction cs generalizing n with
  | nil => exact Nat.le_refl n
  | cons c cs ih =>
    refine Nat.le_trans ?_ (ih _)
    exact Nat.le_trans (Nat.le_mul_of_pos_right n hb) (Nat.le_add_right _ _)

theorem readDigits_eq {limit : Nat} {f : Char → Nat} (hb : 0 < base) (hf : ∀ c ∈ cs, digit? base c = some (f c))
    (h : cs.foldl (fun a c => a * base + f c) n < limit) :
    readDigits base limit n cs = .ok (cs.foldl (fun a c => a * base + f c) n) := by
  induction cs generalizing n with
  | nil => rfl
  | cons c cs ih =>
    obtain ⟨hc, hcs⟩ := forall_mem_cons.mp hf
    have hstep := le_foldl_digits hb f (n * base + f c) cs
    rw [readDigits, hc]
    grind

theorem foldl_worth (n : Nat) (cs : List Char) : cs.foldl (fun a c => a * 10 + (c.toNat - 48)) n = worth n cs := by
  simp only [Nat.mul_comm _ 10, worth]

theorem natural_decimal (h : n < 2 ^ bits) : natural 10 bits (toString n) = .ok n := by
  have hne : toString n ≠ "" := fun he => natural_ne_nil n (by rw [he]; rfl)
  have hread : readDigits 10 (2 ^ bits) 0 (toString n).toList = .ok n := by
    rw [readDigits_eq (by decide) (fun c hc => digit?_of_isDigit (by decide) (isDigit_natural hc)), foldl_worth,
      worth_natural]
    rw [foldl_worth, worth_natural]
    exact h
  rw [natural, if_neg hne, Nat.pow_eq, hread]

/-! ### Hexadecimal digits -/

theorem digit?_upperDigit (h : n < 16) : digit? 16 (Hex.upperDigit n) = some n := by
  have hall : ∀ n < 16, digit? 16 (Hex.upperDigit n) = some n := by decide
  exact hall n h

def hexWorth (n : Nat) (cs : List Char) : Nat := cs.foldl (fun a c => a * 16 + (digit? 16 c).getD 0) n

def IsHex (cs : List Char) : Prop := ∀ c ∈ cs, ∃ n < 16, c = Hex.upperDigit n

theorem hexWorth_snoc (cs : List Char) (hd : d < 16) :
    hexWorth 0 (cs ++ [Hex.upperDigit d]) = hexWorth 0 cs * 16 + d := by
  grind [hexWorth, digit?_upperDigit]

theorem IsHex.snoc (h : IsHex cs) (hd : d < 16) : IsHex (cs ++ [Hex.upperDigit d]) := by
  intro c hc
  rcases mem_append.mp hc with hc | hc
  · exact h c hc
  · exact ⟨d, hd, mem_singleton.mp hc⟩

theorem hex_shortest (n : Nat) : IsHex (Hex.shortest Hex.upperDigit n) ∧
    hexWorth 0 (Hex.shortest Hex.upperDigit n) = n ∧ Hex.shortest Hex.upperDigit n ≠ [] := by
  induction n using Nat.strongRecOn with
  | ind n ih =>
    rw [Hex.shortest]
    split
    · rename_i h
      refine ⟨fun c hc => ⟨n, h, mem_singleton.mp hc⟩, ?_, cons_ne_nil _ _⟩
      exact (hexWorth_snoc [] h).trans (by simp [hexWorth])
    · have hmod : n % 16 < 16 := Nat.mod_lt n (by decide)
      obtain ⟨hhex, hworth, -⟩ := ih (n / 16) (by omega)
      refine ⟨hhex.snoc hmod, ?_, by simp⟩
      rw [hexWorth_snoc _ hmod, hworth]
      omega

theorem hex_fixed (width n : Nat) : IsHex (Hex.fixed Hex.upperDigit width n) ∧
    hexWorth 0 (Hex.fixed Hex.upperDigit width n) = n % 16 ^ width := by
  induction width generalizing n with
  | zero => exact ⟨nofun, by simp [Hex.fixed, hexWorth, Nat.mod_one]⟩
  | succ width ih =>
    have hmod : n % 16 < 16 := Nat.mod_lt n (by decide)
    obtain ⟨hhex, hworth⟩ := ih (n / 16)
    refine ⟨hhex.snoc hmod, ?_⟩
    grind [Hex.fixed, hexWorth_snoc, Nat.mod_mul]

theorem natural_hex (hcs : IsHex cs) (hne : cs ≠ []) (hn : hexWorth 0 cs = n)
    (h : n < 2 ^ bits) : natural 16 bits (String.ofList cs) = .ok n := by
  have hs : String.ofList cs ≠ "" := fun he => hne (by rw [← String.toList_ofList (l := cs), he]; rfl)
  have hread : readDigits 16 (2 ^ bits) 0 cs = .ok n := by
    rw [readDigits_eq (f := fun c => (digit? 16 c).getD 0) (by decide)]
    · exact congrArg Except.ok hn
    · intro c hc
      obtain ⟨d, hd, rfl⟩ := hcs c hc
      rw [digit?_upperDigit hd]
      rfl
    · change hexWorth 0 cs < _
      rw [hn]
      exact h
  rw [natural, if_neg hs, Nat.pow_eq, String.toList_ofList, hread]

/-! ### Integers -/

theorem sign_of_isDigit (h : IsDigit c) (cs : List Char) : sign (c :: cs) = (false, c :: cs) := by
  have hplus : c ≠ '+' := by rintro rfl; exact absurd h.1 (by decide)
  have hminus : c ≠ '-' := by rintro rfl; exact absurd h.1 (by decide)
  unfold sign
  grind

theorem sign_natural (n : Nat) : sign (toString n).toList = (false, (toString n).toList) := by
  cases h : (toString n).toList with
  | nil => rfl
  | cons c cs => grind [sign_of_isDigit, isDigit_natural]

theorem sign_int (v : Int) : sign (toString v).toList = (decide (v < 0), (toString v.natAbs).toList) := by
  grind [toString_int, String.toList_append, sign, sign_natural]

theorem signed_natAbs (v : Int) : signed (decide (v < 0)) v.natAbs = v := by grind [signed]

theorem integer?_toString (v : Int) : integer? (toString v) = some v := by
  have hfold {cs : List Char} (h : ∀ c ∈ cs, IsDigit c) (n : Nat) :
      cs.foldlM (fun n c => (digit? 10 c).map (n * 10 + ·)) n = some (worth n cs) := by
    induction cs generalizing n with
    | nil => rfl
    | cons c cs ih =>
      obtain ⟨hc, hcs⟩ := forall_mem_cons.mp h
      rw [foldlM_cons, digit?_of_isDigit (by decide) hc, Option.map_some]
      refine (ih hcs _).trans ?_
      rw [Nat.mul_comm n 10]
      rfl
  rw [integer?, sign_int]
  grind [natural_ne_nil, isDigit_natural, worth_natural, signed_natAbs]

/-! ### Mantissas -/

namespace Mantissa

variable {m : Mantissa} {c : Char}

theorem isDigit_ne {d : Char} (h : IsDigit c) (hd : d.toNat < 48 ∨ 57 < d.toNat) : c ≠ d := by
  rintro rfl
  obtain ⟨h1, h2⟩ := h
  omega

theorem take_digits (allowPoint : Bool) (hb : m.base = 10) {ds : List Char} (hd : ∀ c ∈ ds, IsDigit c)
    (hne : ds ≠ []) (rest : List Char) : m.take allowPoint (ds ++ rest) =
      take allowPoint { m with value := worth m.value ds, count := m.count + ds.length, last := '0' } rest := by
  induction ds generalizing m with
  | nil => exact absurd rfl hne
  | cons c ds ih =>
    obtain ⟨hc, hds⟩ := forall_mem_cons.mp hd
    have hpoint := isDigit_ne hc (d := '.') (.inl (by decide))
    have hscore := isDigit_ne hc (d := '_') (.inr (by decide))
    rw [cons_append, take, if_neg (by simp [hpoint]), if_neg hscore, hb, digit?_of_isDigit (by decide) hc]
    simp only
    cases ds with
    | nil => simp [worth, Nat.mul_comm]
    | cons d ds => grind [worth]

theorem take_stop (allowPoint : Bool) (hc : digit? m.base c = none) (hpoint : c ≠ '.')
    (hscore : c ≠ '_') (cs : List Char) : m.take allowPoint (c :: cs) = (m, c :: cs) := by
  rw [take, if_neg (by simp [hpoint]), if_neg hscore, hc]

theorem take_point (hp : m.point = none) (cs : List Char) : m.take true ('.' :: cs) =
      take true { m with point := some m.count, last := '.', stray := m.stray || m.last = '_' } cs := by
  rw [take, if_pos (by simp [hp])]

end Mantissa

/-! ### Layouts -/

/-- Digits, perhaps with a point among them, and perhaps with an exponent behind them. -/
structure Layout where
  whole : List Char
  fraction : Option (List Char)
  exponent : Option (Bool × List Char)

namespace Layout

variable {l : Layout}

def tail (l : Layout) : List Char :=
  match l.exponent with
  | none => []
  | some (negative, ds) => 'e' :: (if negative then '-' else '+') :: ds

def text (l : Layout) : List Char :=
  l.whole ++ ((l.fraction.map ('.' :: ·)).getD [] ++ l.tail)

def digits (l : Layout) : List Char := l.whole ++ l.fraction.getD []

def places (l : Layout) : Nat := (l.fraction.getD []).length

def power (l : Layout) : Int :=
  match l.exponent with
  | none => 0
  | some (negative, ds) => signed negative (worth 0 ds)

/-- There are digits in front, and in the exponent, which is of a size that is read. -/
structure Proper (l : Layout) : Prop where
  whole : (∀ c ∈ l.whole, IsDigit c) ∧ l.whole ≠ []
  fraction : ∀ c ∈ l.fraction.getD [], IsDigit c
  exponent : ∀ negative ds, l.exponent = some (negative, ds) →
    (∀ c ∈ ds, IsDigit c) ∧ ds ≠ [] ∧ worth 0 ds < 2 ^ 63

theorem take_tail (allowPoint : Bool) {m : Mantissa} (hb : m.base = 10) : m.take allowPoint l.tail = (m, l.tail) := by
  unfold tail
  split
  · rfl
  · exact Mantissa.take_stop allowPoint (by rw [hb]; decide) (by decide) (by decide) _

theorem take_text (hl : l.Proper) : ∃ m : Mantissa, ({ base := 10 } : Mantissa).take true l.text = (m, l.tail) ∧
    m.base = 10 ∧ m.value = worth 0 l.digits ∧ m.count ≠ 0 ∧ m.stray = false ∧ m.last ≠ '_' ∧
      m.fractionDigits = l.places := by
  have hcount : l.whole.length ≠ 0 := by simpa using hl.whole.2
  have hfraction := hl.fraction
  unfold text digits places
  rw [Mantissa.take_digits true rfl hl.whole.1 hl.whole.2]
  generalize l.fraction = fraction at hfraction ⊢
  cases fraction with
  | none =>
    rw [Option.map_none, Option.getD_none, nil_append, take_tail true rfl]
    exact ⟨_, rfl, rfl, by simp, by simpa using hcount, rfl, by simp, rfl⟩
  | some ds =>
    rw [Option.map_some, Option.getD_some, cons_append, Mantissa.take_point rfl]
    by_cases hds : ds = []
    · simp_all [take_tail, Mantissa.fractionDigits]
    · simp_all [Mantissa.take_digits, take_tail, Mantissa.fractionDigits, worth_append]

theorem exponentDigits?_eq {ds : List Char} (hd : ∀ c ∈ ds, IsDigit c) (hne : ds ≠ []) (hlt : worth 0 ds < 2 ^ 63) :
    exponentDigits? ds = some (worth 0 ds) := by
  have htake := Mantissa.take_digits false (m := { base := 10 }) rfl hd hne []
  simp_all [exponentDigits?, Mantissa.take]

theorem binaryExponent?_tail (hl : l.Proper) : binaryExponent? false l.tail = some l.power := by
  have hexponent := hl.exponent
  unfold tail power
  generalize l.exponent = exponent at hexponent ⊢
  cases exponent with
  | none => rfl
  | some p =>
    obtain ⟨negative, ds⟩ := p
    obtain ⟨hd, hne, hlt⟩ := hexponent negative ds rfl
    have hsign : sign ((if negative then '-' else '+') :: ds) = (negative, ds) := by cases negative <;> rfl
    rw [binaryExponent?, if_pos (by decide), hsign]
    simp only
    rw [exponentDigits?_eq hd hne hlt]
    rfl

theorem mem_text (hl : l.Proper) {c : Char} (h : c ∈ l.text) : IsDigit c ∨ c ∈ ['.', 'e', '+', '-'] := by
  obtain ⟨⟨hwhole, -⟩, hfraction, hexponent⟩ := hl
  rcases mem_append.mp h with h | h
  · exact .inl (hwhole c h)
  rcases mem_append.mp h with h | h
  · cases hf : l.fraction with
    | none =>
      rw [hf] at h
      cases h
    | some ds => grind
  · grind [tail]

theorem isHex_text (hl : l.Proper) : isHex l.text = false := by
  unfold isHex
  split
  · rename_i x y rest htext
    have hx := mem_text hl (htext ▸ mem_cons_of_mem _ mem_cons_self : x ∈ l.text)
    have hne (d : Char) (hd : 57 < d.toNat) (hmem : d ∉ ['.', 'e', '+', '-']) : x ≠ d := by
      rintro rfl
      rcases hx with hx | hx
      · exact absurd hx.2 (by omega)
      · exact hmem hx
    simp_all
  · rfl

theorem binaryValue?_text (hl : l.Proper) (negative : Bool) :
    binaryValue? (String.ofList ((if negative then ['-'] else []) ++ l.text)) =
      some (negative, 10, worth 0 l.digits, l.power, l.places) := by
  have hsign : sign ((if negative then ['-'] else []) ++ l.text) = (negative, l.text) := by
    obtain ⟨c, cs, hcs⟩ := exists_cons_of_ne_nil hl.whole.2
    cases negative with
    | true => rfl
    | false =>
      rw [text, hcs]
      exact sign_of_isDigit (hl.whole.1 c (hcs ▸ mem_cons_self)) _
  grind [take_text, binaryValue?, String.toList_ofList, isHex_text, binaryExponent?_tail]

end Layout

end Parlance.Reading

/-! ### Decimals laid out -/

namespace Parlance.Decimal

open Reading Spelling

structure Shows (l : Layout) (d : Decimal) (s : String) : Prop where
  proper : l.Proper
  text : s.toList = l.text
  value : (worth 0 l.digits : ℚ) * 10 ^ (l.power - l.places) = d.value

variable {d : Decimal}

theorem isDigit_zero : IsDigit '0' := by decide

theorem isDigit_text {c : Char} (h : c ∈ d.text) : IsDigit c := by grind [text, isDigit_natural]

theorem worth_text (d : Decimal) : worth 0 d.text = d.digits := by
  unfold text
  split
  · rename_i h
    rw [h]
    rfl
  · exact worth_natural d.digits

theorem value_eq (d : Decimal) : d.value = (worth 0 d.text : ℚ) * 10 ^ (d.point - d.text.length) := by
  rw [worth_text, value, point]
  congr 2
  omega

theorem shows_positional (d : Decimal) : ∃ l : Layout, l.power = 0 ∧ Shows l d d.positional := by
  have hvalue := value_eq d
  have hdigit : ∀ c ∈ d.text, IsDigit c := fun c hc => isDigit_text hc
  unfold positional
  simp only
  generalize d.text = ds at hvalue hdigit ⊢
  generalize d.point = p at hvalue ⊢
  have hzeros {k : Nat} {c : Char} (hc : c ∈ List.replicate k '0') : IsDigit c :=
    eq_of_mem_replicate hc ▸ isDigit_zero
  split
  · split
    · rename_i hds
      refine ⟨⟨['0'], none, none⟩, rfl, ⟨⟨by simp [isDigit_zero], by simp⟩, by simp, by simp⟩, rfl, ?_⟩
      rw [hvalue, hds]
      simp [worth, Layout.digits]
    · rename_i hp hds
      refine ⟨⟨['0'], some (List.replicate (-p).toNat '0' ++ ds), none⟩, rfl,
        ⟨⟨by simp [isDigit_zero], by simp⟩, ?_, by simp⟩, by simp [Layout.text, Layout.tail], ?_⟩
      · exact fun c hc => (mem_append.mp hc).elim hzeros (hdigit c)
      · have hworth : worth 0 (['0'] ++ (List.replicate (-p).toNat '0' ++ ds)) = worth 0 ds := by
          rw [worth_append, worth_append, show worth 0 ['0'] = 0 from rfl, worth_zeros, Nat.zero_mul]
        grind [Layout.digits, Layout.power, Layout.places]
  · rename_i hp
    split
    · rename_i hle
      refine ⟨⟨ds ++ List.replicate (p.toNat - ds.length) '0', none, none⟩, rfl, ⟨⟨?_, ?_⟩, by simp, by simp⟩,
        by simp [Layout.text, Layout.tail], ?_⟩
      · exact fun c hc => (mem_append.mp hc).elim (hdigit c) hzeros
      · grind
      · rw [hvalue, Layout.digits, Option.getD_none, append_nil, worth_append, worth_zeros,
          show p - (ds.length : Int) = ((p.toNat - ds.length : Nat) : Int) by omega]
        simp [Layout.power, Layout.places]
    · rename_i hlt
      refine ⟨⟨ds.take p.toNat, some (ds.drop p.toNat), none⟩, rfl, ⟨⟨?_, ?_⟩, ?_, by simp⟩,
        by simp [Layout.text, Layout.tail], ?_⟩
      · exact fun c hc => hdigit c (mem_of_mem_take hc)
      · grind [take_eq_nil_iff]
      · exact fun c hc => hdigit c (mem_of_mem_drop hc)
      · grind [Layout.digits, take_append_drop, Layout.power, Layout.places]

theorem exponent_digits (n : Nat) : ∃ ds : List Char,
    (if (toString n).length < 2 then "0" ++ toString n else toString n).toList = ds ∧
      (∀ c ∈ ds, IsDigit c) ∧ ds ≠ [] ∧ worth 0 ds = n := by
  split
  · refine ⟨'0' :: (toString n).toList, by rw [String.toList_append]; rfl, ?_, cons_ne_nil _ _, ?_⟩
    · grind [isDigit_zero, isDigit_natural]
    · exact worth_natural n
  · grind [isDigit_natural, natural_ne_nil, worth_natural]

theorem shows_scientific (hd : d.digits ≠ 0) (hp : (d.point - 1).natAbs < 2 ^ 63) :
    ∃ l : Layout, l.power = d.point - 1 ∧ Shows l d d.scientific := by
  have hvalue := value_eq d
  have hdigit : ∀ c ∈ d.text, IsDigit c := fun c hc => isDigit_text hc
  have hne : d.text ≠ [] := by
    rw [text, if_neg hd]
    exact natural_ne_nil _
  obtain ⟨c, cs, htext⟩ := exists_cons_of_ne_nil hne
  rw [htext] at hvalue hdigit
  obtain ⟨hc, hcs⟩ := forall_mem_cons.mp hdigit
  obtain ⟨ds, hds, hisDigit, hdsne, hworth⟩ := exponent_digits (d.point - 1).natAbs
  have hpower : (⟨[c], if cs = [] then none else some cs, some (decide (d.point - 1 < 0), ds)⟩ : Layout).power =
      d.point - 1 := by
    rw [Layout.power]
    simp only
    rw [hworth, signed_natAbs]
  refine ⟨_, hpower, ⟨⟨by simpa using hc, by simp⟩, ?_, ?_⟩, ?_, ?_⟩
  · grind
  · grind
  · unfold scientific
    simp only [htext, hd, if_false, String.toList_append, String.toList_ofList, hds]
    by_cases hnil : cs = [] <;> by_cases hneg : d.point - 1 < 0 <;> simp [Layout.text, Layout.tail, hnil, hneg]
  · grind [Layout.digits, Layout.places]

theorem shows_compact (hp : (d.point - 1).natAbs ≤ 100000) :
    ∃ l : Layout, l.power.natAbs ≤ 100000 ∧ Shows l d d.compact := by
  unfold compact
  simp only
  split
  · grind [shows_scientific]
  · obtain ⟨l, hpower, hl⟩ := shows_positional d
    exact ⟨l, by simp [hpower], hl⟩

/-! ### Where the point stands -/

theorem value_bounds (hd : d.digits ≠ 0) : (10 : ℚ) ^ (d.point - 1) ≤ d.value ∧ d.value < 10 ^ d.point := by
  have hlen : d.text.length = (Nat.toDigits 10 d.digits).length := by
    rw [text, if_neg hd, toList_natural]
  have hpos : 0 < d.text.length := by
    rw [hlen]
    exact Nat.length_toDigits_pos
  have hbelow : d.digits < 10 ^ d.text.length := by
    rw [hlen, ← Nat.length_toDigits_le_iff (by decide) (hlen ▸ hpos)]
  have habove : 10 ^ (d.text.length - 1) ≤ d.digits := by
    rcases Nat.eq_zero_or_pos (d.text.length - 1) with h | h
    · rw [h]
      omega
    · refine Nat.le_of_not_lt fun hlt => ?_
      rw [← Nat.length_toDigits_le_iff (by decide) h] at hlt
      omega
  have hbelow' : (d.digits : ℚ) < 10 ^ d.text.length := by exact_mod_cast hbelow
  have habove' : (10 : ℚ) ^ (d.text.length - 1) ≤ d.digits := by exact_mod_cast habove
  have hexp := ten_zpow_pos d.exponent
  rw [value, point]
  constructor
  · rw [show (d.text.length : Int) + d.exponent - 1 = ((d.text.length - 1 : Nat) : Int) + d.exponent by omega,
      zpow_add₀ (by norm_num), zpow_natCast]
    gcongr
  · rw [zpow_add₀ (by norm_num), zpow_natCast]
    gcongr

/-- Decimals between powers of two have their points where powers of ten would have them. -/
theorem point_range {a b : Int} (ha : a ≤ 0) (hb : 0 ≤ b) (hlow : (2 : ℚ) ^ a ≤ d.value) (hhigh : d.value < 2 ^ b) :
    a < d.point ∧ d.point ≤ b := by
  have hd : d.digits ≠ 0 := by
    intro h
    have hzero : d.value = 0 := by simp [value, h]
    exact absurd (Binary.two_zpow_pos a) (not_lt_of_ge (hzero ▸ hlow))
  obtain ⟨hge, hlt⟩ := value_bounds hd
  have hone : (1 : ℚ) < 10 := by norm_num
  have hsmall : (10 : ℚ) ^ a ≤ 2 ^ a := by
    obtain ⟨n, rfl⟩ := Int.exists_eq_neg_ofNat ha
    rw [zpow_neg, zpow_neg, zpow_natCast, zpow_natCast]
    gcongr
    norm_num
  have hlarge : (2 : ℚ) ^ b ≤ 10 ^ b := by
    obtain ⟨n, rfl⟩ := Int.eq_ofNat_of_zero_le hb
    rw [zpow_natCast, zpow_natCast]
    gcongr
    norm_num
  refine ⟨(zpow_lt_zpow_iff_right₀ hone).mp (by linarith), ?_⟩
  have hlt : d.point - 1 < b := (zpow_lt_zpow_iff_right₀ hone).mp (by linarith)
  omega

theorem point_shortest {w : Binary.Width} {m : Nat} {e : Int} (hc : Binary.Canonical w m e) :
    ((shortest w m e).point - 1).natAbs ≤ 100000 := by
  rcases Nat.eq_zero_or_pos m with rfl | hm
  · simp [shortest, point, text]
  · obtain ⟨hlow, hhigh⟩ := (roundsTo_shortest hc hm).bounds hc hm
    obtain ⟨hleast, hmost⟩ := hc.exponent_range
    have hone : (1 : ℚ) ≤ 2 := by norm_num
    obtain ⟨h1, h2⟩ := point_range (by decide : (-1075 : Int) ≤ 0) (by decide : (0 : Int) ≤ 1025)
      ((zpow_le_zpow_right₀ hone (by omega)).trans hlow) (hhigh.trans_le (zpow_le_zpow_right₀ hone (by omega)))
    omega

end Parlance.Decimal

/-! ### Binary numbers -/

namespace Parlance.Reading

variable {w : Binary.Width} {c : Char} {m bits : Nat} {e : Int}

open Spelling

theorem lowerChar_of_isDigit (h : IsDigit c) : lowerChar c = c := by
  have hlow : ¬ 'A' ≤ c := fun hle => by
    have hle' : 65 ≤ c.toNat := hle
    have := h.2
    omega
  simp [lowerChar, hlow]

theorem special?_of_digit (w : Binary.Width) (hc : IsDigit c) (cs : List Char) (negative : Bool) :
    special? w (String.ofList ((if negative then ['-'] else []) ++ c :: cs)) = none := by
  have hi := Mantissa.isDigit_ne hc (d := 'i') (.inr (by decide))
  have hn := Mantissa.isDigit_ne hc (d := 'n') (.inr (by decide))
  have hminus : lowerChar '-' = '-' := rfl
  unfold special?
  rw [String.toList_ofList]
  cases negative with
  | true => simp [lowerChar_of_isDigit hc, hminus, sign, hi]
  | false => simp [lowerChar_of_isDigit hc, sign_of_isDigit hc, hi, hn]

theorem powerOf_eq (b : Nat) (e : Int) : powerOf b e = (b : ℚ) ^ e := by
  unfold powerOf
  split
  · rename_i h
    obtain ⟨n, rfl⟩ := Int.eq_ofNat_of_zero_le h
    simp
  · rename_i h
    obtain ⟨n, rfl⟩ := Int.exists_eq_neg_ofNat (by omega : e ≤ 0)
    simp [Rat.mkRat_eq_div]

theorem natAbs_div_den {r : ℚ} (h : 0 ≤ r) : (r.num.natAbs : ℚ) / r.den = r := by
  have hnum : ((r.num.natAbs : Int) : ℚ) = r.num := by rw [Int.natAbs_of_nonneg (Rat.num_nonneg.mpr h)]
  rw [← Int.cast_natCast, hnum, Rat.num_div_den]

theorem roundMagnitude_shortest (hc : Binary.Canonical w m e) :
    Binary.roundMagnitude w (Decimal.shortest w m e).value.num.natAbs (Decimal.shortest w m e).value.den =
      Binary.magnitude w m e := by
  rcases Nat.eq_zero_or_pos m with rfl | hm
  · have he : e = w.leastExponent := by
      refine le_antisymm (not_lt.mp fun hlt => ?_) hc.least
      exact absurd (hc.normal hlt) (by simp)
    simp_all [Decimal.shortest, Decimal.value, Binary.roundMagnitude, Binary.magnitude]
  · have hround := Decimal.roundsTo_shortest hc hm
    have hpos := (Binary.two_zpow_pos _).le.trans (hround.bounds hc hm).1
    grind [Binary.roundMagnitude_eq, Rat.den_pos, natAbs_div_den]

theorem render_finite {negative : Bool}
    (h : Binary.decode w bits = .finite negative m e) : ∃ l : Layout, l.Proper ∧ l.power.natAbs ≤ 100000 ∧
      Binary.render w bits = String.ofList ((if negative then ['-'] else []) ++ l.text) ∧
      (worth 0 l.digits : ℚ) * 10 ^ (l.power - l.places) = (Decimal.shortest w m e).value := by
  obtain ⟨hc, -, -⟩ := Binary.decode_finite h
  obtain ⟨l, hpower, hl, htext, hvalue⟩ := Decimal.shows_compact (Decimal.point_shortest hc)
  refine ⟨l, hl, hpower, ?_, hvalue⟩
  rw [Binary.render, h, ← htext, String.ofList_append, String.ofList_toList]
  cases negative <;> rfl

theorem binary_render (hlt : bits < 2 * Binary.signBit w)
    (hnan : Binary.decode w bits ≠ .nan) : binary w (Binary.render w bits) = .ok bits := by
  cases hdecode : Binary.decode w bits with
  | nan => exact absurd hdecode hnan
  | infinite negative =>
    obtain ⟨hmod, rfl⟩ := Binary.decode_infinite hdecode
    have hspecial (negative : Bool) : special? w (if negative then "-Inf" else "+Inf") =
        some (Binary.withSign w negative (Binary.infinityBits w)) := by
      cases negative <;> rfl
    grind [Binary.render, binary, Binary.withSign_decode]
  | finite negative m e =>
    obtain ⟨l, hl, hpower, htext, hvalue⟩ := render_finite hdecode
    obtain ⟨hc, hmod, hnegative⟩ := Binary.decode_finite hdecode
    have hspecial : special? w (String.ofList ((if negative then ['-'] else []) ++ l.text)) = none := by
      obtain ⟨c, cs, hcs⟩ := exists_cons_of_ne_nil hl.whole.2
      rw [Reading.Layout.text, hcs]
      exact special?_of_digit w (hl.whole.1 c (hcs ▸ mem_cons_self)) _ negative
    have hclamp : min exponentLimit (max (-exponentLimit) l.power) = l.power := by
      unfold exponentLimit
      omega
    have hrat : mkRat (worth 0 l.digits) 1 * powerOf 10 (l.power - l.places) = (Decimal.shortest w m e).value := by
      rw [← hvalue, powerOf_eq, Rat.mkRat_eq_div]
      simp
    rw [htext, binary, hspecial, Layout.binaryValue?_text hl]
    simp only [if_true]
    rw [hclamp, hrat, roundMagnitude_shortest hc, if_neg (Nat.ne_of_lt hc.finite), ← hmod, hnegative,
      Binary.withSign_decode hlt]

/-! ### Rational numbers -/

theorem mantissaStart_natural (allowPoint : Bool) (n : Nat) :
    mantissaStart allowPoint (toString n).toList = ({ base := 10 }, (toString n).toList, false) := by
  rcases Nat.eq_zero_or_pos n with rfl | hn
  · rfl
  · obtain ⟨c, cs, hcs, hc⟩ := natural_leading hn
    rw [hcs]
    unfold mantissaStart
    grind

theorem mantissa?_natural (allowPoint : Bool) (n : Nat) : ∃ m : Mantissa,
    mantissa? allowPoint (toString n).toList = some (m, []) ∧ m.base = 10 ∧ m.value = n ∧ m.fractionDigits = 0 := by
  have htake := Mantissa.take_digits allowPoint (m := { base := 10 }) rfl (fun c hc => isDigit_natural hc)
    (natural_ne_nil n) []
  rw [append_nil, Mantissa.take, worth_natural] at htake
  have hread : mantissa? allowPoint (toString n).toList =
      some ({ base := 10, value := n, count := 0 + (toString n).toList.length, last := '0' }, []) := by
    have hlen : 0 + (toString n).toList.length ≠ 0 := by
      rw [Nat.zero_add, ne_eq, length_eq_zero_iff]
      exact natural_ne_nil n
    rw [mantissa?, mantissaStart_natural]
    simp only [htake, hlen, if_false]
    rfl
  exact ⟨_, hread, rfl, rfl, rfl⟩

theorem slash_notMem (v : Int) : '/' ∉ (toString v).toList := by
  have hnatural (n : Nat) : '/' ∉ (toString n).toList := fun h => absurd (isDigit_natural h) (by decide)
  grind [toString_int, String.toList_append]

theorem toList_fraction {r : Rat} (h : r.den ≠ 1) :
    (Rational.render r).toList = (toString r.num).toList ++ '/' :: (toString r.den).toList := by
  simp_all [Rational.render, toString]

theorem rational?_render (r : Rat) : rational? (Rational.render r) = some r := by
  by_cases hden : r.den = 1
  · obtain ⟨m, hm, hbase, hvalue, hplaces⟩ := mantissa?_natural true r.num.natAbs
    have hint : (r.num : ℚ) = r := Rat.coe_int_num_of_den_eq_one hden
    have hone (b : Nat) : powerOf b 0 = 1 := by rw [powerOf_eq, zpow_zero]
    rw [Rational.render, if_pos hden, rational?, cutAt_of_notMem (slash_notMem _)]
    simp only [sign_int, hm, exponent?, bind, Option.bind_some, hvalue, hplaces, hbase]
    grind [Rat.num_eq_zero, signed_natAbs, Rat.mkRat_one]
  · obtain ⟨m, hm, -, hvalue, -⟩ := mantissa?_natural false r.num.natAbs
    obtain ⟨d, hd, -, hvalue', -⟩ := mantissa?_natural false r.den
    rw [rational?, toList_fraction hden, cutAt_append (slash_notMem _)]
    simp only [sign_int, hm, hd, bind, Option.bind_some, hvalue, hvalue', signed_natAbs, Rat.mkRat_self]
    simp [r.den_nz]

end Parlance.Reading
