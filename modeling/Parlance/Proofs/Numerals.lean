import Mathlib.Data.Nat.Digits.Defs
import Parlance.Proofs.NumberTexts
/-!
Number literals. Whether one denotes a number, and which, follows from the digits alone.
-/
open List

namespace Parlance.Numeral

def plain (ds : Bytes) : Bytes := ds.filter (· != Byte.underscore)

abbrev digits (ds : Bytes) : List Nat := ds.map Byte.digitValue

def IsBase (n : Nat) : Prop := 2 ≤ n ∧ n ≤ 36

instance (n : Nat) : Decidable (IsBase n) := inferInstanceAs (Decidable (_ ∧ _))

/-- The parts of a literal: what names its base, if anything does, what stands before its point and,
if it has one, what stands behind it. -/
structure Literal where
  mark : Option Bytes
  integer : Bytes
  fraction : Option Bytes

namespace Literal

def text (l : Literal) : Bytes :=
  (l.mark.map (· ++ [Byte.hash])).getD [] ++ (l.integer ++ (l.fraction.map (Byte.point :: ·)).getD [])

def radix (l : Literal) : Nat := ((l.mark.map digits).map fun ds => Nat.ofDigits 10 ds.reverse).getD 10

/-- The base is named in decimal digits, and the fraction has only digits of the base. -/
structure Spelled (l : Literal) : Prop where
  mark : ∀ ds ∈ l.mark.map digits, ∀ d ∈ ds, d < 10
  integer : digits l.integer ≠ [] ∧ ∀ d ∈ digits l.integer, d < 36
  fraction : ∀ ds ∈ l.fraction.map digits, ds ≠ [] ∧ ∀ d ∈ ds, d < if IsBase l.radix then l.radix else 36

end Literal

variable {ds text : Bytes} {l : Literal} {b : UInt8} {base : Nat}

theorem notMem_of_lt (h : ∀ d ∈ digits ds, d < base) (hb : base ≤ Byte.digitValue b) :
    b ∉ ds := fun hmem => Nat.not_lt.mpr hb (h _ (mem_map_of_mem hmem))

theorem positional_eq (base : Nat) (ds : Bytes) : positional base ds = Nat.ofDigits base (digits ds).reverse := by
  induction ds using List.reverseRecOn with
  | nil => rfl
  | append_singleton ds d ih => grind [positional, Nat.ofDigits_cons]

/-! ### The base -/

theorem sub_of_digitValue (h : Byte.digitValue b < 10) : (b - 48).toNat = Byte.digitValue b := by
  grind [Byte.digitValue, Byte.isDigit, UInt8.le_iff_toNat_le, UInt8.toNat_sub]

theorem foldlM_step (h : ∀ b ∈ plain ds, Byte.digitValue b < 10) {n : Nat} (hn : n ≤ 36) :
    ds.foldlM Scan.readBase?.step n =
      if (plain ds).foldl (fun n b => n * 10 + Byte.digitValue b) n ≤ 36 then
        some ((plain ds).foldl (fun n b => n * 10 + Byte.digitValue b) n)
      else none := by
  induction ds generalizing n with
  | nil => simp [plain, hn]
  | cons b ds ih =>
    rw [foldlM_cons, Scan.readBase?.step]
    by_cases hb : b = Byte.underscore
    · grind [plain]
    · have hplain : plain (b :: ds) = b :: plain ds := by simp [plain, hb]
      rw [hplain] at h ⊢
      obtain ⟨hd, hds⟩ := forall_mem_cons.mp h
      have hle := Reading.le_foldl_digits (by decide : 0 < 10) Byte.digitValue (n * 10 + Byte.digitValue b) (plain ds)
      grind [sub_of_digitValue]

theorem readBase?_eq (h : ∀ b ∈ plain ds, Byte.digitValue b < 10) : Scan.readBase? ds =
    if IsBase (Nat.ofDigits 10 (digits (plain ds)).reverse) then some (Nat.ofDigits 10 (digits (plain ds)).reverse)
    else none := by
  rw [Scan.readBase?, foldlM_step h (Nat.zero_le _), ← positional_eq, positional]
  unfold IsBase
  grind

/-! ### Reading -/

theorem plain_eq_self (hb : base ≤ 36) (h : ∀ d ∈ digits ds, d < base) : plain ds = ds := by
  have hnot := notMem_of_lt h (b := Byte.underscore) hb
  refine filter_eq_self.mpr fun b hmem => bne_iff_ne.mpr ?_
  rintro rfl
  exact hnot hmem

theorem splitBase_text (hl : l.Spelled) {rest : Bytes} (hrest : Byte.hash ∉ rest) :
    if IsBase l.radix then splitBase ((l.mark.map (· ++ [Byte.hash])).getD [] ++ rest) = .ok (l.radix, rest)
    else ∃ e, splitBase ((l.mark.map (· ++ [Byte.hash])).getD [] ++ rest) = .error e := by
  have hmark := hl.mark
  unfold Literal.radix
  cases hm : l.mark with
  | none => simp [splitBase, cutAt_of_notMem hrest, IsBase]
  | some ds =>
    rw [hm] at hmark
    have hds := hmark _ rfl
    have hplain := plain_eq_self (by decide) hds
    have hbase : Scan.readBase? ds = _ := readBase?_eq fun b hb => hds _ (mem_map_of_mem (hplain ▸ hb))
    have hcut := cutAt_append (notMem_of_lt hds (b := Byte.hash) (by decide)) rest
    simp_all [splitBase]

/-- A literal is read as the number that its parts say, if there is one. -/
theorem parse_eq_ok_iff (hl : l.Spelled) (h : plain text = l.text) {n : Numeral} : parse text = .ok n ↔
    (IsBase l.radix ∧ ∀ d ∈ digits l.integer, d < l.radix) ∧ n = ⟨l.radix, l.integer, l.fraction.getD []⟩ := by
  obtain ⟨hne, hinteger⟩ := hl.integer
  have hfraction : ∀ d ∈ digits (l.fraction.getD []), d < if IsBase l.radix then l.radix else 36 := by
    have := hl.fraction
    cases hf : l.fraction <;> grind
  have hnot {b : UInt8} (hb : 36 ≤ Byte.digitValue b) : b ∉ l.integer ∧ b ∉ l.fraction.getD [] := by
    refine ⟨notMem_of_lt hinteger hb, notMem_of_lt (fun d hd => ?_) hb⟩
    have := hfraction d hd
    unfold IsBase at this
    grind
  have hcut : cutAt Byte.point (l.integer ++ (l.fraction.map (Byte.point :: ·)).getD []) = (l.integer, l.fraction) := by
    obtain ⟨hpoint, -⟩ := hnot (b := Byte.point) (by decide)
    cases l.fraction with
    | none => simpa using cutAt_of_notMem hpoint
    | some ds => exact cutAt_append hpoint ds
  have hrest : Byte.hash ∉ l.integer ++ (l.fraction.map (Byte.point :: ·)).getD [] := by
    obtain ⟨h1, h2⟩ := hnot (b := Byte.hash) (by decide)
    cases hf : l.fraction with
    | none => simpa using h1
    | some ds =>
      rw [hf, Option.getD_some] at h2
      simp only [Option.map_some, Option.getD_some, mem_append, mem_cons, h1, h2, or_false, false_or]
      decide
  have hsplit := splitBase_text hl hrest
  unfold parse
  rw [← plain, h, Literal.text]
  by_cases hbase : IsBase l.radix
  · rw [if_pos hbase] at hsplit hfraction
    simp only [hsplit, bind, Except.bind, hcut, hbase, true_and]
    rw [if_neg (by simpa using hne)]
    cases hfind : (l.integer ++ l.fraction.getD []).find? fun b => !decide (Byte.digitValue b < l.radix) with
    | none =>
      have hall := find?_eq_none.mp hfind
      simp only [mem_append, Bool.not_eq_true', decide_eq_false_iff_not, not_not] at hall
      have hdigits : ∀ d ∈ digits l.integer, d < l.radix := by simpa using fun b hb => hall b (.inl hb)
      rw [and_iff_right hdigits]
      simp [pure, Except.pure, eq_comm]
    | some b =>
      have hb : ¬ Byte.digitValue b < l.radix := by simpa using find?_some hfind
      have hmem := mem_of_find?_eq_some hfind
      simp only [reduceCtorEq, throw, throwThe, MonadExceptOf.throw, false_iff, not_and]
      grind
  · rw [if_neg hbase] at hsplit
    obtain ⟨e, he⟩ := hsplit
    rw [he]
    simp [hbase, bind, Except.bind]

/-! ### Other spellings -/

/-- The same byte, or one letter in either case. -/
def Alike (b c : UInt8) : Prop :=
  b = c ∨ Byte.isLetter b ∧ Byte.isLetter c ∧ b.toNat % 32 = c.toNat % 32

theorem Alike.digitValue_eq {c : UInt8} (h : Alike b c) : Byte.digitValue b = Byte.digitValue c := by
  rcases h with rfl | ⟨hb, hc, h⟩
  · rfl
  · grind [Byte.isLetter, UInt8.le_iff_toNat_le, Byte.digitValue, Byte.isDigit]

theorem digits_alike {es : Bytes} (h : Forall₂ Alike ds es) : digits ds = digits es := by
  induction h with
  | nil => rfl
  | cons h _ ih => simp only [digits, map_cons, h.digitValue_eq] at ih ⊢; rw [ih]

/-- What differs only in the case of letters has the same parts but for that. -/
theorem exists_alike {bs : Bytes} (h : Forall₂ Alike bs l.text) : ∃ m : Literal, m.text = bs ∧
    m.mark.map digits = l.mark.map digits ∧ digits m.integer = digits l.integer ∧
    m.fraction.map digits = l.fraction.map digits := by
  have hsplit {bs cs ds : Bytes} (h : Forall₂ Alike bs (cs ++ ds)) :
      ∃ xs ys, bs = xs ++ ys ∧ Forall₂ Alike xs cs ∧ Forall₂ Alike ys ds :=
    ⟨_, _, (take_append_drop _ _).symm, forall₂_take_append _ _ _ h, forall₂_drop_append _ _ _ h⟩
  have hmark {b c : UInt8} (hc : Byte.isLetter c = false) (h : Alike b c) : b = c := by
    rcases h with rfl | ⟨-, h, -⟩
    · rfl
    · rw [hc] at h
      cases h
  obtain ⟨xs, rest, rfl, hx, h⟩ := hsplit h
  obtain ⟨ys, zs, rfl, hy, hz⟩ := hsplit h
  have hfirst : ∃ mark : Option Bytes, (mark.map (· ++ [Byte.hash])).getD [] = xs ∧
      mark.map digits = l.mark.map digits := by
    cases hm : l.mark with
    | none => simp_all
    | some ds =>
      rw [hm] at hx
      obtain ⟨as, bs, rfl, ha, hb⟩ := hsplit hx
      cases hb with
      | cons hb hnil =>
        cases hnil
        exact ⟨some as, by rw [hmark (by decide) hb]; rfl, by simpa using digits_alike ha⟩
  have hlast : ∃ fraction : Option Bytes, (fraction.map (Byte.point :: ·)).getD [] = zs ∧
      fraction.map digits = l.fraction.map digits := by
    cases hf : l.fraction with
    | none => simp_all
    | some ds =>
      rw [hf] at hz
      cases hz with
      | cons hb hds => exact ⟨some _, by rw [hmark (by decide) hb]; rfl, by simpa using digits_alike hds⟩
  obtain ⟨mark, rfl, hmark⟩ := hfirst
  obtain ⟨fraction, rfl, hfraction⟩ := hlast
  exact ⟨⟨mark, ys, fraction⟩, rfl, hmark, digits_alike hy, hfraction⟩

/-! ### Scanning -/

open Scan

theorem digitValue_lt (h : Byte.isDigit b) : Byte.digitValue b < 10 := by
  grind [Byte.digitValue, Byte.isDigit, UInt8.le_iff_toNat_le]

theorem digitValue_lt' (h : (Byte.isDigit b || Byte.isLetter b)) : Byte.digitValue b < 36 := by
  grind [Byte.digitValue, Byte.isDigit, Byte.isLetter, UInt8.le_iff_toNat_le]

theorem digits_plain_lt (h : ∀ b ∈ ds, Byte.digitValue b < base ∨ b = Byte.underscore) :
    ∀ d ∈ digits (plain ds), d < base := by grind [plain]

theorem digits_plain_cons (h : b ≠ Byte.underscore) : digits (plain (b :: ds)) ≠ [] := by
  simp [digits, plain, h]

theorem fraction_eq (hbase : base ≤ 36) (bs : Bytes) : ∃ (fraction : Option Bytes) (rest : Bytes),
    bs = (fraction.map (Byte.point :: ·)).getD [] ++ rest ∧
    (∀ ds ∈ fraction, digits (plain ds) ≠ [] ∧ ∀ d ∈ digits (plain ds), d < base) ∧
    ∀ taken, Scan.fraction base taken bs = (if fraction.isSome then .float else .integer,
      taken + ((fraction.map (Byte.point :: ·)).getD []).length) := by
  unfold Scan.fraction
  split
  · rename_i c bs
    split
    · rename_i hc
      obtain ⟨us, rest, rfl, hlen, hus⟩ := leadingBytes_split
        (fun b => decide (Byte.digitValue b < base) || b == Byte.underscore) bs
      refine ⟨some (c :: us), rest, rfl, ?_, fun taken => ?_⟩
      · rintro _ ⟨⟩
        refine ⟨digits_plain_cons ?_, digits_plain_lt ?_⟩
        · rintro rfl
          exact absurd hc (Nat.not_lt.mpr hbase)
        · simpa [hc] using hus
      · simp [leadingBytes, hc, hlen]
        omega
    · exact ⟨none, _, rfl, by simp, fun _ => rfl⟩
  · exact ⟨none, _, rfl, by simp, fun _ => rfl⟩

/-- What is scanned as a number, and how it is spelled. -/
structure Scanned (s text : Bytes) (l : Literal) (result : Token.Kind × Nat) : Prop where
  start : text <+: s
  plain : plain text = l.text
  spelled : l.Spelled
  result : result = (if l.fraction.isSome then .float else .integer, text.length - 1)

/-- The parts before the fraction decide in which base it is scanned. -/
theorem scanned_fraction (mark : Option Bytes) (integer : Bytes) (hmark : ∀ ds ∈ mark, ∀ d ∈ digits (plain ds), d < 10)
    (hinteger : digits (plain integer) ≠ [] ∧ ∀ d ∈ digits (plain integer), d < 36) (rest : Bytes)
    (hbase : base = (mark.map fun ds => (readBase? ds).getD 36).getD 10) :
    ∃ text l, Scanned ((mark.map (· ++ [Byte.hash])).getD [] ++ (integer ++ rest)) text l
      (Scan.fraction base ((mark.map (· ++ [Byte.hash])).getD [] ++ integer).length.pred rest) := by
  have hradix : base = if IsBase (Literal.radix ⟨mark.map plain, plain integer, none⟩) then
      Literal.radix ⟨mark.map plain, plain integer, none⟩ else 36 := by
    cases mark with
    | none => simpa [Literal.radix, IsBase] using hbase
    | some ds =>
      have : readBase? ds = _ := readBase?_eq fun b hb => hmark ds rfl _ (mem_map_of_mem hb)
      rw [hbase, Option.map_some, Option.getD_some, this]
      simp only [Literal.radix, Option.map_some, Option.getD_some]
      grind
  have hle : base ≤ 36 := by
    unfold IsBase at hradix
    grind
  obtain ⟨fraction, rest', rfl, hfraction, heq⟩ := fraction_eq hle rest
  refine ⟨(mark.map (· ++ [Byte.hash])).getD [] ++ (integer ++ (fraction.map (Byte.point :: ·)).getD []),
    ⟨mark.map plain, plain integer, fraction.map plain⟩, ⟨rest', by simp⟩, ?_, ⟨?_, hinteger, ?_⟩, ?_⟩
  · unfold Literal.text plain
    cases mark <;> cases fraction <;> simp [Byte.hash, Byte.point, Byte.underscore]
  · simpa using hmark
  · have hradix : base = if IsBase (Literal.radix ⟨mark.map plain, plain integer, fraction.map plain⟩) then
      Literal.radix ⟨mark.map plain, plain integer, fraction.map plain⟩ else 36 := hradix
    rw [← hradix]
    simpa using hfraction
  · have hpos : integer.length ≠ 0 := fun h => hinteger.1 (by rw [length_eq_zero_iff.mp h]; rfl)
    rw [heq]
    simp
    omega

theorem number_eq (hb : Byte.isDigit b) (bs : Bytes) : ∃ text l, Scanned (b :: bs) text l (number b bs) := by
  obtain ⟨us, rest, rfl, hlen, hus⟩ := leadingBytes_split (fun b => Byte.isDigit b || b == Byte.underscore) bs
  have hmark : ∀ d ∈ digits (plain (b :: us)), d < 10 := by
    refine digits_plain_lt (forall_mem_cons.mpr ⟨.inl (digitValue_lt hb), fun c hc => ?_⟩)
    have := hus c hc
    rw [Bool.or_eq_true, beq_iff_eq] at this
    exact this.imp_left digitValue_lt
  have hne : digits (plain (b :: us)) ≠ [] := digits_plain_cons (by rintro rfl; cases hb)
  have hdecimal := scanned_fraction none _ nofun ⟨hne, fun d hd => (hmark d hd).trans (by decide)⟩ rest rfl
  simp only [Option.map_none, Option.getD_none, nil_append, length_cons, Nat.pred_succ, cons_append] at hdecimal
  unfold number
  simp only [hlen, drop_left, take_left]
  split
  · rename_i c cs
    split
    · rename_i hc
      obtain ⟨vs, rest, rfl, hlen', hvs⟩ := leadingBytes_split
        (fun b => Byte.isDigit b || Byte.isLetter b || b == Byte.underscore) cs
      have hmarked := scanned_fraction (some (b :: us)) (c :: vs) (by simpa using hmark)
        ⟨digits_plain_cons (by rintro rfl; cases hc),
        digits_plain_lt (forall_mem_cons.mpr ⟨.inl (digitValue_lt' hc), fun d hd => by
          grind [digitValue_lt']⟩)⟩ rest rfl
      simp_all [leadingBytes, Byte.hash, Nat.add_assoc, Nat.add_comm]
    · exact hdecimal
  · exact hdecimal

/-! ### Number words -/

theorem toInt_eq (n : Numeral) : n.toInt = Nat.ofDigits n.base (digits n.integer).reverse := by
  rw [toInt, positional_eq]

theorem toRat_eq (n : Numeral) : n.toRat =
    (Nat.ofDigits n.base (digits (n.integer ++ n.fraction)).reverse : ℕ) / (n.base : ℚ) ^ n.fraction.length := by
  rw [toRat, positional_eq, Rat.mkRat_eq_div]
  simp

theorem literal_of_mem_tokens {s : Source} {t : Token} (ht : t ∈ s.tokens) (hk : t.kind = .integer ∨ t.kind = .float) :
    ∃ l : Literal, plain t.text = l.text ∧ l.Spelled ∧ t.kind = if l.fraction.isSome then .float else .integer := by
  obtain ⟨before, after, htokens⟩ := append_of_mem ht
  obtain ⟨b, bs, n, hword, htext, -⟩ := Token.scanned_of_place htokens (by rintro h; rw [h] at hk; simp at hk)
  have hb : Byte.isDigit b := by
    obtain ⟨hb, -⟩ | hplain := word_kind b bs
    · exact hb
    · rw [hword] at hplain
      rcases hk with hk | hk <;> rw [hk] at hplain <;> cases hplain
  obtain ⟨text, l, hstart, hplain, hspelled, hresult⟩ := number_eq hb bs
  rw [← word_of_isDigit hb, hword, Prod.mk.injEq] at hresult
  have hlen : text.length = n + 1 := by
    have hne : text ≠ [] := by
      rintro rfl
      have hinteger := hspelled.integer.1
      simp_all [Literal.text, plain]
    have := length_pos_iff.mpr hne
    omega
  have heq : t.text = text := by rw [prefix_iff_eq_take.mp hstart, hlen, htext, take_succ_cons]
  exact ⟨l, heq ▸ hplain, hspelled, hresult.1⟩

/-- Each number word falls apart into digits. It denotes a number if and only if its base is one and the
digits before the point are digits of it; then the number is what the digits say in that base, and
behind the point stand digits of the base if the word has one. All spellings that differ only in
underscores and in the case of letters denote the same. -/
theorem parse_number {s : Source} {t : Token} (ht : t ∈ s.tokens) (hk : t.kind = .integer ∨ t.kind = .float) :
    ∃ l : Literal, plain t.text = l.text ∧ l.Spelled ∧
      ((∃ n, parse t.text = .ok n) ↔ IsBase l.radix ∧ ∀ d ∈ digits l.integer, d < l.radix) ∧
      ∀ n, parse t.text = .ok n →
        n.toInt = Nat.ofDigits l.radix (digits l.integer).reverse ∧
        n.toRat = (Nat.ofDigits l.radix (digits (l.integer ++ l.fraction.getD [])).reverse : ℕ) /
          (l.radix : ℚ) ^ (l.fraction.getD []).length ∧
        n.fraction = l.fraction.getD [] ∧ (t.kind = .integer → n.fraction = []) ∧
        (t.kind = .float → n.fraction ≠ [] ∧ ∀ d ∈ digits n.fraction, d < l.radix) ∧
        ∀ other, Forall₂ Alike (plain other) (plain t.text) →
          ∃ m, parse other = .ok m ∧ m.toInt = n.toInt ∧ m.toRat = n.toRat := by
  obtain ⟨l, hplain, hspelled, hkind⟩ := literal_of_mem_tokens ht hk
  refine ⟨l, hplain, hspelled, ?_, fun n hn => ?_⟩
  · simp only [parse_eq_ok_iff hspelled hplain]
    exact ⟨fun ⟨n, h, _⟩ => h, fun h => ⟨_, h, rfl⟩⟩
  obtain ⟨⟨hbase, hdigits⟩, rfl⟩ := (parse_eq_ok_iff hspelled hplain).mp hn
  refine ⟨toInt_eq _, toRat_eq _, rfl, fun h => ?_, fun h => ?_, fun other hother => ?_⟩
  · cases hf : l.fraction with
    | none => rfl
    | some ds => simp [hf, h] at hkind
  · cases hf : l.fraction with
    | none => simp [hf, h] at hkind
    | some ds =>
      have hds := hspelled.fraction _ (by rw [hf]; rfl)
      rw [if_pos hbase] at hds
      exact ⟨by simpa using hds.1, hds.2⟩
  · obtain ⟨m, htext, hmark, hinteger, hfraction⟩ := exists_alike (hplain ▸ hother)
    have hradix : m.radix = l.radix := by rw [Literal.radix, Literal.radix, hmark]
    have hm : m.Spelled := ⟨hmark ▸ hspelled.mark, hinteger ▸ hspelled.integer, hfraction ▸ hradix ▸ hspelled.fraction⟩
    refine ⟨_, (parse_eq_ok_iff hm htext.symm).mpr ⟨⟨hradix ▸ hbase, hradix ▸ hinteger ▸ hdigits⟩, rfl⟩, ?_, ?_⟩
    · rw [toInt_eq, toInt_eq, hradix, hinteger]
    · have hdigits : digits (m.fraction.getD []) = digits (l.fraction.getD []) := by
        have := congrArg (·.getD (digits [])) hfraction
        simpa only [Option.getD_map] using this
      have hlen := congrArg length hdigits
      rw [length_map, length_map] at hlen
      rw [toRat_eq, toRat_eq]
      simp only [hradix, hlen, digits, map_append] at hinteger hdigits ⊢
      rw [hinteger, hdigits]

theorem parse_number_hex : ∃ l : Literal, plain (Bytes.ofString "1_6#Ff.8") = l.text ∧ l.Spelled ∧
    ((∃ n, parse (Bytes.ofString "1_6#Ff.8") = .ok n) ↔ IsBase l.radix ∧ ∀ d ∈ digits l.integer, d < l.radix) := by
  let t : Token := ⟨.float, Bytes.ofString "1_6#Ff.8", ⟨"", ⟨0, 1, 1⟩, ⟨8, 1, 9⟩⟩⟩
  have ht : t ∈ (Source.ofString .module "" "1_6#Ff.8").tokens := by decide +kernel
  obtain ⟨l, hplain, hspelled, hiff, -⟩ := parse_number ht (.inr rfl)
  exact ⟨l, hplain, hspelled, hiff⟩

end Parlance.Numeral
