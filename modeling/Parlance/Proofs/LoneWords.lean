import Parlance.Proofs.Boundaries
/-!
A word is what it is without its surroundings, but for a `>` right before a comment: it does not close an
angle, because the comment starts like an operator.
-/
open List

namespace Parlance

namespace Scan

open Utf8

variable {b : UInt8} {bs : Bytes} {skip : Nat} {s us rest : Bytes} {quote : UInt8}

theorem leadingBytes_take (p : UInt8 → Bool) (m : Nat) (s : Bytes) :
    leadingBytes p (s.take m) = min m (leadingBytes p s) := by
  induction s generalizing m with
  | nil => simp [leadingBytes]
  | cons b bs ih =>
    cases m with
    | zero => simp [leadingBytes]
    | succ m => grind [leadingBytes]

/-- A text that is cut behind a run of characters still has the run, if the bytes that are left behind
it are ASCII: no character is cut. -/
theorem leading_go_take (p : Char → Bool) {m : Nat} (hs : skip ≤ s.length)
    (hm : leading.go p skip s ≤ m) (hnext : ∀ b ∈ (s.take m).drop (leading.go p skip s), b < 0x80) :
    leading.go p skip (s.take m) = leading.go p skip s := by
  induction s generalizing skip m with
  | nil => rw [take_nil]
  | cons b bs ih =>
    cases skip with
    | succ skip =>
      obtain ⟨m, rfl⟩ := Nat.exists_eq_add_of_le' (Nat.le_trans (Nat.le_add_left 1 _) hm)
      grind [leading.go]
    | zero =>
      obtain ⟨k, hk, -⟩ := boundary_leading_go p _ bs (length_decodeFrom b bs)
      rw [leading_go_cons] at hm hnext ⊢
      split at hm
      · obtain ⟨m, rfl⟩ := Nat.exists_eq_add_of_le' (Nat.le_trans (Nat.le_add_left 1 _) hm)
        rename_i hp
        rw [if_pos hp] at hnext ⊢
        rw [take_succ_cons, leading_go_cons, decodeFrom_take (by omega), if_pos hp,
          ih (length_decodeFrom b bs) (Nat.le_of_succ_le_succ hm) hnext]
      · rename_i hp
        rw [if_neg hp] at hnext ⊢
        cases m with
        | zero => rfl
        | succ m => grind [decodeFrom_of_lt, leading_go_cons]

theorem quoted_go_take (hq : quote < 0x80) (escaped : Bool) (hs : skip ≤ s.length) :
    quotedLength.go quote skip escaped (s.take (quotedLength.go quote skip escaped s)) =
      quotedLength.go quote skip escaped s := by
  induction s generalizing skip escaped with
  | nil => rw [take_nil]
  | cons b bs ih =>
    cases skip with
    | succ skip => grind [quotedLength.go]
    | zero =>
      obtain ⟨k, hk, -⟩ := boundary_quoted_go hq _ false bs (length_decodeFrom b bs)
      grind [quotedLength.go, decodeFrom_take, length_decodeFrom]

theorem quotedLength_take (hq : quote < 0x80) (s : Bytes) :
    quotedLength quote (s.take (quotedLength quote s)) = quotedLength quote s :=
  quoted_go_take hq false (Nat.zero_le _)

theorem operatorTail_take (s : Bytes) : operatorTail (s.take (operatorTail s)) = operatorTail s := by
  fun_induction operatorTail s with
  | case1 => rfl
  | case2 b bs hslashes hb ih =>
    rw [take_succ_cons, operatorTail, if_pos hb, ih]
    rintro rest rfl hrest
    cases bs with
    | nil => simp at hrest
    | cons c cs =>
      cases hn : operatorTail (c :: cs) <;> rw [hn] at hrest <;> cases hrest
      exact hslashes cs rfl rfl
  | case3 => rfl
  | case4 => rfl

theorem fraction_take (base taken : Nat) (s : Bytes) : taken ≤ (fraction base taken s).2 ∧
      fraction base taken (s.take ((fraction base taken s).2 - taken)) = fraction base taken s := by
  unfold fraction
  split
  · rename_i c bs
    split
    · rename_i hc
      simp only [leadingBytes, hc]
      refine ⟨by omega, ?_⟩
      simp [show ∀ l, taken + 1 + (l + 1) - taken = l + 1 + 1 by omega, hc, leadingBytes_take]
    · simp
  · simp

theorem number_decimal (hlen : leadingBytes (fun b => Byte.isDigit b || b == Byte.underscore) (us ++ rest) = us.length)
    (h : ∀ c cs, rest = 35 :: c :: cs → ¬ (Byte.isDigit c || Byte.isLetter c)) :
    number b (us ++ rest) = fraction 10 us.length rest := by
  unfold number
  grind

theorem number_based {vs : Bytes} {c : UInt8}
    (hus : leadingBytes (fun b => Byte.isDigit b || b == Byte.underscore) (us ++ 35 :: c :: (vs ++ rest)) = us.length)
    (hc : (Byte.isDigit c || Byte.isLetter c))
    (hvs : leadingBytes (fun b => Byte.isDigit b || Byte.isLetter b || b == Byte.underscore) (vs ++ rest) = vs.length) :
    number b (us ++ 35 :: c :: (vs ++ rest)) =
      fraction ((readBase? (b :: us)).getD 36) (us.length + (vs.length + 2)) rest := by
  simp [number, hus, hc, leadingBytes, hvs, Nat.add_assoc, Nat.add_comm 1]

theorem number_take (b : UInt8) (bs : Bytes) : number b (bs.take (number b bs).2) = number b bs := by
  have hcut {p : UInt8 → Bool} {us rest : Bytes} (hlen : leadingBytes p (us ++ rest) = us.length) (m : Nat) :
      leadingBytes p (us ++ rest.take m) = us.length := by
    rw [← take_length_add_append, leadingBytes_take, hlen]
    omega
  obtain ⟨us, rest, rfl, hus, -⟩ := leadingBytes_split (fun b => Byte.isDigit b || b == Byte.underscore) bs
  by_cases h : ∀ c cs, rest = 35 :: c :: cs → ¬ (Byte.isDigit c || Byte.isLetter c)
  · obtain ⟨hle, heq⟩ := fraction_take 10 us.length rest
    obtain ⟨m, hm⟩ := Nat.exists_eq_add_of_le hle
    rw [number_decimal hus h, hm, take_length_add_append, number_decimal (hcut hus m),
      ← heq, hm, Nat.add_sub_cancel_left]
    grind [take_append_drop]
  · push Not at h
    obtain ⟨c, cs, rfl, hc⟩ := h
    obtain ⟨vs, rest, rfl, hvs, -⟩ := leadingBytes_split
      (fun b => Byte.isDigit b || Byte.isLetter b || b == Byte.underscore) cs
    obtain ⟨hle, heq⟩ := fraction_take ((readBase? (b :: us)).getD 36) (us.length + (vs.length + 2)) rest
    obtain ⟨m, hm⟩ := Nat.exists_eq_add_of_le hle
    have hus' := hcut hus (vs.length + m + 1 + 1)
    rw [take_succ_cons, take_succ_cons, take_length_add_append] at hus'
    rw [number_based hus hc hvs, hm, Nat.add_assoc, take_length_add_append, Nat.add_right_comm, take_succ_cons,
      take_succ_cons, take_length_add_append, number_based hus' hc (hcut hvs m), ← heq, hm, Nat.add_sub_cancel_left]

theorem identifier_take (b : UInt8) (bs : Bytes) : identifier b (bs.take (identifier b bs).2) = identifier b bs := by
  unfold identifier
  simp only
  split
  · rename_i hb
    generalize hn : (decodeFrom b bs).2 = n
    generalize hl : leading inIdentifier (bs.drop n) = l
    generalize ha : leadingBytes (· == Byte.apostrophe) (bs.drop (n + l)) = a
    have hlen : leading inIdentifier ((bs.take (n + l + a)).drop n) = l := by
      rw [drop_take, Nat.add_assoc, Nat.add_sub_cancel_left, ← hl]
      refine leading_go_take inIdentifier (Nat.zero_le _) (by rw [← leading, hl]; omega) fun c hc => ?_
      rw [← leading, hl, drop_take, Nat.add_sub_cancel_left, drop_drop, ← ha] at hc
      have := mem_take_leadingBytes c hc
      rw [beq_iff_eq.mp this]
      decide
    have hmarks : leadingBytes (· == Byte.apostrophe) ((bs.take (n + l + a)).drop (n + l)) = a := by
      rw [drop_take, Nat.add_sub_cancel_left, leadingBytes_take, ha, Nat.min_self]
    rw [decodeFrom_take (by omega), if_pos hb, hn, hlen, hmarks, take_take, Nat.min_self]
  · grind [decodeFrom_take]

variable {k : Token.Kind} {n : Nat}

theorem symbolLiteral_take (h : symbolLiteral bs = (k, n)) : symbolLiteral (bs.take n) = (k, n) := by
  unfold symbolLiteral at h
  split at h
  · cases h
    rfl
  rename_i b bs
  split at h
  · rename_i hb
    have hin : (inIdentifier (decodeFrom b bs).1 || (decodeFrom b bs).1 == ':') := by simp [inIdentifier, hb]
    obtain ⟨l, hl, -⟩ := boundary_leading_go (fun c => inIdentifier c || c == ':') _ bs (length_decodeFrom b bs)
    have hlen := leading_go_take (fun c => inIdentifier c || c == ':') (length_decodeFrom b bs)
      (Nat.le_refl _) (by simp)
    grind [leading, leading_go_cons, symbolLiteral, decodeFrom_take]
  grind [leadingBytes, decodeFrom_of_lt, lt_of_isOperator, symbolLiteral, leadingBytes_take]

theorem closesAngle_take (h : ¬ [Byte.solidus, Byte.solidus] <+: bs) :
    closesAngle (bs.take (operatorTail bs)) → closesAngle bs := by
  fun_cases operatorTail bs with
  | case1 => simp [Byte.solidus] at h
  | case2 => simp [closesAngle]
  | case3 b bs _ hb => simp [closesAngle, hb]
  | case4 => simp

theorem operator_take (hangle : ¬ (b = Byte.greater ∧ [Byte.solidus, Byte.solidus] <+: bs))
    (h : operator b bs = (k, n)) : operator b (bs.take n) = (k, n) := by
  unfold operator at h ⊢
  split at h
  · exact h
  split at h
  · grind [decodeFrom_take]
  rename_i hb
  rw [if_neg hb]
  split at h
  · rename_i hgreater
    cases h
    rw [if_pos]
    exact Bool.and_eq_true_iff.mpr ⟨(Bool.and_eq_true_iff.mp hgreater).1, rfl⟩
  · rename_i hgreater
    cases h
    have hcloses : ¬ (b == Byte.greater && closesAngle (bs.take (operatorTail bs))) := by
      rw [Bool.and_eq_true, beq_iff_eq] at hgreater ⊢
      exact fun h => hgreater ⟨h.1, closesAngle_take (fun hs => hangle ⟨h.1, hs⟩) h.2⟩
    grind [operatorTail_take]

/-- Every word is one without what follows it, but for a `>` before a comment. -/
theorem word_take (hangle : ¬ (b = Byte.greater ∧ [Byte.solidus, Byte.solidus] <+: bs))
    (h : word b bs = (k, n)) : word b (bs.take n) = (k, n) := by
  unfold word at h ⊢
  split at h
  · grind [leadingBytes_take]
  rename_i hspace
  rw [if_neg hspace]
  split at h
  · rename_i hb
    cases h
    cases bs with
    | nil => simp at hb
    | cons c cs =>
      obtain ⟨rfl, rfl⟩ : b = Byte.solidus ∧ c = Byte.solidus := by simpa using hb
      rw [leadingBytes_take, Nat.min_self, if_pos (by rfl)]
  rename_i hcomment
  have hcomment : ¬ (b == Byte.solidus && (bs.take n).head? == some Byte.solidus) := by
    rw [head?_take]
    split
    · simp
    · exact hcomment
  rw [if_neg hcomment]
  split at h
  · grind [number_take]
  grind [identifier_take, quotedLength_take, symbolLiteral_take, operator_take]

theorem word_greater {cs : Bytes} : word Byte.greater (Byte.solidus :: Byte.solidus :: cs) = (.operator, 0) := by
  rfl

end Scan

/-- A word is what it is without its surroundings: read alone, its text is that word of the same kind. A
`>` right before a comment is the one exception: it is an operator, and closes an angle alone. -/
theorem Source.tokens_alone {s : Source} {before after : List Token} {t : Token} (h : s.tokens = before ++ t :: after)
    (ht : t.kind ≠ .eof) (kind : Kind) (uri : Uri) :
    if t.text = [Byte.greater] ∧ [Byte.solidus, Byte.solidus] <+: after.flatMap (·.text) then
      t.kind = .operator ∧ (tokens ⟨kind, uri, t.text⟩).map (fun u => (u.kind, u.text)) =
        [(.closeAngle, t.text), (.eof, [])]
    else (tokens ⟨kind, uri, t.text⟩).map (fun u => (u.kind, u.text)) = [(t.kind, t.text), (.eof, [])] := by
  obtain ⟨b, bs, n, hword, htext, hafter⟩ := Token.scanned_of_place h ht
  have halone (k : Token.Kind) (hk : Scan.word b (bs.take n) = (k, n)) :
      (tokens ⟨kind, uri, t.text⟩).map (fun u => (u.kind, u.text)) = [(k, t.text), (.eof, [])] := by
    rw [tokens, htext, lexemes]
    simp [hk, Token.place, lexemes, take_take]
  rw [hafter]
  split
  · rename_i hangle
    obtain ⟨hgreater, cs, hcs⟩ := hangle
    rw [htext, cons.injEq, take_eq_nil_iff] at hgreater
    obtain ⟨rfl, rfl | rfl⟩ := hgreater
    · rw [drop_zero] at hcs
      rw [← hcs, cons_append, cons_append, Scan.word_greater] at hword
      exact ⟨(congrArg Prod.fst hword).symm, halone _ rfl⟩
    · simp at hcs
  · rename_i hangle
    refine halone _ (Scan.word_take ?_ hword)
    rintro ⟨rfl, cs, rfl⟩
    rw [cons_append, cons_append, Scan.word_greater] at hword
    obtain rfl : 0 = n := congrArg Prod.snd hword
    exact hangle ⟨htext, cs, rfl⟩

theorem Source.tokens_alone_angle :
    (ofString .module "" "a>//").tokens.map (·.kind) = [.symbol, .operator, .lineComment, .eof] ∧
    (ofString .module "" ">").tokens.map (fun u => (u.kind, u.text)) = [(.closeAngle, [Byte.greater]), (.eof, [])] := by
  let at_ (n : Nat) : Location := ⟨n, 1, n + 1⟩
  have h : (ofString .module "" "a>//").tokens = [⟨.symbol, [97], ⟨"", at_ 0, at_ 1⟩⟩] ++
      ⟨.operator, [Byte.greater], ⟨"", at_ 1, at_ 2⟩⟩ :: [⟨.lineComment, [47, 47], ⟨"", at_ 2, at_ 4⟩⟩,
        ⟨.eof, [], ⟨"", at_ 4, at_ 4⟩⟩] := by decide +kernel
  exact ⟨by rw [h]; rfl, (tokens_alone h nofun .module "").2⟩

end Parlance
