import Mathlib.Data.List.Induction
import Parlance.Proofs.WireRoundTrip
/-!
What readers take. Only where bytes are missing could more of them change a reader's mind, so a text that breaks
off is never mistaken for another one.
-/
namespace Parlance

open List

namespace Instruction

mutual

def isNumeric : Instruction → Bool
  | constF32 bits => Binary.decode .single bits.toNat != .nan
  | constF64 bits => Binary.decode .double bits.toNat != .nan
  | loadLazy _ body => areNumeric body
  | _ => true

def areNumeric : List Instruction → Bool
  | [] => true
  | i :: is => isNumeric i && areNumeric is

end

end Instruction

namespace Wire

variable {α β : Type} {s : Step α} {f : α → Step β} {P Q : α → Nat → Prop} {R : β → Nat → Prop} {a : α}
  {bs cs ds p rest : Bytes} {i : Instruction} {is js : List Instruction} {d fuel index n m width : Nat}

/-! ### Readers that decide by what they take -/

/-- What the reader gives hangs on the bytes it takes alone, and `P` holds of it and their number. A flaw
other than missing bytes stays one whatever follows. -/
structure Takes (s : Step α) (P : α → Nat → Prop) : Prop where
  reads : ∀ {bs a rest}, s bs = .ok (a, rest) → ∃ used, bs = used ++ rest ∧ P a used.length ∧ Reads s used a
  fails : ∀ {bs f}, s bs = .error f → f.flaw = .truncated ∨ ∀ more, s (bs ++ more) = .error f

theorem Takes.mono (h : Takes s P) (hQ : ∀ a n, P a n → Q a n) : Takes s Q where
  reads hs := by
    obtain ⟨used, hbs, hP, hr⟩ := h.reads hs
    exact ⟨used, hbs, hQ _ _ hP, hr⟩
  fails := h.fails

theorem takes_pure (h : P a 0) : Takes (pure a) P where
  reads hs := by
    cases hs
    exact ⟨[], rfl, h, .pure a⟩
  fails hs := by cases hs

theorem takes_fail (flaw : Flaw) : Takes (fail flaw) P where
  reads hs := by cases hs
  fails hs := by
    cases hs
    exact .inr fun _ => rfl

theorem Takes.bind (h : Takes s P) (hf : ∀ a n, P a n → Takes (f a) fun b m => R b (n + m)) : Takes (s >>= f) R where
  reads {bs b rest} hs := by
    obtain ⟨⟨a, bs'⟩, hs, hb⟩ := bind_eq_ok.mp hs
    obtain ⟨used, rfl, hP, hr⟩ := h.reads hs
    obtain ⟨more, rfl, hR, hr'⟩ := (hf a _ hP).reads hb
    exact ⟨used ++ more, (append_assoc ..).symm, length_append ▸ hR, hr.bind hr'⟩
  fails {bs e} hs := by
    cases ha : s bs with
    | error e' =>
      have heq : e' = e := by simpa [Bind.bind, StateT.bind, ha, Except.bind] using hs
      refine (h.fails ha).imp (heq ▸ ·) fun hmore more => ?_
      simp_all [Bind.bind, StateT.bind]
    | ok r =>
      obtain ⟨a, rest⟩ := r
      obtain ⟨used, rfl, hP, hr⟩ := h.reads ha
      have hb : f a rest = .error e := by simpa [Bind.bind, StateT.bind, ha, Except.bind] using hs
      refine ((hf a _ hP).fails hb).imp id fun hmore more => ?_
      simp only [Bind.bind, StateT.bind, append_assoc, hr (rest ++ more), Except.bind, hmore more]

theorem Takes.map (h : Takes s P) (g : α → β) (hR : ∀ a n, P a n → R (g a) n) : Takes (s >>= fun a => pure (g a)) R :=
  h.bind fun a n hP => takes_pure (hR a n hP)

theorem Takes.truncated (h : Takes s P) (hr : Reads s (p ++ rest) a) (hrest : rest ≠ []) :
    ∃ f, s p = .error f ∧ f.flaw = .truncated := by
  have hall : s (p ++ rest) = .ok (a, []) := by simpa using hr []
  cases hs : s p with
  | error f =>
    refine ⟨f, rfl, (h.fails hs).resolve_right fun hmore => ?_⟩
    rw [hmore rest] at hall
    cases hall
  | ok r =>
    obtain ⟨b, left⟩ := r
    obtain ⟨used, rfl, -, hused⟩ := h.reads hs
    rw [append_assoc, hused] at hall
    simp_all

/-! ### Operands -/

theorem takes_take (n : Nat) : Takes (take n) fun bs m => bs.length = n ∧ m = n where
  reads {bs a rest} hs := by grind [take, take_append_drop, reads_take]
  fails hs := by grind [take]

theorem takes_byte : Takes byte fun _ m => m = 1 where
  reads {bs a rest} hs := by
    cases bs with
    | nil => cases hs
    | cons b bs =>
      cases hs
      exact ⟨[a], rfl, rfl, reads_byte a⟩
  fails {bs f} hs := by
    cases bs with
    | nil =>
      cases hs
      exact .inl rfl
    | cons b bs => cases hs

theorem ofBigEndian_lt (bs : Bytes) : ofBigEndian bs < 256 ^ bs.length := by
  induction bs using reverseRecOn with
  | nil => decide
  | append_singleton bs b ih =>
    have hb := b.toNat_lt
    grind [ofBigEndian_snoc]

theorem takes_number (width : Nat) : Takes (number width) fun n m => n < 256 ^ width ∧ m = width :=
  (takes_take width).map _ fun bs _ h => ⟨h.1 ▸ ofBigEndian_lt bs, h.2⟩

theorem takes_u16 : Takes readU16 fun _ m => m = 2 := (takes_number 2).map _ fun _ _ h => h.2

theorem takes_u32 : Takes readU32 fun _ m => m = 4 := (takes_number 4).map _ fun _ _ h => h.2

theorem takes_u64 : Takes readU64 fun _ m => m = 8 := (takes_number 8).map _ fun _ _ h => h.2

theorem takes_string : Takes readString fun s m => s.length < 65536 ∧ m = s.length + 2 :=
  (takes_number 2).bind fun _ _ h => (takes_take _).mono fun _ _ h' => ⟨h'.1 ▸ h.1, by omega⟩

theorem exists_writeString {s : Bytes} (h : s.length < 65536) :
    ∃ cs, writeString s = .ok cs ∧ cs.length = s.length + 2 := by
  refine ⟨_, if_pos h, ?_⟩
  rw [length_append, length_bigEndian, Nat.add_comm]

theorem byteLength_le (h : n < 256 ^ width) : byteLength n ≤ width := by
  unfold byteLength
  split
  · exact Nat.zero_le width
  · rename_i hn
    have hlog : n.log2 < 8 * width := (Nat.log2_lt hn).mpr (by rwa [Nat.pow_mul])
    omega

theorem takes_magnitude : Takes readMagnitude fun n m => ∃ k, k < 65536 ∧ n < 256 ^ k ∧ m = k + 2 :=
  takes_string.map _ fun bs _ h => ⟨bs.length, h.1, ofBigEndian_lt bs, h.2⟩

theorem exists_writeMagnitude {k : Nat} (hk : k < 65536) (hn : n < 256 ^ k) :
    ∃ cs, writeMagnitude n = .ok cs ∧ cs.length ≤ k + 2 := by
  have hlen := byteLength_le hn
  obtain ⟨cs, hcs, hl⟩ := exists_writeString (s := bigEndian (byteLength n) n) (by rw [length_bigEndian]; omega)
  rw [length_bigEndian] at hl
  exact ⟨cs, hcs, by omega⟩

theorem takes_sign : Takes readSign fun _ m => m = 1 := by
  refine takes_byte.bind fun b n hn => ?_
  grind [takes_pure, takes_fail]

theorem natAbs_signed (negative : Bool) (n : Nat) : (signed negative n).natAbs = n := by
  cases negative <;> simp [signed]

theorem takes_fixed (hn : 0 < n) (isSigned : Bool) :
    Takes (readFixed n isSigned) fun v m => ∃ cs, writeFixed n isSigned v = .ok cs ∧ cs.length ≤ m := by
  refine (takes_number n).map _ fun k m ⟨hk, hm⟩ => ?_
  have hpow := two_pow_bits hn
  have hk : (k : Int) < (Nat.pow 2 (8 * n) : Int) := by
    rw [Nat.pow_eq, Nat.pow_mul]
    exact_mod_cast hk
  generalize hv : (if (k : Int) < (limits n isSigned).2 then (k : Int) else (k : Int) - Nat.pow 2 (8 * n)) = v
  have hin : (limits n isSigned).1 ≤ v ∧ v < (limits n isSigned).2 := by
    rw [← hv]
    cases isSigned <;> simp only [limits, Bool.false_eq_true, if_false, if_true] <;> split <;> omega
  have hwrite := writeFixed_eq_ok.mpr ⟨hin.1, hin.2, rfl⟩
  exact ⟨_, hv ▸ hwrite, (length_bigEndian ..).trans_le (Nat.le_of_eq hm.symm)⟩

theorem takes_integer (w : IntWidth) :
    Takes (readInteger w) fun v m => ∃ cs, writeInteger w v = .ok cs ∧ cs.length ≤ m := by
  cases hb : w.bytes? with
  | some n =>
    rw [(integer_of_bytes? hb).1, (integer_of_bytes? hb).2]
    exact takes_fixed (bytes?_pos hb) w.isSigned
  | none =>
    cases w with
    | uBig =>
      refine takes_magnitude.map (fun n : Nat => (n : Int)) fun n m ⟨k, hk, hn, hm⟩ => ?_
      obtain ⟨cs, hcs, hlen⟩ := exists_writeMagnitude hk hn
      refine ⟨cs, ?_, hm ▸ hlen⟩
      simp only [writeInteger, IntWidth.bytes?]
      rwa [if_neg (by omega)]
    | iBig =>
      refine takes_sign.bind fun negative _ h => takes_magnitude.map (signed negative) fun n m ⟨k, hk, hn, hm⟩ => ?_
      obtain ⟨cs, hcs, hlen⟩ := exists_writeMagnitude hk hn
      refine ⟨writeSign (signed negative n < 0) ++ cs, ?_, ?_⟩
      · simp only [writeInteger, IntWidth.bytes?, natAbs_signed, hcs]
        rfl
      · grind [writeSign]
    | _ => cases hb

/-- Parts of a fraction do not grow when it is reduced. -/
theorem takes_rational : Takes readRational fun r m => ∃ ns ds, writeMagnitude r.num.natAbs = .ok ns ∧
    writeMagnitude r.den = .ok ds ∧ ns.length + ds.length + 2 ≤ m := by
  unfold readRational
  refine takes_byte.bind fun t _ ht => ?_
  split
  · exact (takes_fail (P := fun _ _ => False) _).bind fun _ _ h => h.elim
  · refine takes_sign.bind fun negative _ hs => takes_magnitude.bind fun num _ ⟨j, hj, hnum, hnm⟩ =>
      takes_magnitude.bind fun den _ ⟨k, hk, hden, hdm⟩ => ?_
    split
    · exact (takes_fail (P := fun _ _ => False) _).bind fun _ _ h => h.elim
    · rename_i hzero
      refine takes_pure ?_
      have hd : (mkRat (signed negative num) den).den ≤ den := by
        rw [Rat.den_mkRat, if_neg hzero]
        exact Nat.div_le_self den _
      have hn : (mkRat (signed negative num) den).num.natAbs ≤ num := by
        rw [Rat.num_mkRat, if_neg hzero]
        exact (Int.natAbs_ediv_le_natAbs ..).trans_eq (natAbs_signed negative num)
      obtain ⟨ns, hns, hnl⟩ := exists_writeMagnitude hj (Nat.lt_of_le_of_lt hn hnum)
      obtain ⟨ds, hds, hdl⟩ := exists_writeMagnitude hk (Nat.lt_of_le_of_lt hd hden)
      exact ⟨ns, ds, hns, hds, by omega⟩

theorem takes_native : Takes readNative fun _ m => m = 1 := by
  refine takes_byte.bind fun b _ hb => ?_
  split
  · exact takes_pure hb
  · exact takes_fail _

theorem takes_character : Takes readCharacter fun c m => c < 0x80000000 ∧ m = 4 := by
  refine takes_u32.bind fun c _ hc => ?_
  grind [takes_pure, takes_fail]

/-! ### Instructions -/

/-- The instruction can be written in `n` bytes at most and read again `d` deep. -/
structure Fits (d : Nat) (i : Instruction) (n : Nat) : Prop where
  written : ∃ cs, write i = .ok cs ∧ cs.length ≤ n
  depth : i.depth ≤ d
  proper : i.isNumeric → i.isProper

structure FitAll (d : Nat) (is : List Instruction) (n : Nat) : Prop where
  written : ∃ cs, writeAll is = .ok cs ∧ cs.length ≤ n
  depth : Instruction.depthAll is ≤ d
  proper : Instruction.areNumeric is → Instruction.areProper is

theorem fitAll_nil : FitAll d [] n := ⟨⟨[], rfl, Nat.zero_le n⟩, Nat.zero_le d, fun _ => rfl⟩

theorem Fits.cons (h : Fits d i n) (h' : FitAll d is m) : FitAll d (i :: is) (n + m) where
  written := by
    obtain ⟨cs, hcs, hl⟩ := h.written
    obtain ⟨ds, hds, hl'⟩ := h'.written
    refine ⟨cs ++ ds, ?_, by rw [length_append]; omega⟩
    rw [writeAll, hcs, hds]
    rfl
  depth := max_le h.depth h'.depth
  proper hnum := by
    rw [Instruction.areNumeric, Bool.and_eq_true] at hnum
    rw [Instruction.areProper, h.proper hnum.1, h'.proper hnum.2]
    rfl

theorem takes_times {s : Step Instruction} (h : Takes s (Fits d)) (n : Nat) :
    Takes (times s n) fun is m => is.length = n ∧ FitAll d is m := by
  induction n with
  | zero => exact takes_pure ⟨rfl, fitAll_nil⟩
  | succ n ih => exact h.bind fun i k hi => ih.map _ fun is m his => ⟨congrArg (· + 1) his.1, hi.cons his.2⟩

theorem takes_operands {lazy : Step Instruction} (hlazy : Takes lazy fun i n => Fits d i (n + 1)) (op : Op) :
    Takes (operands lazy op) fun i n => Fits d i (n + 1) := by
  cases op with
  | noop | halt | panic | endMethod => exact takes_pure ⟨⟨_, rfl, by decide⟩, Nat.zero_le d, fun _ => rfl⟩
  | declareClass | declareVariable | beginMethod =>
    refine takes_u64.bind fun id _ hid => takes_string.map _ fun s m hs => ?_
    obtain ⟨cs, hcs, hl⟩ := exists_writeString hs.1
    refine ⟨⟨_, by rw [write, hcs]; rfl, ?_⟩, Nat.zero_le d, fun _ => rfl⟩
    grind [u64, length_bigEndian]
  | inheritMethod =>
    refine takes_u64.bind fun source _ h => takes_u64.bind fun target _ h' => takes_u64.map _ fun hash m h'' => ?_
    refine ⟨⟨_, rfl, ?_⟩, Nat.zero_le d, fun _ => rfl⟩
    grind [u64, length_bigEndian]
  | loadObject | storeGlobal | loadGlobal | markClass =>
    refine takes_u64.map _ fun id n hn => ⟨⟨_, rfl, ?_⟩, Nat.zero_le d, fun _ => rfl⟩
    rw [length_cons, u64, length_bigEndian, hn]
  | loadLocal | dropLocal | return_ | returnLazy =>
    refine takes_u16.map _ fun k n hn => ⟨⟨_, rfl, ?_⟩, Nat.zero_le d, fun _ => rfl⟩
    rw [length_cons, u16, length_bigEndian, hn]
  | callMethod =>
    refine takes_u64.bind fun hash _ h => takes_string.bind fun uri _ hs => takes_u32.bind fun line _ h' =>
      takes_u32.map _ fun character m h'' => ?_
    obtain ⟨cs, hcs, hl⟩ := exists_writeString hs.1
    refine ⟨⟨_, by rw [write, hcs]; rfl, ?_⟩, Nat.zero_le d, fun _ => rfl⟩
    grind [u64, u32, length_bigEndian]
  | callNative => exact takes_native.map _ fun k n hn => ⟨⟨_, rfl, by rw [hn]; rfl⟩, Nat.zero_le d, fun _ => rfl⟩
  | loadLazy => exact hlazy
  | constString | constSymbol =>
    refine takes_string.map _ fun s n hs => ?_
    obtain ⟨cs, hcs, hl⟩ := exists_writeString hs.1
    refine ⟨⟨_, by rw [write, hcs]; rfl, ?_⟩, Nat.zero_le d, fun _ => rfl⟩
    rw [length_cons, hl, hs.2]
  | constCharacter =>
    refine takes_character.map _ fun c n hc => ⟨⟨_, rfl, ?_⟩, Nat.zero_le d, fun _ => decide_eq_true hc.1⟩
    rw [length_cons, u32, length_bigEndian, hc.2]
  | constInt w =>
    refine (takes_integer w).map _ fun v n h => ?_
    obtain ⟨cs, hcs, hl⟩ := h
    exact ⟨⟨tag (.constInt w) :: cs, by rw [write, hcs]; rfl, Nat.succ_le_succ hl⟩, Nat.zero_le d, fun _ => rfl⟩
  | constF32 =>
    refine takes_u32.map _ fun bits n hn => ⟨⟨_, rfl, ?_⟩, Nat.zero_le d, id⟩
    rw [length_cons, u32, length_bigEndian, hn]
  | constF64 =>
    refine takes_u64.map _ fun bits n hn => ⟨⟨_, rfl, ?_⟩, Nat.zero_le d, id⟩
    rw [length_cons, u64, length_bigEndian, hn]
  | constFBig =>
    refine takes_rational.map _ fun r n h => ?_
    obtain ⟨ns, ds, hns, hds, hl⟩ := h
    refine ⟨⟨_, by rw [write, hns, hds]; rfl, ?_⟩, Nat.zero_le d, fun _ => rfl⟩
    grind [writeSign]

theorem Takes.inside {s : Step Instruction} {P : Instruction → Nat → Prop} (h : Takes s P) (op : Op) :
    Takes (inside op s) P where
  reads {bs a rest} hs := by
    cases hb : s bs with
    | error f => simp [Wire.inside, hb] at hs
    | ok r =>
      simp only [Wire.inside, hb, Except.ok.injEq] at hs
      subst hs
      obtain ⟨used, hbs, hP, hr⟩ := h.reads hb
      exact ⟨used, hbs, hP, fun more => by simp only [Wire.inside, hr more]⟩
  fails {bs f} hs := by
    cases hb : s bs with
    | ok r => simp [Wire.inside, hb] at hs
    | error e =>
      simp only [Wire.inside, hb, Except.error.injEq] at hs
      subst hs
      exact (h.fails hb).imp id fun hmore more => by simp only [Wire.inside, hmore more]

theorem takes_readWith {lazy : Step Instruction} (hlazy : Takes lazy fun i n => Fits d i (n + 1)) :
    Takes (readUpTo.readWith lazy) (Fits d) := by
  refine takes_byte.bind fun t n hn => ?_
  obtain rfl : n = 1 := hn
  split
  · rename_i op hop
    exact ((takes_operands hlazy op).inside op).mono fun i m hi => Nat.add_comm m 1 ▸ hi
  · exact takes_fail _

theorem takes_readUpTo (d : Nat) : Takes (readUpTo d) (Fits d) := by
  induction d with
  | zero => exact takes_readWith (takes_fail _)
  | succ d ih =>
    refine takes_readWith (takes_u16.bind fun arity _ ha => (takes_number 4).bind fun count _ hc =>
      (takes_times ih count).map _ fun body n ⟨hlen, hbody⟩ => ?_)
    obtain ⟨cs, hcs, hl⟩ := hbody.written
    refine ⟨⟨tag .loadLazy :: u16 arity ++ bigEndian 4 body.length ++ cs, ?_, ?_⟩, Nat.succ_le_succ hbody.depth,
      hbody.proper⟩
    · rw [write, if_pos (hlen ▸ hc.1), hcs]
      rfl
    · grind [u16, length_bigEndian]

/-! ### Streams -/

theorem Reads.ne_nil (h : Reads (readUpTo d) bs i) : bs ≠ [] := by
  rintro rfl
  have hnil := h []
  cases d <;> cases hnil

theorem readFrom_read (h : Reads (readUpTo maxDepth) cs i) (ds : Bytes) :
    readFrom index (fuel + 1) (cs ++ ds) = return i :: (← readFrom (index + 1) fuel ds) := by
  rw [readFrom_append h.ne_nil, h ds]

theorem fitAll_of_readFrom (h : readFrom index fuel bs = .ok is) (hfuel : bs.length ≤ fuel) :
    FitAll maxDepth is bs.length := by
  induction fuel generalizing index bs is with
  | zero =>
    obtain rfl := length_eq_zero_iff.mp (Nat.le_zero.mp hfuel)
    cases h
    exact fitAll_nil
  | succ fuel ih =>
    cases bs with
    | nil =>
      cases h
      exact fitAll_nil
    | cons b bs =>
      have hread := (readFrom_append (cons_ne_nil b []) bs).symm.trans h
      split at hread
      · cases hread
      · rename_i i rest hstep
        obtain ⟨used, hbs, hfits, hr⟩ := (takes_readUpTo maxDepth).reads hstep
        obtain ⟨is, his, heq⟩ := bind_eq_ok.mp hread
        cases heq
        have hlen : (b :: bs).length = used.length + rest.length := by
          rw [← length_append, ← hbs, singleton_append]
        have hused := length_pos_iff.mpr hr.ne_nil
        rw [hlen]
        exact hfits.cons (ih his (by omega))

/-- Whatever could be read can be written, in no more bytes than it was read from, and is read from them
as it was. -/
theorem writeAll_readAll (h : readAll bs = .ok is) (hnum : Instruction.areNumeric is = true) :
    ∃ cs, writeAll is = .ok cs ∧ cs.length ≤ bs.length ∧
      ∃ js, readAll cs = .ok js ∧ Instruction.sameAll js is = true := by
  obtain ⟨⟨cs, hcs, hlen⟩, hdepth, hproper⟩ := fitAll_of_readFrom h le_rfl
  have hp := hproper hnum
  exact ⟨cs, hcs, hlen, is, readFrom_writeAll hp hdepth (length_le_of_writeAll hp hcs) hcs,
    Instruction.sameAll_self hp⟩

def looseBytes : Bytes := [0xaf, 0, 0, 0, 0, 0, 2, 0xd4, 1, 0, 1, 0, 0xd7, 0xea, 0, 0, 2, 0, 2, 0, 1, 4, 0xa1]

def looseSample : List Instruction := [.loadLazy 0 [.constInt .iBig 0, .constFBig (mkRat 1 2)], .halt]

section

set_option maxRecDepth 4000

theorem writeAll_readAll_loose : readAll looseBytes = .ok looseSample ∧
    ∃ cs, writeAll looseSample = .ok cs ∧ cs.length ≤ looseBytes.length ∧
      ∃ js, readAll cs = .ok js ∧ Instruction.sameAll js looseSample = true := by
  have h : readAll looseBytes = .ok looseSample := by rfl
  exact ⟨h, writeAll_readAll h rfl⟩

end

theorem writeAll_append (h : writeAll is = .ok bs) (h' : writeAll js = .ok cs) :
    writeAll (is ++ js) = .ok (bs ++ cs) := by
  induction is generalizing bs with
  | nil =>
    cases h
    exact h'
  | cons i is ih =>
    obtain ⟨is, his, h⟩ := bind_eq_ok.mp h
    obtain ⟨ds, hds, h⟩ := bind_eq_ok.mp h
    cases h
    simp_all [writeAll, Bind.bind, Except.bind, pure, Except.pure]

/-- A beginning of a stream ends between two of its instructions, or within one and is truncated. -/
theorem readFrom_beginning (hp : Instruction.areProper is) (hd : Instruction.depthAll is ≤ maxDepth)
    (h : writeAll is = .ok (p ++ rest)) (hfuel : p.length ≤ fuel) :
    (∃ k, writeAll (is.take k) = .ok p ∧ readFrom index fuel p = .ok (is.take k)) ∨
      ∃ f, readFrom index fuel p = .error f ∧ f.fault.flaw = .truncated := by
  have hnil : readFrom index fuel [] = .ok [] := by cases fuel <;> rfl
  induction is generalizing index fuel p with
  | nil =>
    obtain ⟨rfl, -⟩ := nil_eq_append_iff.mp (Except.ok.inj h)
    exact .inl ⟨0, rfl, hnil⟩
  | cons i is ih =>
    obtain ⟨cs, hcs, hb⟩ := bind_eq_ok.mp h
    obtain ⟨ds, hds, hb⟩ := bind_eq_ok.mp hb
    have hall : cs ++ ds = p ++ rest := Except.ok.inj hb
    rw [Instruction.areProper, Bool.and_eq_true] at hp
    rw [Instruction.depthAll, max_le_iff] at hd
    have hr := reads_write hp.1 hd.1 hcs
    by_cases hempty : p = []
    · subst hempty
      exact .inl ⟨0, rfl, hnil⟩
    obtain ⟨fuel, rfl⟩ : ∃ k, fuel = k + 1 :=
      Nat.exists_eq_succ_of_ne_zero (by have := length_pos_iff.mpr hempty; omega)
    by_cases hwhole : ∃ more, p = cs ++ more
    · obtain ⟨more, rfl⟩ := hwhole
      rw [append_assoc] at hall
      rw [append_cancel_left hall] at hds
      have hlen := length_pos_iff.mpr hr.ne_nil
      rw [length_append] at hfuel
      rw [readFrom_read hr more]
      obtain ⟨k, hk, hread⟩ | ⟨f, hf, hflaw⟩ := @ih more fuel (index + 1) hp.2 hd.2 hds (by omega)
        (by cases fuel <;> rfl)
      · refine .inl ⟨k + 1, ?_, by rw [hread]; rfl⟩
        rw [take_succ_cons, writeAll, hcs, hk]
        rfl
      · exact .inr ⟨f, by rw [hf]; rfl, hflaw⟩
    · -- the first instruction breaks off
      obtain ⟨more, rfl, -⟩ | ⟨more, rfl, -⟩ := append_eq_append_iff.mp hall
      · exact absurd ⟨more, rfl⟩ hwhole
      · have hmore : more ≠ [] := fun hnil => hwhole ⟨[], by rw [hnil, append_nil, append_nil]⟩
        obtain ⟨f, hf, hflaw⟩ := (takes_readUpTo maxDepth).truncated hr hmore
        simp_all [readFrom]

theorem depthAll_append :
    Instruction.depthAll (is ++ js) = max (Instruction.depthAll is) (Instruction.depthAll js) := by
  induction is with
  | nil => exact (Nat.zero_max _).symm
  | cons i is ih => grind [Instruction.depthAll]

/-- A beginning of what was written is read as the instructions that are there as a whole, and is truncated
if it ends within one. Streams written one behind the other are read so. -/
theorem readAll_beginning {is : List Instruction} {bs : Bytes} (hp : Instruction.areProper is = true)
    (hd : Instruction.depthAll is ≤ maxDepth) (h : writeAll is = .ok bs) :
    (∀ p, p <+: bs → (∃ k, writeAll (is.take k) = .ok p ∧ readAll p = .ok (is.take k)) ∨
      ∃ f, readAll p = .error f ∧ f.fault.flaw = .truncated) ∧
    ∀ js cs, Instruction.areProper js = true → Instruction.depthAll js ≤ maxDepth → writeAll js = .ok cs →
      readAll (bs ++ cs) = .ok (is ++ js) := by
  constructor
  · rintro p ⟨rest, rfl⟩
    exact readFrom_beginning hp hd h le_rfl
  · intro js cs hpj hdj hj
    have happ := writeAll_append h hj
    have hpa : Instruction.areProper (is ++ js) = true := by rw [Instruction.areProper_append, hp, hpj]; rfl
    exact readFrom_writeAll hpa (depthAll_append.trans_le (max_le hd hdj)) (length_le_of_writeAll hpa happ) happ

theorem readAll_beginning_lazySample : (∀ p, p <+: lazySampleBytes →
      (∃ k, writeAll (lazySample.take k) = .ok p ∧ readAll p = .ok (lazySample.take k)) ∨
      ∃ f, readAll p = .error f ∧ f.fault.flaw = .truncated) ∧
    readAll (lazySampleBytes ++ lazySampleBytes) = .ok (lazySample ++ lazySample) := by
  obtain ⟨hbeginning, hbehind⟩ := @readAll_beginning lazySample lazySampleBytes (by decide) (by decide) rfl
  exact ⟨hbeginning, hbehind _ _ (by decide) (by decide) rfl⟩

end Wire

end Parlance
